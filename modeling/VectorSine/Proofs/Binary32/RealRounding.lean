import Mathlib.Algebra.Order.Archimedean.Real.Basic
import Mathlib.Algebra.Order.Field.Power
import Mathlib.Data.Int.Log
import Mathlib.Tactic.Linarith
import Mathlib.Tactic.Positivity
import Mathlib.Tactic.Ring
import VectorSine.NearestQuotient

/-! # Rounding of real numbers

`roundReal z` is the multiple of a power of two nearest to `z` that has 24 significant digits, or of
`2⁻¹⁴⁹` where that is coarser. There is no largest number here: overflow is a matter of the
format. What the proofs about the pipeline use of it:

* `abs_roundReal_sub_le`: the error is half a step, so `roundReal_error` bounds it by a relative and
  an absolute part and `roundReal_error_of_le` by the binade.
* `roundReal_mono` and `roundReal_eq`: it is monotone and keeps what it can represent, so no result
  crosses a representable bound.
-/

namespace VectorSine
set_option autoImplicit false
noncomputable section

/-! ## The nearest integer -/

/-- The integer nearest to a real number, the even one of two equally near. -/
def roundEven (t : ℝ) : ℤ :=
  if Int.fract t < 1 / 2 ∨ (Int.fract t = 1 / 2 ∧ Even ⌊t⌋) then ⌊t⌋ else ⌊t⌋ + 1

theorem roundEven_cases (t : ℝ) :
    (roundEven t = ⌊t⌋ ∧ Int.fract t ≤ 1 / 2) ∨ (roundEven t = ⌊t⌋ + 1 ∧ 1 / 2 ≤ Int.fract t) := by
  unfold roundEven
  split
  · next h =>
    left
    refine ⟨rfl, ?_⟩
    rcases h with h | h
    · exact h.le
    · exact h.1.le
  · next h =>
    right
    refine ⟨rfl, ?_⟩
    apply le_of_not_gt
    intro hlt
    exact h (Or.inl hlt)

theorem abs_roundEven_sub_le (t : ℝ) : |(roundEven t : ℝ) - t| ≤ 1 / 2 := by
  have hfract := Int.self_sub_floor t
  have hlt := Int.fract_lt_one t
  have hnonneg := Int.fract_nonneg t
  rcases roundEven_cases t with ⟨h, hle⟩ | ⟨h, hle⟩ <;> rw [h, abs_le] <;> push_cast <;>
    constructor <;> linarith

theorem floor_le_roundEven (t : ℝ) : ⌊t⌋ ≤ roundEven t := by
  rcases roundEven_cases t with ⟨h, -⟩ | ⟨h, -⟩ <;> omega

theorem roundEven_le_floor_add_one (t : ℝ) : roundEven t ≤ ⌊t⌋ + 1 := by
  rcases roundEven_cases t with ⟨h, -⟩ | ⟨h, -⟩ <;> omega

@[simp] theorem roundEven_intCast (m : ℤ) : roundEven (m : ℝ) = m := by
  simp [roundEven]

theorem roundEven_add_half {m : ℤ} (hm : Even m) : roundEven ((m : ℝ) + 1 / 2) = m := by
  have hfloor : ⌊(m : ℝ) + 1 / 2⌋ = m := by
    rw [Int.floor_eq_iff]
    constructor <;> linarith
  have hfract : Int.fract ((m : ℝ) + 1 / 2) = 1 / 2 := by
    rw [← Int.self_sub_floor, hfloor, add_sub_cancel_left]
  unfold roundEven
  rw [hfloor, hfract, if_pos (Or.inr ⟨rfl, hm⟩)]

theorem roundEven_mono {t u : ℝ} (h : t ≤ u) : roundEven t ≤ roundEven u := by
  have hfloor : ⌊t⌋ ≤ ⌊u⌋ := Int.floor_mono h
  rcases hfloor.lt_or_eq with hlt | heq
  · have ht := roundEven_le_floor_add_one t
    have hu := floor_le_roundEven u
    omega
  · have hfract : Int.fract t ≤ Int.fract u := by
      unfold Int.fract
      rw [heq]
      linarith
    unfold roundEven
    rw [heq]
    split
    · split <;> omega
    · next hodd =>
      rw [if_neg]
      rintro (hu | ⟨hu, heven⟩)
      · exact hodd (Or.inl (lt_of_le_of_lt hfract hu))
      · rcases (hu ▸ hfract).lt_or_eq with hlt | htie
        · exact hodd (Or.inl hlt)
        · exact hodd (Or.inr ⟨htie, heven⟩)

theorem le_roundEven {m : ℤ} {t : ℝ} (h : (m : ℝ) ≤ t) : m ≤ roundEven t := by
  rw [← roundEven_intCast m]
  exact roundEven_mono h

theorem roundEven_le {m : ℤ} {t : ℝ} (h : t ≤ m) : roundEven t ≤ m := by
  rw [← roundEven_intCast m]
  exact roundEven_mono h

theorem roundEven_neg (t : ℝ) : roundEven (-t) = -roundEven t := by
  by_cases hint : Int.fract t = 0
  · have ht : t = (⌊t⌋ : ℝ) := by
      have := Int.self_sub_floor t
      linarith
    rw [ht, ← Int.cast_neg, roundEven_intCast, roundEven_intCast]
  · have hfract : Int.fract (-t) = 1 - Int.fract t := Int.fract_neg hint
    have hfloor : ⌊-t⌋ = -⌊t⌋ - 1 := by
      have h1 := Int.self_sub_floor t
      have h2 := Int.self_sub_floor (-t)
      have h3 : ((⌊-t⌋ : ℤ) : ℝ) = ((-⌊t⌋ - 1 : ℤ) : ℝ) := by
        push_cast
        linarith
      exact_mod_cast h3
    have hparity : Even (-⌊t⌋ - 1) ↔ ¬ Even ⌊t⌋ := by
      rw [Int.even_sub_one, even_neg]
    unfold roundEven
    simp only [hfract, hfloor, hparity]
    split_ifs with hneg hpos hpos
    · rcases hneg with hneg | ⟨hneg, hodd⟩ <;> rcases hpos with hpos | ⟨hpos, heven⟩
      · linarith
      · linarith
      · linarith
      · exact absurd heven hodd
    · omega
    · omega
    · simp only [not_or, not_and, not_lt, not_not] at hneg hpos
      have htie : Int.fract t = 1 / 2 := by linarith
      exact absurd (hneg.2 (by linarith)) (hpos.2 htie)

/-! ## The nearest number of 24 digits -/

abbrev quantum : ℝ := 2 ^ (-149 : ℤ)

/-- The power of two that numbers of the size of `z` are multiples of. -/
def stepExponent (z : ℝ) : ℤ := max (Int.log 2 |z| - 23) (-149)

/-- The number of 24 digits nearest to `z`; of two, the one with the even significand. -/
def roundReal (z : ℝ) : ℝ := roundEven (z / 2 ^ stepExponent z) * 2 ^ stepExponent z

theorem abs_roundReal_sub_le (z : ℝ) : |roundReal z - z| ≤ 2 ^ stepExponent z / 2 := by
  have hstep : (0 : ℝ) < 2 ^ stepExponent z := zpow_pos two_pos _
  have hscaled := abs_roundEven_sub_le (z / 2 ^ stepExponent z)
  have hsplit : roundReal z - z =
      (roundEven (z / 2 ^ stepExponent z) - z / 2 ^ stepExponent z) * 2 ^ stepExponent z := by
    unfold roundReal
    rw [sub_mul, div_mul_cancel₀ z hstep.ne']
  rw [hsplit, abs_mul, abs_of_pos hstep]
  calc |(roundEven (z / 2 ^ stepExponent z) : ℝ) - z / 2 ^ stepExponent z| * 2 ^ stepExponent z
      ≤ 1 / 2 * 2 ^ stepExponent z := mul_le_mul_of_nonneg_right hscaled hstep.le
    _ = 2 ^ stepExponent z / 2 := by ring

@[simp] theorem stepExponent_neg (z : ℝ) : stepExponent (-z) = stepExponent z := by
  rw [stepExponent, abs_neg, stepExponent]

theorem roundReal_neg (z : ℝ) : roundReal (-z) = -roundReal z := by
  unfold roundReal
  rw [stepExponent_neg, neg_div, roundEven_neg, Int.cast_neg, neg_mul]

@[simp] theorem roundReal_zero : roundReal 0 = 0 := by
  unfold roundReal
  rw [zero_div, ← Int.cast_zero, roundEven_intCast, Int.cast_zero, zero_mul]

theorem stepExponent_ge (z : ℝ) : -149 ≤ stepExponent z := le_max_right _ _

/-- A number below `2ᵏ` is rounded to a multiple of `2ᵏ⁻²⁴`, or of a finer power. -/
theorem stepExponent_le {z : ℝ} {k : ℤ} (h0 : z ≠ 0) (hz : |z| < 2 ^ k) (hk : -125 ≤ k) :
    stepExponent z ≤ k - 24 := by
  have hlog : Int.log 2 |z| < k :=
    (Int.lt_zpow_iff_log_lt one_lt_two (abs_pos.2 h0)).1 (by exact_mod_cast hz)
  unfold stepExponent
  apply max_le
  · omega
  · omega

theorem two_zpow_log_le {z : ℝ} (h0 : z ≠ 0) : (2 : ℝ) ^ Int.log 2 |z| ≤ |z| := by
  have h := Int.zpow_log_le_self one_lt_two (abs_pos.2 h0)
  exact_mod_cast h

theorem lt_two_zpow_log_succ (z : ℝ) : |z| < (2 : ℝ) ^ (Int.log 2 |z| + 1) := by
  have h := Int.lt_zpow_succ_log_self one_lt_two |z|
  exact_mod_cast h

/-- A multiple of the step's power of two is kept. -/
theorem roundReal_of_step_dvd {z : ℝ} {m e : ℤ} (hz : z = m * 2 ^ e) (he : stepExponent z ≤ e) :
    roundReal z = z := by
  have hstep : (2 : ℝ) ^ stepExponent z ≠ 0 := (zpow_pos two_pos _).ne'
  obtain ⟨n, hn⟩ := Int.eq_ofNat_of_zero_le (sub_nonneg.2 he)
  have hquotient : z / 2 ^ stepExponent z = ((m * 2 ^ n : ℤ) : ℝ) := by
    rw [div_eq_iff hstep]
    calc z = m * 2 ^ e := hz
      _ = m * (2 ^ (n : ℤ) * 2 ^ stepExponent z) := by
        rw [← zpow_add₀ two_ne_zero]
        congr 2
        omega
      _ = ((m * 2 ^ n : ℤ) : ℝ) * 2 ^ stepExponent z := by
        push_cast
        rw [zpow_natCast]
        ring
  unfold roundReal
  rw [hquotient, roundEven_intCast, ← hquotient, div_mul_cancel₀ z hstep]

theorem roundReal_eq {z : ℝ} {m e : ℤ} (hz : z = m * 2 ^ e) (hm : |m| ≤ 2 ^ 24) (he : -149 ≤ e) :
    roundReal z = z := by
  -- a significand of `2²⁴` itself counts as half of it at the next exponent
  wlog hlt : |m| < 2 ^ 24 generalizing m e
  · have hm24 : |m| = 2 ^ 24 := le_antisymm hm (not_lt.1 hlt)
    obtain ⟨k, hk, rfl⟩ : ∃ k : ℤ, |k| < 2 ^ 24 ∧ m = 2 * k := by
      rcases abs_eq (by norm_num) |>.1 hm24 with rfl | rfl
      · exact ⟨2 ^ 23, by norm_num, by norm_num⟩
      · exact ⟨-2 ^ 23, by norm_num, by norm_num⟩
    refine this (m := k) (e := e + 1) ?_ hk.le (by omega) hk
    rw [hz, zpow_add_one₀ two_ne_zero]
    push_cast
    ring
  by_cases h0 : z = 0
  · rw [h0, roundReal_zero]
  apply roundReal_of_step_dvd hz
  have hpos : (0 : ℝ) < 2 ^ e := zpow_pos two_pos e
  have hlow : |z| < 2 ^ (e + 24) := by
    have hm' : |(m : ℝ)| < 2 ^ 24 := by exact_mod_cast hlt
    calc |z| = |(m : ℝ)| * 2 ^ e := by rw [hz, abs_mul, abs_of_pos hpos]
      _ < 2 ^ 24 * 2 ^ e := mul_lt_mul_of_pos_right hm' hpos
      _ = 2 ^ (e + 24) := by rw [zpow_add₀ two_ne_zero, mul_comm]; norm_num
  have hstep := stepExponent_le h0 hlow (by omega)
  omega

theorem roundReal_two_zpow {k : ℤ} (hk : -149 ≤ k) : roundReal (2 ^ k) = 2 ^ k :=
  roundReal_eq (m := 1) (by rw [Int.cast_one, one_mul]) (by norm_num) hk

/-! ## Monotonicity -/

theorem roundReal_nonneg {z : ℝ} (hz : 0 ≤ z) : 0 ≤ roundReal z := by
  have hstep : (0 : ℝ) < 2 ^ stepExponent z := zpow_pos two_pos _
  have hquotient : ((0 : ℤ) : ℝ) ≤ z / 2 ^ stepExponent z := by
    rw [Int.cast_zero]
    exact div_nonneg hz hstep.le
  unfold roundReal
  apply mul_nonneg _ hstep.le
  exact_mod_cast le_roundEven hquotient

/-- No result crosses a multiple of the step. -/
theorem roundReal_le_of_step {z : ℝ} {k : ℤ} (hk : stepExponent z ≤ k) (h : z ≤ 2 ^ k) :
    roundReal z ≤ 2 ^ k := by
  have hstep : (0 : ℝ) < 2 ^ stepExponent z := zpow_pos two_pos _
  obtain ⟨n, hn⟩ := Int.eq_ofNat_of_zero_le (sub_nonneg.2 hk)
  have hsplit : (2 : ℝ) ^ k = ((2 ^ n : ℤ) : ℝ) * 2 ^ stepExponent z := by
    push_cast
    rw [← zpow_natCast, ← zpow_add₀ two_ne_zero]
    congr 1
    omega
  have hquotient : z / 2 ^ stepExponent z ≤ ((2 ^ n : ℤ) : ℝ) := by
    rw [div_le_iff₀ hstep, ← hsplit]
    exact h
  rw [hsplit, roundReal]
  apply mul_le_mul_of_nonneg_right _ hstep.le
  exact_mod_cast roundEven_le hquotient

theorem le_roundReal_of_step {z : ℝ} {k : ℤ} (hk : stepExponent z ≤ k) (h : 2 ^ k ≤ z) :
    2 ^ k ≤ roundReal z := by
  have hstep : (0 : ℝ) < 2 ^ stepExponent z := zpow_pos two_pos _
  obtain ⟨n, hn⟩ := Int.eq_ofNat_of_zero_le (sub_nonneg.2 hk)
  have hsplit : (2 : ℝ) ^ k = ((2 ^ n : ℤ) : ℝ) * 2 ^ stepExponent z := by
    push_cast
    rw [← zpow_natCast, ← zpow_add₀ two_ne_zero]
    congr 1
    omega
  have hquotient : ((2 ^ n : ℤ) : ℝ) ≤ z / 2 ^ stepExponent z := by
    rw [le_div_iff₀ hstep, ← hsplit]
    exact h
  rw [hsplit, roundReal]
  apply mul_le_mul_of_nonneg_right _ hstep.le
  exact_mod_cast le_roundEven hquotient

theorem roundReal_mono_of_nonneg {z w : ℝ} (hz : 0 ≤ z) (h : z ≤ w) :
    roundReal z ≤ roundReal w := by
  rcases hz.eq_or_lt with rfl | hpos
  · rw [roundReal_zero]
    exact roundReal_nonneg h
  have hwpos : 0 < w := hpos.trans_le h
  have hlog : Int.log 2 |z| ≤ Int.log 2 |w| := by
    rw [abs_of_pos hpos, abs_of_pos hwpos]
    exact Int.log_mono_right hpos h
  have hstep : stepExponent z ≤ stepExponent w := by
    unfold stepExponent
    exact max_le_max (by omega) le_rfl
  rcases hstep.eq_or_lt with heq | hlt
  · have hpow : (0 : ℝ) < 2 ^ stepExponent w := zpow_pos two_pos _
    unfold roundReal
    rw [heq]
    apply mul_le_mul_of_nonneg_right _ hpow.le
    exact_mod_cast roundEven_mono (div_le_div_of_nonneg_right h hpow.le)
  · -- a power of two lies between them, and neither rounding crosses it
    have hw : stepExponent w = Int.log 2 |w| - 23 := by
      have hge := stepExponent_ge z
      unfold stepExponent at hlt hge ⊢
      omega
    have hzlog : Int.log 2 |z| < Int.log 2 |w| := by
      unfold stepExponent at hlt
      omega
    have hzle : z ≤ 2 ^ Int.log 2 |w| := by
      have hself := lt_two_zpow_log_succ z
      rw [abs_of_pos hpos] at hself
      apply hself.le.trans
      rw [← abs_of_pos hpos]
      exact zpow_le_zpow_right₀ one_le_two hzlog
    have hlew : (2 : ℝ) ^ Int.log 2 |w| ≤ w := by
      have hself := two_zpow_log_le hwpos.ne'
      rw [abs_of_pos hwpos] at hself ⊢
      exact hself
    exact (roundReal_le_of_step (by omega) hzle).trans (le_roundReal_of_step (by omega) hlew)

theorem roundReal_mono {z w : ℝ} (h : z ≤ w) : roundReal z ≤ roundReal w := by
  rcases le_total 0 z with hz | hz
  · exact roundReal_mono_of_nonneg hz h
  rcases le_total 0 w with hw | hw
  · have hneg : 0 ≤ roundReal (-z) := roundReal_nonneg (by linarith)
    rw [roundReal_neg] at hneg
    exact (by linarith : roundReal z ≤ 0).trans (roundReal_nonneg hw)
  · have hneg : roundReal (-w) ≤ roundReal (-z) :=
      roundReal_mono_of_nonneg (by linarith) (by linarith)
    rw [roundReal_neg, roundReal_neg] at hneg
    linarith

/-- A power of two bounds the result if it bounds the exact one. -/
theorem abs_roundReal_le {z : ℝ} {k : ℤ} (hk : -149 ≤ k) (h : |z| ≤ 2 ^ k) :
    |roundReal z| ≤ 2 ^ k := by
  have hup := roundReal_mono (abs_le.1 h).2
  have hdown := roundReal_mono (abs_le.1 h).1
  rw [roundReal_neg] at hdown
  rw [roundReal_two_zpow hk] at hup hdown
  exact abs_le.2 ⟨hdown, hup⟩

/-! ## Errors -/

/-- A relative error of `2⁻²⁴`, and half a quantum where the numbers are sparse. -/
theorem roundReal_error (z : ℝ) : |roundReal z - z| ≤ 2 ^ (-24 : ℤ) * |z| + 2 ^ (-150 : ℤ) := by
  by_cases h0 : z = 0
  · rw [h0, roundReal_zero, sub_zero, abs_zero, mul_zero, zero_add]
    positivity
  have herror := abs_roundReal_sub_le z
  have hhalf : (2 : ℝ) ^ stepExponent z / 2 = 2 ^ (stepExponent z - 1) := by
    rw [zpow_sub_one₀ two_ne_zero, div_eq_mul_inv]
  have hrelative : (0 : ℝ) ≤ 2 ^ (-24 : ℤ) * |z| := by positivity
  have habsolute : (0 : ℝ) < 2 ^ (-150 : ℤ) := zpow_pos two_pos _
  rw [hhalf] at herror
  rcases le_total (Int.log 2 |z| - 23) (-149) with hle | hle
  · have hstep : stepExponent z = -149 := max_eq_right hle
    rw [hstep, show (-149 - 1 : ℤ) = -150 by norm_num] at herror
    linarith
  · have hstep : stepExponent z - 1 = -24 + Int.log 2 |z| := by
      have := max_eq_left hle
      unfold stepExponent
      omega
    rw [hstep, zpow_add₀ two_ne_zero] at herror
    have hlow := mul_le_mul_of_nonneg_left (two_zpow_log_le h0) (zpow_pos two_pos (-24)).le
    linarith

/-- Up to `2ᵏ` numbers are multiples of `2ᵏ⁻²⁴` or finer. -/
theorem roundReal_error_of_le {z : ℝ} {k : ℤ} (hz : |z| ≤ 2 ^ k) (hk : -125 ≤ k) :
    |roundReal z - z| ≤ 2 ^ (k - 25) := by
  have hpos : (0 : ℝ) < 2 ^ (k - 25) := zpow_pos two_pos _
  rcases hz.lt_or_eq with hlt | heq
  · by_cases h0 : z = 0
    · rw [h0, roundReal_zero, sub_zero, abs_zero]
      exact hpos.le
    · apply (abs_roundReal_sub_le z).trans
      rw [show (2 : ℝ) ^ stepExponent z / 2 = 2 ^ (stepExponent z - 1) by
        rw [zpow_sub_one₀ two_ne_zero, div_eq_mul_inv]]
      have hstep := stepExponent_le h0 hlt hk
      exact zpow_le_zpow_right₀ one_le_two (by omega)
  · have hkeep : roundReal z = z := by
      rcases abs_eq (zpow_pos two_pos k).le |>.1 heq with h | h
      · rw [h]
        exact roundReal_two_zpow (by omega)
      · rw [h, roundReal_neg, roundReal_two_zpow (by omega)]
    rw [hkeep, sub_self, abs_zero]
    exact hpos.le

/-! ## Errors in decimals -/

theorem roundReal_near (r : ℝ) : |roundReal r - r| ≤ 597 / 10 ^ 10 * |r| + 1 / 10 ^ 40 := by
  have herror := roundReal_error r
  have hrelative : (2 : ℝ) ^ (-24 : ℤ) ≤ 597 / 10 ^ 10 := by norm_num
  have habsolute : (2 : ℝ) ^ (-150 : ℤ) ≤ 1 / 10 ^ 40 := by norm_num
  calc |roundReal r - r| ≤ 2 ^ (-24 : ℤ) * |r| + 2 ^ (-150 : ℤ) := herror
    _ ≤ 597 / 10 ^ 10 * |r| + 1 / 10 ^ 40 :=
      add_le_add (mul_le_mul_of_nonneg_right hrelative (abs_nonneg r)) habsolute

theorem roundReal_near_of_near {r t δ : ℝ} (h : |r - t| ≤ δ) :
    |roundReal r - t| ≤ δ + (597 / 10 ^ 10 * (|t| + δ) + 1 / 10 ^ 40) := by
  have hround := roundReal_near r
  have hsize : |r| ≤ |t| + δ := by
    calc |r| = |t + (r - t)| := by rw [add_sub_cancel]
      _ ≤ |t| + |r - t| := abs_add_le _ _
      _ ≤ |t| + δ := by linarith
  calc |roundReal r - t| = |(roundReal r - r) + (r - t)| := by rw [sub_add_sub_cancel]
    _ ≤ |roundReal r - r| + |r - t| := abs_add_le _ _
    _ ≤ δ + (597 / 10 ^ 10 * (|t| + δ) + 1 / 10 ^ 40) := by
      have hscaled := mul_le_mul_of_nonneg_left hsize (by norm_num : (0 : ℝ) ≤ 597 / 10 ^ 10)
      linarith

theorem roundReal_near_of_le_one {r : ℝ} (h : |r| ≤ 1) : |roundReal r - r| ≤ 2981 / 10 ^ 11 := by
  have herror := roundReal_error_of_le (k := 0) (by rw [zpow_zero]; exact h) (by norm_num)
  exact herror.trans (by norm_num)

theorem roundReal_near_of_le_two {r : ℝ} (h : |r| ≤ 2) : |roundReal r - r| ≤ 597 / 10 ^ 10 := by
  have herror := roundReal_error_of_le (k := 1) (by rw [zpow_one]; exact h) (by norm_num)
  exact herror.trans (by norm_num)

/-! ## Between two neighbours -/

theorem stepExponent_eq {z : ℝ} {k : ℤ} (hlow : 2 ^ k ≤ z) (hhigh : z < 2 ^ (k + 1))
    (hk : -126 ≤ k) : stepExponent z = k - 23 := by
  have hpos : 0 < z := (zpow_pos two_pos k).trans_le hlow
  have hge : k ≤ Int.log 2 z := (Int.zpow_le_iff_le_log one_lt_two hpos).1 (by exact_mod_cast hlow)
  have hlt : Int.log 2 z < k + 1 :=
    (Int.lt_zpow_iff_log_lt one_lt_two hpos).1 (by exact_mod_cast hhigh)
  unfold stepExponent
  rw [abs_of_pos hpos]
  omega

/-- A number more than halfway to a multiple of the step does not stay below it. -/
theorem le_roundReal_of_half {z : ℝ} {m k : ℤ} (hlow : 2 ^ k ≤ z) (hhigh : z < 2 ^ (k + 1))
    (hk : -126 ≤ k) (h : (m - 1 / 2) * 2 ^ (k - 23) < z) : m * 2 ^ (k - 23) ≤ roundReal z := by
  have hstep : (0 : ℝ) < 2 ^ (k - 23) := zpow_pos two_pos _
  unfold roundReal
  rw [stepExponent_eq hlow hhigh hk]
  apply mul_le_mul_of_nonneg_right _ hstep.le
  have hquotient : (m : ℝ) - 1 / 2 < z / 2 ^ (k - 23) := (lt_div_iff₀ hstep).2 h
  have hround := (abs_le.1 (abs_roundEven_sub_le (z / 2 ^ (k - 23)))).1
  have hlt : (m : ℝ) - 1 < roundEven (z / 2 ^ (k - 23)) := by linarith
  have hint : m - 1 < roundEven (z / 2 ^ (k - 23)) := by exact_mod_cast hlt
  exact_mod_cast (by omega : m ≤ roundEven (z / 2 ^ (k - 23)))

/-- Halfway to the next number a power of two is the even one of the two. -/
theorem roundReal_le_of_half {z : ℝ} {k : ℤ} (hk : -126 ≤ k) (h : z ≤ 2 ^ k + 2 ^ (k - 24)) :
    roundReal z ≤ 2 ^ k := by
  have hstep : (0 : ℝ) < 2 ^ (k - 23) := zpow_pos two_pos _
  have hpow : (2 : ℝ) ^ k = 2 ^ 23 * 2 ^ (k - 23) := by
    rw [← zpow_natCast, ← zpow_add₀ two_ne_zero]
    congr 1
    omega
  have hhalf : (2 : ℝ) ^ (k - 24) = 1 / 2 * 2 ^ (k - 23) := by
    rw [show k - 24 = k - 23 - 1 by ring, zpow_sub_one₀ two_ne_zero]
    ring
  have hquotient : ((2 : ℝ) ^ k + 2 ^ (k - 24)) / 2 ^ (k - 23) = ((2 ^ 23 : ℤ) : ℝ) + 1 / 2 := by
    rw [hpow, hhalf, ← add_mul, mul_div_cancel_right₀ _ hstep.ne']
    norm_num
  have htie : roundReal (2 ^ k + 2 ^ (k - 24)) = 2 ^ k := by
    have hstepExponent : stepExponent ((2 : ℝ) ^ k + 2 ^ (k - 24)) = k - 23 := by
      apply stepExponent_eq _ _ hk
      · rw [hhalf]
        linarith
      · rw [zpow_add_one₀ two_ne_zero, hhalf, hpow]
        linarith
    unfold roundReal
    rw [hstepExponent, hquotient, roundEven_add_half (by decide), hpow]
    norm_num
  rw [← htie]
  exact roundReal_mono h

/-- A number that is near one up to a power of two, and itself at most halfway to the next number
above the power, is rounded with the error of those up to the power. -/
theorem roundReal_near_of_half {z t δ : ℝ} {k : ℤ} (hk : -125 ≤ k) (hz0 : 0 ≤ z)
    (hz : z ≤ 2 ^ k + 2 ^ (k - 24)) (ht : t ≤ 2 ^ k) (h : |z - t| ≤ δ) :
    |roundReal z - t| ≤ δ + 2 ^ (k - 25) := by
  have hstep : (0 : ℝ) < 2 ^ (k - 25) := zpow_pos two_pos _
  rcases le_or_gt z (2 ^ k) with hle | hgt
  · have hround := roundReal_error_of_le (by rwa [abs_of_nonneg hz0]) hk
    calc |roundReal z - t| = |(roundReal z - z) + (z - t)| := by rw [sub_add_sub_cancel]
      _ ≤ |roundReal z - z| + |z - t| := abs_add_le _ _
      _ ≤ δ + 2 ^ (k - 25) := by linarith
  -- above the power the rounding goes back to it, and so towards the other number
  · have hlow := roundReal_mono hgt.le
    rw [roundReal_two_zpow (by omega)] at hlow
    have hround : roundReal z = 2 ^ k := le_antisymm (roundReal_le_of_half (by omega) hz) hlow
    have hdistance := (abs_le.1 h).2
    rw [hround, abs_of_nonneg (by linarith)]
    linarith

theorem abs_roundReal_le_of_half {z : ℝ} {k : ℤ} (hk : -126 ≤ k)
    (h : |z| ≤ 2 ^ k + 2 ^ (k - 24)) : |roundReal z| ≤ 2 ^ k := by
  have hneg := roundReal_le_of_half hk ((neg_le_abs z).trans h)
  rw [roundReal_neg] at hneg
  exact abs_le.2 ⟨neg_le.1 hneg, roundReal_le_of_half hk ((le_abs_self z).trans h)⟩

end
end VectorSine
