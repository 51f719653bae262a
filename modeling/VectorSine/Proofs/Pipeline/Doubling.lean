import VectorSine.Pipeline.HalfAngle
import VectorSine.Proofs.Binary32.Opposite

/-! # What the doublings do to any number

No range of angles is assumed here: the doublings get whatever the series makes of the reduced
angle. On `[0, 4]` a doubling stays in `[0, 4]`. The exact product `v (4 - v)` is at most `4`, and
the rounding of the difference puts it at most halfway to the next number, from where it is rounded
back. A number below zero or above four, the infinities included, is doubled to one below zero, and
that is kept.

So there are three cases: from a NaN the sine is a NaN, from `[0, 4]` both functions are in the
range of a sine and a cosine, and from anything else the sine is the root of a negative number, a
NaN again.

* `double_inside`, `double_outside`: one doubling.
* `doubled_inside`, `doubled_outside`: any number of them.
* `sineCosine_of_inside`, `sine_nan_of_not_inside`: both functions of the half angle.
* `doubled_range`: the same by comparisons of numbers.
-/

namespace VectorSine
set_option autoImplicit false
noncomputable section

open Binary32

namespace HalfAngle

variable {v K s : Binary32} {a κ r : ℝ} {k : ℤ}

/-! ## From a NaN to a NaN -/

theorem double_nan (h : v.datum = .nan) : double v = nan := nan_mul h _

theorem doubled_nan (n : ℕ) (h : v.datum = .nan) : (doubled n v).datum = .nan := by
  induction n generalizing v with
  | zero => exact h
  | succ n ih =>
    apply ih
    rw [double_nan h, datum_nan]

theorem series_nan (fused : Bool) (h : s.datum = .nan) : (series fused s).datum = .nan := by
  have heighth : (s.divNat 8).datum = .nan := by rw [divNat_nan h, datum_nan]
  have hsquare : (s.divNat 8 * s.divNat 8).datum = .nan := by rw [nan_mul heighth, datum_nan]
  unfold series
  rw [mul_nan _ hsquare, datum_nan]

theorem sine_nan_of_series (fused : Bool) (h : (series fused s).datum = .nan) :
    (sineCosine fused s).sine = nan := by
  have hversine : ((doubled 3 (series fused s)).divNat 2).datum = .nan := by
    rw [divNat_nan (doubled_nan 3 h), datum_nan]
  change Binary32.sqrt _ = nan
  rw [mul_nan _ hversine]
  exact sqrt_nan datum_nan

theorem sine_nan (fused : Bool) (h : s.datum = .nan) : (sineCosine fused s).sine = nan :=
  sine_nan_of_series fused (series_nan fused h)

/-! ## From zero to four -/

/-- A product with what is left to a power of two does not exceed the square of its half, although
the difference is rounded. -/
theorem roundReal_rest_product_le (hv : v.HasValue a) (ha0 : 0 ≤ a) (ha : a ≤ 2 ^ (k + 1))
    (hk0 : 0 ≤ k) : roundReal (a * roundReal (2 ^ (k + 1) - a)) ≤ 2 ^ (2 * k) := by
  have hpos : (0 : ℝ) < 2 ^ k := zpow_pos two_pos k
  have htwice : (2 : ℝ) ^ (k + 1) = 2 * 2 ^ k := by rw [zpow_add_one₀ two_ne_zero, mul_comm]
  have hsquare : (2 : ℝ) ^ (2 * k) = 2 ^ k * 2 ^ k := by rw [← zpow_add₀ two_ne_zero, two_mul]
  have hexact : a * (2 ^ (k + 1) - a) ≤ 2 ^ (2 * k) := by
    rw [htwice, hsquare]
    nlinarith [sq_nonneg (2 ^ k - a)]
  rcases le_or_gt (2 ^ k) a with hge | hlt
  -- from the half on the difference is not larger than the number, and so is exact
  · have hapos : 0 < a := hpos.trans_le hge
    have hlow : k ≤ Int.log 2 a :=
      (Int.zpow_le_iff_le_log one_lt_two hapos).1 (by exact_mod_cast hge)
    have hhigh : Int.log 2 a < k + 2 := by
      apply (Int.lt_zpow_iff_log_lt one_lt_two hapos).1
      push_cast
      exact ha.trans_lt (zpow_lt_zpow_right₀ one_lt_two (by omega))
    have hrest := hv.roundReal_sub_multiple hapos (z := 1) (e := k + 1) (by omega) (by omega) (by
      rw [Int.cast_one, one_mul, htwice, abs_le]
      constructor <;> linarith)
    rw [Int.cast_one, one_mul] at hrest
    have hdifference : roundReal (2 ^ (k + 1) - a) = 2 ^ (k + 1) - a := by
      rw [← neg_sub, roundReal_neg, hrest]
    rw [hdifference, ← roundReal_two_zpow (k := 2 * k) (by omega)]
    exact roundReal_mono hexact
  · have hrest : |2 ^ (k + 1) - a| ≤ 2 ^ (k + 1) := by
      rw [abs_le]
      constructor <;> linarith
    have herror := (abs_le.1 (roundReal_error_of_le hrest (by omega))).2
    have hhalf : (2 : ℝ) ^ (2 * k - 24) = 2 ^ k * 2 ^ (k + 1 - 25) := by
      rw [← zpow_add₀ two_ne_zero]
      congr 1
      ring
    apply roundReal_le_of_half (by omega)
    rw [hhalf]
    have hscaled := mul_le_mul_of_nonneg_left herror ha0
    have hsmall : a * 2 ^ (k + 1 - 25) ≤ 2 ^ k * 2 ^ (k + 1 - 25) :=
      mul_le_mul_of_nonneg_right hlt.le (zpow_pos two_pos _).le
    linarith

/-- What a factor and the rest to `2ᵏ⁺¹` come to, both roundings included. -/
theorem hasValue_rest_product (hv : v.HasValue a) (hK : K.HasValue (2 ^ (k + 1))) (ha0 : 0 ≤ a)
    (ha : a ≤ 2 ^ (k + 1)) (hk0 : 0 ≤ k) (hk1 : k ≤ 1) :
    ∃ b, (v * (K - v)).HasValue b ∧ 0 ≤ b ∧ b ≤ 2 ^ (2 * k) := by
  have hfour : (2 : ℝ) ^ (k + 1) ≤ 4 := by
    calc (2 : ℝ) ^ (k + 1) ≤ 2 ^ (2 : ℤ) := zpow_le_zpow_right₀ one_le_two (by omega)
      _ = 4 := by norm_num
  have hrest0 : 0 ≤ 2 ^ (k + 1) - a := by linarith
  have hdifference := hasValue_sub hK hv (abs_le_two_zpow_127 (by
    rw [abs_of_nonneg hrest0]
    linarith))
  have hrounded0 := roundReal_nonneg hrest0
  have hrounded : roundReal (2 ^ (k + 1) - a) ≤ 4 := by
    calc roundReal (2 ^ (k + 1) - a) ≤ roundReal (2 ^ (2 : ℤ)) :=
          roundReal_mono (by norm_num; linarith)
      _ = 4 := by rw [roundReal_two_zpow (by norm_num)]; norm_num
  have hproduct0 := mul_nonneg ha0 hrounded0
  refine ⟨_, hasValue_mul hv hdifference ?_, roundReal_nonneg hproduct0,
    roundReal_rest_product_le hv ha0 ha hk0⟩
  rw [abs_of_nonneg hproduct0]
  have hsize : a * roundReal (2 ^ (k + 1) - a) ≤ 4 * 4 :=
    mul_le_mul (ha.trans hfour) hrounded hrounded0 (by norm_num)
  exact hsize.trans (by norm_num)

/-- A number from zero to four. -/
def Inside (v : Binary32) : Prop := ∃ a, v.HasValue a ∧ 0 ≤ a ∧ a ≤ 4

theorem double_inside (h : Inside v) : Inside (double v) := by
  obtain ⟨a, hv, ha0, ha⟩ := h
  have hpow : (2 : ℝ) ^ ((1 : ℤ) + 1) = 4 := by norm_num
  have hmem := hasValue_rest_product (k := 1) hv (by rw [hpow]; exact hasValue_four) ha0
    (by rw [hpow]; exact ha) (by norm_num) le_rfl
  norm_num at hmem
  exact hmem

theorem doubled_inside (n : ℕ) (h : Inside v) : Inside (doubled n v) := by
  induction n generalizing v with
  | zero => exact h
  | succ n ih => exact ih (double_inside h)

/-! ## Below zero and above four -/

/-- A negative number and a positive constant less it have a product that is at least as far below
zero as the constant makes it. -/
theorem rest_product_below (hv : (-v).AtLeast r) (hK : K.HasValue κ) (hr : 0 < r) (hκ : 0 < κ) :
    (-(v * (K - v))).AtLeast (roundReal (r * κ)) := by
  have hsum : (K - v).AtLeast (roundReal (r + κ)) := by
    have hadd := hv.add hK (add_pos hr hκ)
    rwa [add_comm_binary32] at hadd
  have hrest : (K - v).AtLeast κ := by
    apply hsum.mono
    calc κ = roundReal κ := hK.roundReal_eq.symm
      _ ≤ roundReal (r + κ) := roundReal_mono (by linarith)
  exact hv.neg_mul hrest hr hκ

theorem double_below (hv : (-v).AtLeast (2 ^ (-149 : ℤ))) :
    (-(double v)).AtLeast (2 ^ (-147 : ℤ)) := by
  have hproduct := rest_product_below hv hasValue_four (zpow_pos two_pos _) (by norm_num)
  have hpow : (2 : ℝ) ^ (-149 : ℤ) * 4 = 2 ^ (-147 : ℤ) := by norm_num
  rwa [hpow, roundReal_two_zpow (by norm_num)] at hproduct

/-- The next number after four is `2⁻²¹` above it. -/
theorem double_beyond (hv : v.AtLeast (4 + 2 ^ (-21 : ℤ))) :
    (-(double v)).AtLeast (2 ^ (-147 : ℤ)) := by
  have hsum : 4 + (2 : ℝ) ^ (-21 : ℤ) + -4 = 2 ^ (-21 : ℤ) := by ring
  have hdifference : (v - four).AtLeast (2 ^ (-21 : ℤ)) := by
    have hadd := hv.add (hasValue_neg hasValue_four) (by rw [hsum]; positivity)
    rwa [hsum, roundReal_two_zpow (by norm_num)] at hadd
  have hrest : (-(four - v)).AtLeast (2 ^ (-21 : ℤ)) := hdifference.neg_sub (by positivity)
  have hfour : v.AtLeast (2 ^ (2 : ℤ)) := hv.mono (by norm_num)
  have hproduct := hrest.neg_mul hfour (by positivity) (by positivity)
  rw [← zpow_add₀ two_ne_zero, roundReal_two_zpow (by norm_num), mul_comm_binary32] at hproduct
  exact hproduct.mono (zpow_le_zpow_right₀ one_le_two (by norm_num))

/-- A number below zero or above four, an infinity of either sign included. -/
inductive Outside (v : Binary32) : Prop where
  | below (h : (-v).AtLeast (2 ^ (-149 : ℤ)))
  | above (h : v.AtLeast (4 + 2 ^ (-21 : ℤ)))

theorem double_outside (hv : Outside v) : (-(double v)).AtLeast (2 ^ (-147 : ℤ)) := by
  cases hv with
  | below h => exact double_below h
  | above h => exact double_beyond h

theorem outside_of_below (hv : (-v).AtLeast (2 ^ (-147 : ℤ))) : Outside v :=
  .below (hv.mono (zpow_le_zpow_right₀ one_le_two (by norm_num)))

theorem doubled_outside (n : ℕ) (hv : Outside v) :
    (-(doubled (n + 1) v)).AtLeast (2 ^ (-147 : ℤ)) := by
  induction n generalizing v with
  | zero => exact double_outside hv
  | succ n ih => exact ih (outside_of_below (double_outside hv))

/-- A number below zero is at least a quantum below it. -/
theorem below_of_neg (hv : v.HasValue a) (ha : a < 0) : (-v).AtLeast (2 ^ (-149 : ℤ)) := by
  obtain ⟨n, hn, -, hna⟩ := (hasValue_neg hv).datum_of_pos (neg_pos.2 ha)
  refine Or.inr ⟨-a, hasValue_neg hv, ?_⟩
  have hone : (1 : ℝ) ≤ n := by exact_mod_cast hn
  rw [← hna]
  exact le_mul_of_one_le_left (zpow_pos two_pos _).le hone

/-- Numbers from four on are multiples of `2⁻²¹`. -/
theorem above_of_gt (hv : v.HasValue a) (ha : 4 < a) : v.AtLeast (4 + 2 ^ (-21 : ℤ)) := by
  refine Or.inr ⟨a, hv, ?_⟩
  obtain ⟨i, hi⟩ := hv.multiple 2 (by rw [abs_of_pos (by linarith)]; norm_num; linarith)
  norm_num at hi ⊢
  rw [hi] at ha ⊢
  have hint : 8388608 < i := by
    have hreal : (8388608 : ℝ) < i := by linarith
    exact_mod_cast hreal
  have hreal : (8388609 : ℝ) ≤ i := by exact_mod_cast hint
  linarith

/-- Three cases and no others. -/
theorem range_cases (v : Binary32) : v.datum = .nan ∨ Outside v ∨ Inside v := by
  cases hdatum : v.datum with
  | nan => exact Or.inl rfl
  | infinite negative =>
    right
    left
    cases negative with
    | true =>
      refine .below (Or.inl ?_)
      rw [datum_neg, hdatum]
      rfl
    | false => exact .above (Or.inl hdatum)
  | finite negative m =>
    right
    have hv := hasValue_of_datum hdatum
    generalize ((Datum.signed negative m : ℤ) : ℝ) * 2 ^ (-149 : ℤ) = a at hv
    rcases lt_or_ge a 0 with hneg | hnonneg
    · exact Or.inl (.below (below_of_neg hv hneg))
    · rcases le_or_gt a 4 with hle | hgt
      · exact Or.inr ⟨a, hv, hnonneg, hle⟩
      · exact Or.inl (.above (above_of_gt hv hgt))

/-! ## Both functions -/

theorem sqrt_mem (hv : v.HasValue a) (ha0 : 0 ≤ a) (ha : a ≤ 1) :
    ∃ b, v.sqrt.HasValue b ∧ 0 ≤ b ∧ b ≤ 1 := by
  obtain ⟨r, hr0, hr, hsqrt⟩ := hasValue_sqrt hv ha0 (ha.trans (by norm_num))
  refine ⟨_, hsqrt, roundReal_nonneg hr0, ?_⟩
  have hroot : √a ≤ 1 := Real.sqrt_le_one.2 ha
  have hquantum : (2 : ℝ) ^ (-150 : ℤ) ≤ 2 ^ ((0 : ℤ) - 24) :=
    zpow_le_zpow_right₀ one_le_two (by norm_num)
  have hle : r ≤ 2 ^ (0 : ℤ) + 2 ^ ((0 : ℤ) - 24) := by
    have h := (abs_le.1 hr).2
    rw [zpow_zero]
    linarith
  have hround := roundReal_le_of_half (by norm_num) hle
  rwa [zpow_zero] at hround

theorem ofVersine_mem (hv : v.HasValue a) (ha0 : 0 ≤ a) (ha : a ≤ 2) :
    ∃ b c, (ofVersine v).sine.HasValue b ∧ (ofVersine v).cosine.HasValue c ∧ 0 ≤ b ∧ b ≤ 1 ∧
      |c| ≤ 1 := by
  have hpow : (2 : ℝ) ^ ((0 : ℤ) + 1) = 2 := by norm_num
  obtain ⟨p, hp, hp0, hp1⟩ := hasValue_rest_product (k := 0) hv (by rw [hpow]; exact hasValue_two)
    ha0 (by rw [hpow]; exact ha) le_rfl (by norm_num)
  rw [mul_zero, zpow_zero] at hp1
  rw [mul_comm_binary32] at hp
  obtain ⟨b, hb, hb0, hb1⟩ := sqrt_mem hp hp0 hp1
  have hrest : |1 - a| ≤ 1 := by
    rw [abs_le]
    constructor <;> linarith
  have hcosine := hasValue_sub hasValue_one hv (abs_le_two_zpow_127 (hrest.trans (by norm_num)))
  refine ⟨b, _, hb, hcosine, hb0, hb1, ?_⟩
  rw [← zpow_zero (2 : ℝ)] at hrest ⊢
  exact abs_roundReal_le (by norm_num) hrest

theorem sineCosine_of_inside (fused : Bool) (h : Inside (series fused s)) :
    ∃ b c, (sineCosine fused s).sine.HasValue b ∧ (sineCosine fused s).cosine.HasValue c ∧
      0 ≤ b ∧ b ≤ 1 ∧ |c| ≤ 1 := by
  obtain ⟨d, hd, hd0, hd4⟩ := doubled_inside 3 h
  have hhalf0 : 0 ≤ d / (2 : ℕ) := div_nonneg hd0 (Nat.cast_nonneg 2)
  have hhalf2 : d / (2 : ℕ) ≤ 2 ^ (1 : ℤ) := by
    push_cast
    rw [zpow_one]
    linarith
  have hvalue := hasValue_divNat 2 two_pos hd (abs_le_two_zpow_127 (by
    rw [abs_of_nonneg hhalf0]
    norm_num at hhalf2 ⊢
    linarith))
  have hround := roundReal_mono hhalf2
  rw [roundReal_two_zpow (by norm_num), zpow_one] at hround
  exact ofVersine_mem hvalue (roundReal_nonneg hhalf0) hround

theorem sine_nan_of_outside (fused : Bool) (h : Outside (series fused s)) :
    (sineCosine fused s).sine = nan := by
  have hpow : ∀ e : ℤ, (0 : ℝ) < 2 ^ e := fun e => zpow_pos two_pos e
  have hhalf := (doubled_outside 2 h).neg_divNat (hpow (-147)) 2 two_pos
  have hquotient : (2 : ℝ) ^ (-147 : ℤ) / (2 : ℕ) = 2 ^ (-148 : ℤ) := by norm_num
  rw [hquotient, roundReal_two_zpow (by norm_num)] at hhalf
  have hproduct := rest_product_below hhalf hasValue_two (hpow (-148)) two_pos
  rw [mul_comm_binary32, ← zpow_add_one₀ two_ne_zero, roundReal_two_zpow (by norm_num)] at hproduct
  exact sqrt_nan_of_below hproduct (hpow _)

theorem sine_nan_of_not_inside (fused : Bool) (h : ¬ Inside (series fused s)) :
    (sineCosine fused s).sine = nan := by
  rcases range_cases (series fused s) with hnan | hout | hin
  · exact sine_nan_of_series fused hnan
  · exact sine_nan_of_outside fused hout
  · exact absurd hin h

/-! ## The range by comparisons -/

theorem below_iff : (-v).AtLeast (2 ^ (-149 : ℤ)) ↔ v.isBelowZero = true := by
  unfold isBelowZero
  rw [hasValue_zero.gt_cases]
  constructor
  · rintro (hinf | ⟨a, ha, hle⟩)
    · left
      rw [← Datum.opposite_opposite v.datum, ← datum_neg, hinf]
      rfl
    · right
      have hv : v.HasValue (-a) :=
        (hasValue_neg ha).congr (by rw [datum_neg, datum_neg, Datum.opposite_opposite])
      refine ⟨hv.finite, ?_⟩
      rw [hv.toReal_eq, neg_lt_zero]
      exact (zpow_pos two_pos _).trans_le hle
  · rintro (hinf | ⟨hfinite, hneg⟩)
    · left
      rw [datum_neg, hinf]
      rfl
    · exact below_of_neg hfinite.hasValue hneg

theorem above_iff : v.AtLeast (4 + 2 ^ (-21 : ℤ)) ↔ four.lt v = true := by
  rw [hasValue_four.lt_cases]
  constructor
  · rintro (hinf | ⟨a, ha, hle⟩)
    · exact Or.inl hinf
    · right
      refine ⟨ha.finite, ?_⟩
      rw [ha.toReal_eq]
      exact (lt_add_of_pos_right 4 (zpow_pos two_pos _)).trans_le hle
  · rintro (hinf | ⟨hfinite, hgt⟩)
    · exact Or.inl hinf
    · exact above_of_gt hfinite.hasValue hgt

theorem outside_iff : Outside v ↔ v.isBelowZero = true ∨ four.lt v = true := by
  rw [← below_iff, ← above_iff]
  constructor
  · rintro (h | h)
    · exact Or.inl h
    · exact Or.inr h
  · rintro (h | h)
    · exact .below h
    · exact .above h

/-- What is not a number from zero to four is a NaN or compares as outside. -/
theorem not_inside_iff :
    ¬ Inside v ↔ v.isNaN = true ∨ v.isBelowZero = true ∨ four.lt v = true := by
  rw [← outside_iff, ← datum_eq_nan_iff]
  constructor
  · intro hinside
    rcases range_cases v with hnan | hout | hin
    · exact Or.inl hnan
    · exact Or.inr hout
    · exact absurd hin hinside
  · rintro (hnan | hout) ⟨a, ha, ha0, ha4⟩
    · rw [datum_eq_nan_iff, ha.finite.isNaN_eq_false] at hnan
      contradiction
    · rcases outside_iff.1 hout with hbelow | habove
      · exact absurd ((ha.lt_iff hasValue_zero).1 hbelow) (not_lt.2 ha0)
      · exact absurd ((hasValue_four.lt_iff ha).1 habove) (not_lt.2 ha4)

theorem isNaN_of_isBelowZero (h : v.isBelowZero = true) : v.isNaN = false := by
  rcases (hasValue_zero.gt_cases).1 h with hinf | ⟨hfinite, -⟩
  · rw [← Bool.not_eq_true, ← datum_eq_nan_iff, hinf]
    exact Datum.noConfusion
  · exact hfinite.isNaN_eq_false

theorem doubled_isBelowZero (n : ℕ) (h : v.isBelowZero = true ∨ four.lt v = true) :
    (doubled (n + 1) v).isBelowZero = true :=
  below_iff.1 ((doubled_outside n (outside_iff.2 h)).mono
    (zpow_le_zpow_right₀ one_le_two (by norm_num)))

/-- Any number of doublings keeps what is from zero to four there and takes everything else but a
NaN below zero. So the sine is a NaN if and only if the series is one or leaves that range, and in
every other case both functions are in theirs. -/
theorem doubled_range :
    (∀ (n : ℕ) (v : Binary32), 1 ≤ n →
      (Inside v → Inside (doubled n v)) ∧
      (v.isBelowZero = true ∨ four.lt v = true →
        (doubled n v).isBelowZero = true ∧ (doubled n v).isNaN = false)) ∧
    ∀ (fused : Bool) (s : Binary32),
      ((sineCosine fused s).sine.isNaN = true ↔ (series fused s).isNaN = true ∨
        (series fused s).isBelowZero = true ∨ four.lt (series fused s) = true) ∧
      ((sineCosine fused s).sine.isNaN = false →
        ∃ b c, (sineCosine fused s).sine.HasValue b ∧ (sineCosine fused s).cosine.HasValue c ∧
          0 ≤ b ∧ b ≤ 1 ∧ |c| ≤ 1) := by
  constructor
  · intro n v hn
    obtain ⟨m, rfl⟩ := Nat.exists_eq_add_of_le' hn
    refine ⟨doubled_inside (m + 1), fun hout => ?_⟩
    have hbelow := doubled_isBelowZero m hout
    exact ⟨hbelow, isNaN_of_isBelowZero hbelow⟩
  · intro fused s
    have hiff : (sineCosine fused s).sine.isNaN = true ↔ ¬ Inside (series fused s) := by
      constructor
      · intro hnan hinside
        obtain ⟨b, c, hb, -⟩ := sineCosine_of_inside fused hinside
        rw [hb.finite.isNaN_eq_false] at hnan
        contradiction
      · intro hout
        rw [sine_nan_of_not_inside fused hout]
        decide
    refine ⟨hiff.trans not_inside_iff, fun hnumber => sineCosine_of_inside fused ?_⟩
    rw [← Bool.not_eq_true, hiff, not_not] at hnumber
    exact hnumber

/-- The number below two, where the product is greatest, and two that leave the range: an infinity,
and the series of an angle of `2³¹`. -/
theorem doubled_range_ends :
    Inside (doubled 5 ⟨0x3FFFFFFF⟩) ∧
      (doubled 2 (infinity false)).isBelowZero = true ∧
      (sineCosine true ⟨0x4F000000⟩).sine.isNaN = true := by
  have hvalue : (⟨0x3FFFFFFF⟩ : Binary32).HasValue (16777215 / 2 ^ 23) :=
    hasValue_of_dyadic 16777215 126 (by decide) (by norm_num)
  refine ⟨(doubled_range.1 5 ⟨0x3FFFFFFF⟩ (by decide)).1 ⟨_, hvalue, by norm_num, by norm_num⟩,
    ?_, ?_⟩
  · exact ((doubled_range.1 2 (infinity false) (by decide)).2 (Or.inr (by decide))).1
  · exact (doubled_range.2 true ⟨0x4F000000⟩).1.2 (Or.inr (Or.inr (by decide +kernel)))

end HalfAngle

end
end VectorSine
