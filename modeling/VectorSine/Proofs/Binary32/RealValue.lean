import VectorSine.Binary32.MultiplyAdd
import VectorSine.Proofs.Binary32.RealRounding
import VectorSine.Proofs.Binary32.Representable
import Mathlib.Analysis.Real.Sqrt
import Mathlib.Tactic.FieldSimp
import Mathlib.Tactic.NormNum

/-! # Arithmetic on finite numbers as arithmetic on reals

`x.HasValue r` says that `x` is finite and stands for the real number `r`. Each operation on numbers
with values `a` and `b` has the value `roundReal` of the exact result, as long as that does not
exceed `2¹²⁷` by far; so a pipeline of operations is a nest of `roundReal`, whose errors are bounded
without a word about bits.

* `nearestQuanta_eq_roundReal`: rounding of counts is rounding of reals.
* `hasValue_add`, `hasValue_mul`, `hasValue_fusedMulAdd` and so on: one lemma for each operation.
-/

namespace VectorSine
set_option autoImplicit false

/-! ## Counts of steps -/

namespace Datum

def count : Datum → ℤ
  | finite negative steps => signed negative steps
  | _ => 0

theorem signed_natAbs (z : ℤ) : signed (decide (z < 0)) z.natAbs = z := by
  unfold signed
  by_cases h : z < 0
  · rw [decide_eq_true h, if_pos rfl]
    omega
  · rw [decide_eq_false h, if_neg Bool.false_ne_true]
    omega

theorem signed_zero (negative : Bool) : signed negative 0 = 0 := by
  cases negative <;> rfl

theorem signed_mul (a b : Bool) (m n : ℕ) : signed (a ^^ b) (m * n) = signed a m * signed b n := by
  cases a <;> cases b <;> simp [signed]

theorem signed_mul_natCast (a : Bool) (m n : ℕ) : signed a (m * n) = signed a m * n := by
  cases a <;> simp [signed]

theorem plus_finite (a b : Bool) (m n : ℕ) :
    ∃ c k, (finite a m).plus (finite b n) = finite c k ∧ signed c k = signed a m + signed b n := by
  by_cases h : signed a m + signed b n = 0
  · exact ⟨a && b, 0, by simp [plus, h], by rw [signed_zero, h]⟩
  · exact ⟨_, _, by simp only [plus, if_neg h], signed_natAbs _⟩

theorem abs_signed (negative : Bool) (n : ℕ) : |signed negative n| = n := by
  cases negative <;> simp [signed]

end Datum

noncomputable section

/-! ## Rounding of counts -/

theorem nearestQuotient_eq_roundEven (n d : ℕ) (hd : 0 < d) :
    (nearestQuotient n d : ℤ) = roundEven ((n : ℝ) / d) := by
  have hd' : (0 : ℝ) < d := Nat.cast_pos.2 hd
  have hmod : n % d < d := Nat.mod_lt n hd
  have hsplit : (n : ℝ) / d = (n / d : ℕ) + ((n % d : ℕ) : ℝ) / d := by
    rw [div_eq_iff hd'.ne', add_mul, div_mul_cancel₀ _ hd'.ne']
    exact_mod_cast (Nat.div_add_mod' n d).symm
  have hfract0 : (0 : ℝ) ≤ ((n % d : ℕ) : ℝ) / d := by positivity
  have hfract1 : ((n % d : ℕ) : ℝ) / d < 1 := by
    rw [div_lt_one hd']
    exact_mod_cast hmod
  have hfloor : ⌊(n : ℝ) / d⌋ = ((n / d : ℕ) : ℤ) := by
    rw [Int.floor_eq_iff, hsplit, Int.cast_natCast]
    constructor <;> linarith
  have hfract : Int.fract ((n : ℝ) / d) = ((n % d : ℕ) : ℝ) / d := by
    rw [← Int.self_sub_floor, hfloor, hsplit, Int.cast_natCast, add_sub_cancel_left]
  have hlt : ((n % d : ℕ) : ℝ) / d < 1 / 2 ↔ 2 * (n % d) < d := by
    rw [div_lt_div_iff₀ hd' two_pos, one_mul, mul_comm]
    exact_mod_cast Iff.rfl
  have heq : ((n % d : ℕ) : ℝ) / d = 1 / 2 ↔ 2 * (n % d) = d := by
    rw [div_eq_div_iff hd'.ne' two_ne_zero, one_mul, mul_comm]
    exact_mod_cast Iff.rfl
  have heven : Even ((n / d : ℕ) : ℤ) ↔ ¬ n / d % 2 = 1 := by
    rw [Int.even_coe_nat, Nat.even_iff]
    omega
  unfold roundEven nearestQuotient
  simp only [hfloor, hfract, hlt, heq, heven]
  split_ifs with h1 h2 h2
  · omega
  · push_cast
    rfl
  · rfl
  · omega

namespace Binary32

/-- The step in which a positive count is rounded, as an exponent of the number itself. -/
theorem stepExponent_quotient (n d : ℕ) (hn : 0 < n) (hd : 0 < d) :
    stepExponent ((n : ℝ) / d * 2 ^ (-149 : ℤ)) = ((n / d).log2 - 23 : ℕ) - 149 := by
  have hd' : (0 : ℝ) < d := Nat.cast_pos.2 hd
  have hn' : (0 : ℝ) < n := Nat.cast_pos.2 hn
  have hquantum : (0 : ℝ) < 2 ^ (-149 : ℤ) := zpow_pos two_pos _
  have hpos : (0 : ℝ) < (n : ℝ) / d * 2 ^ (-149 : ℤ) := mul_pos (div_pos hn' hd') hquantum
  unfold stepExponent
  rw [abs_of_pos hpos]
  by_cases h0 : n / d = 0
  · have hlt : (n : ℝ) / d * 2 ^ (-149 : ℤ) < 2 ^ (-149 : ℤ) := by
      have hone : (n : ℝ) / d < 1 := by
        rw [div_lt_one hd']
        exact_mod_cast (Nat.div_eq_zero_iff_lt hd).1 h0
      calc (n : ℝ) / d * 2 ^ (-149 : ℤ) < 1 * 2 ^ (-149 : ℤ) :=
            mul_lt_mul_of_pos_right hone hquantum
        _ = 2 ^ (-149 : ℤ) := one_mul _
    have hlog := (Int.lt_zpow_iff_log_lt one_lt_two hpos).1 (by exact_mod_cast hlt)
    rw [h0, Nat.log2_zero]
    omega
  · have hlog : Int.log 2 ((n : ℝ) / d * 2 ^ (-149 : ℤ)) = ((n / d).log2 : ℤ) - 149 := by
      have hlow : (2 : ℝ) ^ (((n / d).log2 : ℤ) - 149) ≤ (n : ℝ) / d * 2 ^ (-149 : ℤ) := by
        rw [sub_eq_add_neg, zpow_add₀ two_ne_zero, zpow_natCast]
        apply mul_le_mul_of_nonneg_right _ hquantum.le
        rw [le_div_iff₀ hd']
        exact_mod_cast (Nat.le_div_iff_mul_le hd).1 (Nat.log2_self_le h0)
      have hhigh : (n : ℝ) / d * 2 ^ (-149 : ℤ) < (2 : ℝ) ^ (((n / d).log2 : ℤ) - 149 + 1) := by
        have hnext : (n : ℝ) / d < 2 ^ ((n / d).log2 + 1) := by
          rw [div_lt_iff₀ hd']
          exact_mod_cast (Nat.div_lt_iff_lt_mul hd).1 Nat.lt_log2_self
        rw [show (((n / d).log2 : ℤ) - 149 + 1) = (((n / d).log2 + 1 : ℕ) : ℤ) + (-149) by
          push_cast; ring, zpow_add₀ two_ne_zero, zpow_natCast]
        exact mul_lt_mul_of_pos_right hnext hquantum
      generalize (n / d).log2 = k at hlow hhigh ⊢
      have hge := (Int.zpow_le_iff_le_log one_lt_two hpos).1 (by push_cast; exact hlow)
      have hlt := (Int.lt_zpow_iff_log_lt one_lt_two hpos).1 (by push_cast; exact hhigh)
      omega
    rw [hlog]
    omega

theorem nearestQuanta_eq_roundReal (n d : ℕ) (hd : 0 < d) :
    (nearestQuanta n d : ℝ) * 2 ^ (-149 : ℤ) = roundReal ((n : ℝ) / d * 2 ^ (-149 : ℤ)) := by
  rcases Nat.eq_zero_or_pos n with rfl | hn
  · have hzero : nearestQuanta 0 d = 0 := by
      simp [nearestQuanta, nearestQuotient]
    rw [hzero, Nat.cast_zero, zero_div, zero_mul, roundReal_zero]
  · unfold roundReal
    rw [stepExponent_quotient n d hn hd]
    unfold nearestQuanta
    generalize (n / d).log2 - 23 = s
    have hstep : (2 : ℝ) ^ ((s : ℤ) - 149) = 2 ^ s * 2 ^ (-149 : ℤ) := by
      rw [sub_eq_add_neg, zpow_add₀ two_ne_zero, zpow_natCast]
    have hquotient : (n : ℝ) / d * 2 ^ (-149 : ℤ) / 2 ^ ((s : ℤ) - 149) =
        (n : ℝ) / ((d * 2 ^ s : ℕ) : ℝ) := by
      rw [hstep, mul_div_mul_right _ _ (zpow_pos two_pos _).ne', div_div]
      push_cast
      rfl
    rw [hquotient, ← nearestQuotient_eq_roundEven n _ (Nat.mul_pos hd (Nat.two_pow_pos s)), hstep]
    push_cast
    ring

/-- The real number of a finite number of the format. -/
def toReal (x : Binary32) : ℝ := x.datum.count * quantum

/-- Whether the bits stand for a number other than an infinity. -/
def IsFinite (x : Binary32) : Prop := x.magnitude < infinityMagnitude

instance (x : Binary32) : Decidable x.IsFinite := inferInstanceAs (Decidable (_ < _))

structure HasValue (x : Binary32) (r : ℝ) : Prop where
  finite : x.IsFinite
  toReal_eq : x.toReal = r

theorem IsFinite.hasValue {x : Binary32} (h : x.IsFinite) : x.HasValue x.toReal := ⟨h, rfl⟩

theorem IsFinite.isNaN_eq_false {x : Binary32} (h : x.IsFinite) : x.isNaN = false :=
  decide_eq_false (Nat.lt_asymm h)

theorem isFinite_iff (x : Binary32) : x.IsFinite ↔ ∃ negative q, x.datum = .finite negative q := by
  unfold IsFinite datum
  constructor
  · intro h
    refine ⟨x.negative, quantaOf x.magnitude, ?_⟩
    rw [if_neg (by omega), if_neg (by omega)]
  · rintro ⟨negative, q, h⟩
    split at h
    · contradiction
    split at h
    · contradiction
    · omega

theorem hasValue_of_datum {x : Binary32} {negative : Bool} {q : ℕ}
    (h : x.datum = .finite negative q) :
    x.HasValue (Datum.signed negative q * 2 ^ (-149 : ℤ)) :=
  ⟨(isFinite_iff x).2 ⟨negative, q, h⟩, by rw [toReal, h]; rfl⟩

theorem HasValue.datum {x : Binary32} {r : ℝ} (h : x.HasValue r) :
    ∃ negative q, x.datum = .finite negative q ∧ Datum.signed negative q * 2 ^ (-149 : ℤ) = r := by
  obtain ⟨negative, q, hq⟩ := (isFinite_iff x).1 h.finite
  refine ⟨negative, q, hq, ?_⟩
  rw [← h.toReal_eq, toReal, hq]
  rfl

theorem HasValue.congr {x y : Binary32} {r : ℝ} (h : x.HasValue r) (hxy : x.datum = y.datum) :
    y.HasValue r := by
  obtain ⟨negative, q, hq, rfl⟩ := h.datum
  exact hasValue_of_datum (hxy.symm.trans hq)

theorem hasValue_of_significand {x : Binary32} (f s : ℕ) (h : x.datum = .finite false (f * 2 ^ s)) :
    x.HasValue (f * 2 ^ ((s : ℤ) - 149)) := by
  have hvalue := hasValue_of_datum h
  have heq : ((Datum.signed false (f * 2 ^ s) : ℤ) : ℝ) * 2 ^ (-149 : ℤ) =
      f * 2 ^ ((s : ℤ) - 149) := by
    rw [sub_eq_add_neg, zpow_add₀ two_ne_zero, zpow_natCast, ← mul_assoc]
    simp [Datum.signed]
  rwa [heq] at hvalue

/-- The value of a number that is written out. -/
theorem hasValue_of_dyadic {x : Binary32} {r : ℝ} (f s : ℕ)
    (h : x.datum = .finite false (f * 2 ^ s)) (hr : f * 2 ^ ((s : ℤ) - 149) = r) :
    x.HasValue r := by
  rw [← hr]
  exact hasValue_of_significand f s h

theorem HasValue.unique {x : Binary32} {r t : ℝ} (hr : x.HasValue r) (ht : x.HasValue t) : r = t :=
  hr.toReal_eq.symm.trans ht.toReal_eq

theorem HasValue.significand {x : Binary32} {r : ℝ} (h : x.HasValue r) :
    ∃ m e : ℤ, |m| < 2 ^ 24 ∧ -149 ≤ e ∧ r = m * 2 ^ e := by
  obtain ⟨negative, q, hq, rfl⟩ := h.datum
  obtain ⟨⟨f, s, hf, rfl⟩, -⟩ := datum_finite hq
  refine ⟨Datum.signed negative f, s - 149, ?_, by omega, ?_⟩
  · rw [Datum.abs_signed]
    exact_mod_cast hf
  · rw [sub_eq_add_neg, zpow_add₀ two_ne_zero, zpow_natCast, ← mul_assoc]
    congr 1
    cases negative <;> simp [Datum.signed]

/-- A value from `2ᵏ` on is a multiple of `2ᵏ⁻²³`. -/
theorem HasValue.multiple {x : Binary32} {r : ℝ} (h : x.HasValue r) (k : ℤ) (hk : 2 ^ k ≤ |r|) :
    ∃ m : ℤ, r = m * 2 ^ (k - 23) := by
  obtain ⟨m, e, hm, -, rfl⟩ := h.significand
  have hexponent : k - 23 ≤ e := by
    have hlt : (2 : ℝ) ^ k < 2 ^ (24 + e) := by
      calc (2 : ℝ) ^ k ≤ |(m : ℝ) * 2 ^ e| := hk
        _ = |(m : ℝ)| * 2 ^ e := by rw [abs_mul, abs_zpow, abs_two]
        _ < 2 ^ (24 : ℤ) * 2 ^ e := by
          apply mul_lt_mul_of_pos_right _ (zpow_pos two_pos e)
          rw [← Int.cast_abs]
          exact_mod_cast hm
        _ = 2 ^ (24 + e) := by rw [zpow_add₀ two_ne_zero]
    have hlt' := (zpow_lt_zpow_iff_right₀ one_lt_two).1 hlt
    omega
  obtain ⟨n, hn⟩ := Int.eq_ofNat_of_zero_le (sub_nonneg.2 hexponent)
  refine ⟨m * 2 ^ n, ?_⟩
  have hsplit : e = (n : ℤ) + (k - 23) := by omega
  rw [hsplit, zpow_add₀ two_ne_zero, zpow_natCast]
  push_cast
  ring

theorem HasValue.roundReal_eq {x : Binary32} {r : ℝ} (h : x.HasValue r) : roundReal r = r := by
  obtain ⟨m, e, hm, he, rfl⟩ := h.significand
  exact VectorSine.roundReal_eq rfl hm.le he

/-- A difference that is no larger than a value is exact, if what is taken away is a multiple of the
step of that value. -/
theorem HasValue.roundReal_sub_multiple {x : Binary32} {r : ℝ} (h : x.HasValue r) (hr : 0 < r)
    {z e : ℤ} (hlog : -126 ≤ Int.log 2 r) (he : Int.log 2 r - 23 ≤ e)
    (hle : |r - z * 2 ^ e| ≤ r) : roundReal (r - z * 2 ^ e) = r - z * 2 ^ e := by
  have hlow := two_zpow_log_le hr.ne'
  have hhigh := lt_two_zpow_log_succ r
  rw [abs_of_pos hr] at hlow hhigh
  set k := Int.log 2 r
  obtain ⟨m, hm⟩ := h.multiple k (by rw [abs_of_pos hr]; exact hlow)
  have hstep : (0 : ℝ) < 2 ^ (k - 23) := zpow_pos two_pos _
  obtain ⟨i, hi⟩ := Int.eq_ofNat_of_zero_le (by omega : 0 ≤ e - (k - 23))
  have hgrid : (2 : ℝ) ^ e = 2 ^ i * 2 ^ (k - 23) := by
    rw [show e = (i : ℤ) + (k - 23) by omega, zpow_add₀ two_ne_zero, zpow_natCast]
  have hdifference : r - z * 2 ^ e = ((m - z * 2 ^ i : ℤ) : ℝ) * 2 ^ (k - 23) := by
    rw [hgrid]
    nth_rewrite 1 [hm]
    push_cast
    ring
  apply VectorSine.roundReal_eq hdifference _ (by omega)
  have hcount : |((m - z * 2 ^ i : ℤ) : ℝ)| * 2 ^ (k - 23) < 2 ^ 24 * 2 ^ (k - 23) := by
    calc |((m - z * 2 ^ i : ℤ) : ℝ)| * 2 ^ (k - 23) = |r - z * 2 ^ e| := by
          rw [hdifference, abs_mul, abs_of_pos hstep]
      _ ≤ r := hle
      _ < 2 ^ (k + 1) := hhigh
      _ = 2 ^ 24 * 2 ^ (k - 23) := by
        rw [show k + 1 = 24 + (k - 23) by ring, zpow_add₀ two_ne_zero]
        norm_num
  have hlt := lt_of_mul_lt_mul_right hcount hstep.le
  rw [← Int.cast_abs] at hlt
  exact_mod_cast hlt.le

theorem HasValue.roundReal_mul_two {x : Binary32} {r : ℝ} (h : x.HasValue r) :
    roundReal (r * 2) = r * 2 := by
  obtain ⟨m, e, hm, he, rfl⟩ := h.significand
  refine VectorSine.roundReal_eq (m := m) (e := e + 1) ?_ hm.le (by omega)
  rw [zpow_add_one₀ two_ne_zero, mul_assoc]

/-- Division by a power of two is exact up to half a quantum. -/
theorem HasValue.roundReal_div_two_pow {x : Binary32} {r : ℝ} (h : x.HasValue r) (k : ℕ) :
    |roundReal (r / 2 ^ k) - r / 2 ^ k| ≤ 2 ^ (-150 : ℤ) := by
  obtain ⟨m, e, hm, he, rfl⟩ := h.significand
  have hquotient : (m : ℝ) * 2 ^ e / 2 ^ k = m * 2 ^ (e - k) := by
    rw [zpow_sub₀ two_ne_zero, zpow_natCast, mul_div_assoc]
  rw [hquotient]
  by_cases hexponent : -149 ≤ e - k
  · rw [VectorSine.roundReal_eq rfl hm.le hexponent, sub_self, abs_zero]
    positivity
  · have hm' : |(m : ℝ)| ≤ 2 ^ (24 : ℤ) := by
      rw [← Int.cast_abs]
      exact_mod_cast hm.le
    have hsmall : |(m : ℝ) * 2 ^ (e - k)| ≤ 2 ^ (-125 : ℤ) := by
      rw [abs_mul, abs_of_pos (zpow_pos two_pos (e - k : ℤ) : (0 : ℝ) < 2 ^ (e - k : ℤ))]
      calc |(m : ℝ)| * 2 ^ (e - k : ℤ) ≤ 2 ^ (24 : ℤ) * 2 ^ (-149 : ℤ) := by
            apply mul_le_mul hm' _ (zpow_pos two_pos _).le (zpow_pos two_pos _).le
            exact zpow_le_zpow_right₀ one_le_two (by omega)
        _ = 2 ^ (-125 : ℤ) := by rw [← zpow_add₀ two_ne_zero]; norm_num
    have herror := roundReal_error_of_le hsmall (by norm_num)
    norm_num at herror ⊢
    exact herror

theorem HasValue.abs_eq {x : Binary32} {r : ℝ} (h : x.HasValue r) :
    |r| = quantaOf x.magnitude * 2 ^ (-149 : ℤ) := by
  have hfinite : x.magnitude < infinityMagnitude := h.finite
  have hdatum : x.datum = .finite x.negative (quantaOf x.magnitude) := by
    unfold Binary32.datum
    rw [if_neg (by omega), if_neg (by omega)]
  rw [← h.toReal_eq, toReal, hdatum, abs_mul, abs_of_pos (zpow_pos two_pos _ : (0 : ℝ) < quantum)]
  change |((Datum.signed x.negative (quantaOf x.magnitude) : ℤ) : ℝ)| * _ = _
  rw [← Int.cast_abs, Datum.abs_signed, Int.cast_natCast]

/-- The bits below the sign are in the order of the absolute values. -/
theorem HasValue.magnitude_le {x y : Binary32} {a b : ℝ} (hx : x.HasValue a) (hy : y.HasValue b)
    (h : |a| ≤ |b|) : x.magnitude ≤ y.magnitude := by
  rw [hx.abs_eq, hy.abs_eq] at h
  have hquanta : quantaOf x.magnitude ≤ quantaOf y.magnitude := by
    exact_mod_cast le_of_mul_le_mul_right h (zpow_pos two_pos _)
  by_contra hlt
  exact absurd (quantaOf_lt_quantaOf (not_le.1 hlt)) (not_lt.2 hquanta)

/-- The order of the numbers is that of their values. -/
theorem HasValue.lt_iff {x y : Binary32} {a b : ℝ} (hx : x.HasValue a) (hy : y.HasValue b) :
    x.lt y = true ↔ a < b := by
  have hquantum : (0 : ℝ) < 2 ^ (-149 : ℤ) := zpow_pos two_pos _
  obtain ⟨s, m, hm, rfl⟩ := hx.datum
  obtain ⟨t, n, hn, rfl⟩ := hy.datum
  rw [mul_lt_mul_iff_of_pos_right hquantum, Int.cast_lt]
  simp [Binary32.lt, hm, hn, Datum.place]

theorem hasValue_zero : zero.HasValue 0 := by
  have h := hasValue_of_datum datum_zero
  rwa [Datum.signed_zero, Int.cast_zero, zero_mul] at h

theorem hasValue_one : one.HasValue 1 :=
  hasValue_of_dyadic 1 149 (by decide) (by norm_num)

theorem hasValue_two : two.HasValue 2 :=
  hasValue_of_dyadic 1 150 (by decide) (by norm_num)

theorem hasValue_four : four.HasValue 4 :=
  hasValue_of_dyadic 1 151 (by decide) (by norm_num)

/-- The value of a rounded datum, unless it reaches the infinities. -/
theorem hasValue_round (negative : Bool) (n d : ℕ) (hd : 0 < d)
    (h : |roundReal ((Datum.signed negative n : ℝ) / d * 2 ^ (-149 : ℤ))| < 2 ^ (128 : ℤ)) :
    ((Datum.finite negative n).round d).HasValue
      (roundReal ((Datum.signed negative n : ℝ) / d * 2 ^ (-149 : ℤ))) := by
  have hquantum : (0 : ℝ) < 2 ^ (-149 : ℤ) := zpow_pos two_pos _
  have hvalue : roundReal ((Datum.signed negative n : ℝ) / d * 2 ^ (-149 : ℤ)) =
      Datum.signed negative (nearestQuanta n d) * 2 ^ (-149 : ℤ) := by
    have hnonneg := nearestQuanta_eq_roundReal n d hd
    cases negative
    · simpa [Datum.signed] using hnonneg.symm
    · simp only [Datum.signed, if_true, Int.cast_neg, Int.cast_natCast, neg_div, neg_mul,
        roundReal_neg, hnonneg]
  have hlt : nearestQuanta n d < infinityQuanta := by
    rw [hvalue, abs_mul, abs_of_pos hquantum, ← Int.cast_abs, Datum.abs_signed,
      Int.cast_natCast] at h
    have hinfinity : (2 : ℝ) ^ (128 : ℤ) = (infinityQuanta : ℝ) * 2 ^ (-149 : ℤ) := by
      norm_num [infinityQuanta]
    rw [hinfinity] at h
    exact_mod_cast lt_of_mul_lt_mul_right h hquantum.le
  rw [hvalue]
  apply hasValue_of_datum
  change (ofQuanta negative n d).datum = _
  rw [datum_ofQuanta negative n d hd, if_pos hlt]

theorem abs_roundReal_lt {z : ℝ} (h : |z| ≤ 2 ^ (127 : ℤ)) : |roundReal z| < 2 ^ (128 : ℤ) := by
  have hlt : (2 : ℝ) ^ (127 : ℤ) < 2 ^ (128 : ℤ) := zpow_lt_zpow_right₀ one_lt_two (by norm_num)
  exact (abs_roundReal_le (by norm_num) h).trans_lt hlt

/-! ## Operations -/

theorem abs_le_two_zpow_127 {r : ℝ} (h : |r| ≤ 10) : |r| ≤ 2 ^ (127 : ℤ) :=
  h.trans (by norm_num)

theorem quantum_eq_inv : (2 : ℝ) ^ (-149 : ℤ) = (quantaPerOne : ℝ)⁻¹ := by
  norm_num [quantaPerOne]

theorem quantaPerOne_ne_zero : (quantaPerOne : ℝ) ≠ 0 := by norm_num [quantaPerOne]

variable {x y z : Binary32} {a b c : ℝ}

theorem hasValue_add (hx : x.HasValue a) (hy : y.HasValue b) (h : |a + b| ≤ 2 ^ (127 : ℤ)) :
    (x + y).HasValue (roundReal (a + b)) := by
  obtain ⟨s, m, hm, rfl⟩ := hx.datum
  obtain ⟨t, n, hn, rfl⟩ := hy.datum
  obtain ⟨u, k, hk, hcount⟩ := Datum.plus_finite s t m n
  have hsum : (Datum.signed s m : ℝ) * 2 ^ (-149 : ℤ) + Datum.signed t n * 2 ^ (-149 : ℤ) =
      (Datum.signed u k : ℝ) / (1 : ℕ) * 2 ^ (-149 : ℤ) := by
    rw [hcount]
    push_cast
    ring
  change ((x.datum.plus y.datum).round 1).HasValue _
  rw [hsum] at h ⊢
  rw [hm, hn, hk]
  exact hasValue_round u k 1 one_pos (abs_roundReal_lt h)

theorem hasValue_neg (hx : x.HasValue a) : (-x).HasValue (-a) := by
  obtain ⟨s, m, hm, rfl⟩ := hx.datum
  have hvalue : -((Datum.signed s m : ℝ) * 2 ^ (-149 : ℤ)) =
      Datum.signed (!s) m * 2 ^ (-149 : ℤ) := by
    cases s <;> simp [Datum.signed]
  rw [hvalue]
  apply hasValue_of_datum
  rw [datum_neg, hm]
  rfl

theorem hasValue_sub (hx : x.HasValue a) (hy : y.HasValue b) (h : |a - b| ≤ 2 ^ (127 : ℤ)) :
    (x - y).HasValue (roundReal (a - b)) := by
  rw [sub_eq_add_neg] at h ⊢
  exact hasValue_add hx (hasValue_neg hy) h

theorem hasValue_mul (hx : x.HasValue a) (hy : y.HasValue b) (h : |a * b| ≤ 2 ^ (127 : ℤ)) :
    (x * y).HasValue (roundReal (a * b)) := by
  obtain ⟨s, m, hm, rfl⟩ := hx.datum
  obtain ⟨t, n, hn, rfl⟩ := hy.datum
  have hproduct : (Datum.signed s m : ℝ) * 2 ^ (-149 : ℤ) * (Datum.signed t n * 2 ^ (-149 : ℤ)) =
      (Datum.signed (s ^^ t) (m * n) : ℝ) / (quantaPerOne : ℕ) * 2 ^ (-149 : ℤ) := by
    rw [Datum.signed_mul, quantum_eq_inv]
    push_cast
    ring
  change ((x.datum.times y.datum).round quantaPerOne).HasValue _
  rw [hproduct] at h ⊢
  rw [hm, hn]
  exact hasValue_round _ _ _ (by decide) (abs_roundReal_lt h)

theorem hasValue_fusedMulAdd (hx : x.HasValue a) (hy : y.HasValue b) (hz : z.HasValue c)
    (h : |a * b + c| ≤ 2 ^ (127 : ℤ)) : (fusedMulAdd x y z).HasValue (roundReal (a * b + c)) := by
  obtain ⟨s, m, hm, rfl⟩ := hx.datum
  obtain ⟨t, n, hn, rfl⟩ := hy.datum
  obtain ⟨u, k, hk, rfl⟩ := hz.datum
  obtain ⟨v, l, hl, hcount⟩ := Datum.plus_finite (s ^^ t) u (m * n) (k * quantaPerOne)
  have hsum : (Datum.signed s m : ℝ) * 2 ^ (-149 : ℤ) * (Datum.signed t n * 2 ^ (-149 : ℤ)) +
      Datum.signed u k * 2 ^ (-149 : ℤ) =
      (Datum.signed v l : ℝ) / (quantaPerOne : ℕ) * 2 ^ (-149 : ℤ) := by
    have hQ := quantaPerOne_ne_zero
    rw [hcount, Datum.signed_mul, Datum.signed_mul_natCast u, quantum_eq_inv]
    push_cast
    field_simp
  rw [hsum] at h ⊢
  have hfused : fusedMulAdd x y z = (Datum.finite v l).round quantaPerOne := by
    unfold fusedMulAdd
    rw [hm, hn, hk, ← hl]
    rfl
  rw [hfused]
  exact hasValue_round _ _ _ (by decide) (abs_roundReal_lt h)

theorem hasValue_divNat (d : ℕ) (hd : 0 < d) (hx : x.HasValue a) (h : |a / d| ≤ 2 ^ (127 : ℤ)) :
    (x.divNat d).HasValue (roundReal (a / d)) := by
  obtain ⟨s, m, hm, rfl⟩ := hx.datum
  have hquotient : (Datum.signed s m : ℝ) * 2 ^ (-149 : ℤ) / d =
      (Datum.signed s m : ℝ) / (d : ℕ) * 2 ^ (-149 : ℤ) := by ring
  rw [hquotient] at h ⊢
  unfold divNat
  rw [hm]
  exact hasValue_round _ _ _ hd (abs_roundReal_lt h)

/-! ## Square roots -/

theorem abs_rootHalves_sub_le (n : ℕ) : |(Datum.rootHalves n : ℝ) / 2 - √n| ≤ 1 / 2 := by
  obtain ⟨hlow, hhigh⟩ := Datum.integerRoot_spec n
  unfold Datum.rootHalves
  generalize Datum.integerRoot n = r at hlow hhigh ⊢
  have hr : (r : ℝ) ≤ √n := by
    apply Real.le_sqrt_of_sq_le
    rw [sq]
    exact_mod_cast hlow
  have hr' : √(n : ℝ) ≤ r + 1 := by
    rw [Real.sqrt_le_left (by positivity), sq]
    exact_mod_cast hhigh.le
  split
  · next hsquare =>
    have hroot : √(n : ℝ) = r := by
      rw [← hsquare, Nat.cast_mul, Real.sqrt_mul_self (Nat.cast_nonneg r)]
    rw [hroot]
    push_cast
    rw [abs_le]
    constructor <;> linarith
  · push_cast
    rw [abs_le]
    constructor <;> linarith

/-- The value is the rounding of a number that is at most half a quantum off the root. -/
theorem hasValue_sqrt (hx : x.HasValue a) (ha : 0 ≤ a) (h : a ≤ 2 ^ (127 : ℤ)) :
    ∃ r : ℝ, 0 ≤ r ∧ |r - √a| ≤ 2 ^ (-150 : ℤ) ∧ x.sqrt.HasValue (roundReal r) := by
  obtain ⟨s, m, hm, rfl⟩ := hx.datum
  have hquantum : (0 : ℝ) < 2 ^ (-149 : ℤ) := zpow_pos two_pos _
  rcases Nat.eq_zero_or_pos m with rfl | hpos
  · refine ⟨0, le_rfl, ?_, ?_⟩
    · rw [Datum.signed_zero, Int.cast_zero, zero_mul, Real.sqrt_zero, sub_zero, abs_zero]
      exact (zpow_pos two_pos _).le
    · have hroot : x.sqrt = x := by simp [sqrt, hm]
      rw [hroot, roundReal_zero]
      rw [Datum.signed_zero, Int.cast_zero, zero_mul] at hx
      exact hx
  · have hs : s = false := by
      cases s
      · rfl
      · have hneg : ((Datum.signed true m : ℤ) : ℝ) * 2 ^ (-149 : ℤ) < 0 := by
          apply mul_neg_of_neg_of_pos _ hquantum
          simpa [Datum.signed] using hpos
        linarith
    subst hs
    have hvalue : ((Datum.signed false m : ℤ) : ℝ) = m := by simp [Datum.signed]
    rw [hvalue] at h ⊢
    have hroot : √((m : ℝ) * 2 ^ (-149 : ℤ)) =
        √((m * quantaPerOne : ℕ) : ℝ) * 2 ^ (-149 : ℤ) := by
      have hsquare : (m : ℝ) * 2 ^ (-149 : ℤ) =
          ((m * quantaPerOne : ℕ) : ℝ) * (2 ^ (-149 : ℤ)) ^ 2 := by
        have hQ := quantaPerOne_ne_zero
        rw [quantum_eq_inv]
        push_cast
        field_simp
      rw [hsquare, Real.sqrt_mul (Nat.cast_nonneg _), Real.sqrt_sq hquantum.le]
    set halves := Datum.rootHalves (m * quantaPerOne) with hhalves
    have hclose : |(halves : ℝ) / 2 * 2 ^ (-149 : ℤ) - √((m : ℝ) * 2 ^ (-149 : ℤ))| ≤
        2 ^ (-150 : ℤ) := by
      rw [hroot, ← sub_mul, abs_mul, abs_of_pos hquantum]
      calc |(halves : ℝ) / 2 - √((m * quantaPerOne : ℕ) : ℝ)| * 2 ^ (-149 : ℤ)
          ≤ 1 / 2 * 2 ^ (-149 : ℤ) :=
            mul_le_mul_of_nonneg_right (abs_rootHalves_sub_le _) hquantum.le
        _ = 2 ^ (-150 : ℤ) := by norm_num
    have hnonneg : (0 : ℝ) ≤ (halves : ℝ) / 2 * 2 ^ (-149 : ℤ) := by positivity
    refine ⟨(halves : ℝ) / 2 * 2 ^ (-149 : ℤ), hnonneg, hclose, ?_⟩
    have hsqrt : x.sqrt = (Datum.finite false halves).round 2 := by
      simp [sqrt, hm, hpos.ne', Datum.round, ← hhalves]
    have hsigned : (halves : ℝ) / 2 = (Datum.signed false halves : ℝ) / (2 : ℕ) := by
      simp [Datum.signed]
    have hbound : |(halves : ℝ) / 2 * 2 ^ (-149 : ℤ)| ≤ 2 ^ (127 : ℤ) := by
      have hrootle : √((m : ℝ) * 2 ^ (-149 : ℤ)) ≤ 2 ^ (64 : ℤ) := by
        rw [Real.sqrt_le_left (by positivity)]
        exact h.trans (by norm_num)
      have hslack : (2 : ℝ) ^ (64 : ℤ) + 2 ^ (-150 : ℤ) ≤ 2 ^ (127 : ℤ) := by norm_num
      rw [abs_of_nonneg hnonneg]
      exact (sub_le_iff_le_add'.1 (abs_le.1 hclose).2).trans
        ((add_le_add_left hrootle _).trans hslack)
    rw [hsqrt, hsigned]
    rw [hsigned] at hbound
    exact hasValue_round false halves 2 two_pos (abs_roundReal_lt hbound)

end Binary32

end
end VectorSine
