import VectorSine.Pipeline.Octant
import VectorSine.Proofs.Binary32.Conversion

/-! # Absolute values and octants

The absolute value of a number is exact as long as twice the number is finite; for a larger one it
is not below the absolute value, and for a negative infinity it is a NaN. So there are three kinds
of absolute values: NaNs, numbers from `2³⁰` on, and smaller ones, where everything that the
reduction computes is a moderate number.

* `absolute_cases`: the three kinds.
* `hasValue_absolute`: the absolute value of a number that can be doubled.
-/

namespace VectorSine
set_option autoImplicit false
noncomputable section

open Binary32

/-! ## Constants -/

namespace Coefficients

theorem hasValue_octantsPerUnit : octantsPerUnit.HasValue (10680707 / 2 ^ 23) :=
  hasValue_of_dyadic 10680707 126 (by decide) (by norm_num)

theorem hasValue_octantHigh : octantHigh.HasValue (201 / 2 ^ 8) :=
  hasValue_of_dyadic 13172736 125 (by decide) (by norm_num)

theorem hasValue_octantLow : octantLow.HasValue (2077699 / 2 ^ 33) :=
  hasValue_of_dyadic 16621592 113 (by decide) (by norm_num)

theorem hasValue_c1 : c1.HasValue 1 := hasValue_one

theorem hasValue_c2 : c2.HasValue (11184811 / 2 ^ 27) :=
  hasValue_of_dyadic 11184811 122 (by decide) (by norm_num)

theorem hasValue_c3 : c3.HasValue (5965233 / 2 ^ 31) :=
  hasValue_of_dyadic 11930466 117 (by decide) (by norm_num)

theorem hasValue_c4 : c4.HasValue (13634769 / 2 ^ 38) :=
  hasValue_of_dyadic 13634769 111 (by decide) (by norm_num)

theorem hasValue_c5 : c5.HasValue (9693295 / 2 ^ 44) :=
  hasValue_of_dyadic 9693295 105 (by decide) (by norm_num)

end Coefficients

/-! ## Absolute values -/

namespace Octant

variable {x : Binary32} {a : ℝ}

theorem isBelowZero_iff (hx : x.HasValue a) : x.isBelowZero = true ↔ a < 0 :=
  hx.lt_iff hasValue_zero

theorem absolute_of_below (h : x.isBelowZero = true) : absolute x = x - x * two := by
  unfold absolute
  rw [h, maskOf_true, masked_allOnes]

theorem absolute_of_not_below (h : x.isBelowZero = false) : absolute x = x - zero := by
  unfold absolute
  rw [h, maskOf_false, masked_zero]

theorem hasValue_sub_double (hx : x.HasValue a) (h : |a| ≤ 2 ^ (126 : ℤ)) :
    (x - x * two).HasValue (-a) := by
  have htwo : (2 : ℝ) ^ (126 : ℤ) * 2 = 2 ^ (127 : ℤ) := by norm_num
  have hdouble : |a * 2| ≤ 2 ^ (127 : ℤ) := by
    rw [abs_mul, abs_two, ← htwo]
    exact mul_le_mul_of_nonneg_right h zero_le_two
  have hproduct := hasValue_mul hx hasValue_two hdouble
  rw [hx.roundReal_mul_two] at hproduct
  have hneg : a - a * 2 = -a := by ring
  have hvalue := hasValue_sub hx hproduct (by
    rw [hneg, abs_neg]
    exact h.trans (zpow_le_zpow_right₀ one_le_two (by norm_num)))
  rw [hneg, roundReal_neg, hx.roundReal_eq] at hvalue
  exact hvalue

theorem hasValue_sub_zero (hx : x.HasValue a) (h : |a| ≤ 2 ^ (126 : ℤ)) :
    (x - zero).HasValue a := by
  have hvalue := hasValue_sub hx hasValue_zero (by
    rw [sub_zero]
    exact h.trans (zpow_le_zpow_right₀ one_le_two (by norm_num)))
  rw [sub_zero, hx.roundReal_eq] at hvalue
  exact hvalue

theorem hasValue_absolute (hx : x.HasValue a) (h : |a| ≤ 2 ^ (126 : ℤ)) :
    (absolute x).HasValue |a| := by
  cases hbelow : x.isBelowZero with
  | true =>
    have ha : a < 0 := (isBelowZero_iff hx).1 hbelow
    rw [absolute_of_below hbelow, abs_of_neg ha]
    exact hasValue_sub_double hx h
  | false =>
    have ha : 0 ≤ a := by
      rw [← not_lt, ← isBelowZero_iff hx, hbelow]
      exact Bool.false_ne_true
    rw [absolute_of_not_below hbelow, abs_of_nonneg ha]
    exact hasValue_sub_zero hx h

theorem hasValue_absolute_of_lt {k : ℤ} (hk : k ≤ 126) (hx : x.HasValue a) (h : |a| < 2 ^ k) :
    (absolute x).HasValue |a| :=
  hasValue_absolute hx (h.le.trans (zpow_le_zpow_right₀ one_le_two hk))

/-- The double of a large number is infinite, and so is then the absolute value. -/
theorem absolute_atLeast (hx : x.HasValue a) : (absolute x).AtLeast |a| := by
  rcases eq_or_ne a 0 with rfl | hne
  · have hzero := hasValue_absolute hx (by rw [abs_zero]; positivity)
    exact hzero.atLeast
  cases hbelow : x.isBelowZero with
  | true =>
    have ha : a < 0 := (isBelowZero_iff hx).1 hbelow
    have hminus := hasValue_neg hx
    have hdouble := hminus.atLeast.mul hasValue_two.atLeast (neg_pos.2 ha) two_pos
    rw [hminus.roundReal_mul_two] at hdouble
    have hneg : -a * 2 + a = -a := by ring
    have hsum := (hdouble.congr (datum_neg_mul x two)).add hx (by rw [hneg]; exact neg_pos.2 ha)
    rw [hneg, hminus.roundReal_eq] at hsum
    have habsolute : absolute x = -(x * two) + x := by
      rw [absolute_of_below hbelow, add_comm_binary32]
      rfl
    rw [habsolute, abs_of_neg ha]
    exact hsum
  | false =>
    have ha : 0 ≤ a := by
      rw [← not_lt, ← isBelowZero_iff hx, hbelow]
      exact Bool.false_ne_true
    have hpos : 0 < a := lt_of_le_of_ne ha hne.symm
    have hsum := hx.atLeast.add (hasValue_neg hasValue_zero)
      (by rw [neg_zero, add_zero]; exact hpos)
    rw [neg_zero, add_zero, hx.roundReal_eq] at hsum
    rw [absolute_of_not_below hbelow, abs_of_nonneg ha]
    exact hsum

theorem absolute_of_infinite (negative : Bool) (h : x.datum = .infinite negative) :
    (absolute x).datum = .nan ∨ (absolute x).datum = .infinite false := by
  cases negative with
  | true =>
    left
    have hbelow : x.isBelowZero = true := by
      simp [isBelowZero, Binary32.lt, h, Datum.place, Datum.signed, infinityQuanta]
    have hproduct : (x * two).datum = .infinite true := by
      change ((x.datum.times two.datum).round quantaPerOne).datum = _
      obtain ⟨n, hn, htwo, -⟩ := hasValue_two.datum_of_pos two_pos
      rw [h, htwo, Datum.times, if_neg hn.ne']
      exact datum_infinity true
    rw [absolute_of_below hbelow]
    change ((x.datum.plus (-(x * two)).datum).round 1).datum = _
    rw [h, datum_neg, hproduct]
    exact datum_nan
  | false =>
    right
    have hbelow : x.isBelowZero = false := by
      simp [isBelowZero, Binary32.lt, h, Datum.place, Datum.signed, infinityQuanta]
    rw [absolute_of_not_below hbelow]
    change ((x.datum.plus (-zero).datum).round 1).datum = _
    rw [h, datum_neg, datum_zero]
    exact datum_infinity false

/-- A NaN, a number from `2³⁰` on, or a smaller one. -/
theorem absolute_cases (x : Binary32) :
    (absolute x).datum = .nan ∨ (absolute x).AtLeast (2 ^ (30 : ℤ)) ∨
      ∃ a, (absolute x).HasValue a ∧ 0 ≤ a ∧ a < 2 ^ (30 : ℤ) := by
  cases hdatum : x.datum with
  | nan =>
    left
    unfold absolute
    rw [nan_sub hdatum, datum_nan]
  | infinite negative =>
    rcases absolute_of_infinite negative hdatum with hnan | hinf
    · exact Or.inl hnan
    · exact Or.inr (Or.inl (Or.inl hinf))
  | finite negative m =>
    right
    have hx := hasValue_of_datum hdatum
    by_cases hsmall : |((Datum.signed negative m : ℤ) : ℝ) * 2 ^ (-149 : ℤ)| < 2 ^ (30 : ℤ)
    · right
      have hbound : (2 : ℝ) ^ (30 : ℤ) ≤ 2 ^ (126 : ℤ) :=
        zpow_le_zpow_right₀ one_le_two (by norm_num)
      exact ⟨_, hasValue_absolute hx (hsmall.le.trans hbound), abs_nonneg _, hsmall⟩
    · left
      exact (absolute_atLeast hx).mono (not_lt.1 hsmall)

end Octant

end
end VectorSine
