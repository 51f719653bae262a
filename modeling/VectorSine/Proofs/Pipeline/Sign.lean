import VectorSine.Proofs.Pipeline.Magnitude

/-! # The sign of the result

The sign of an angle enters the pipeline twice: in the absolute value, which is taken by adding, and
in the mask that turns the result over. Two opposite angles have the same absolute value as long as
it can be doubled. Beyond that the absolute value of the negative one is an infinity, but so large
an angle has a NaN for its result with either sign. So the sine is odd on the whole format.

The root in the half angle is never negative, and for a reduced angle within an octant the cosine is
not either. So up to `4 π` the sign of the result is the one that the octant and the sign of the
angle say, which is the sign of the sine right up to the multiples of `π`.

* `Octant.absolute_neg`, `Octant.isBelowZero_neg`: opposite angles.
* `Octant.chosen_nonneg`: the result before its sign.
-/

namespace VectorSine
set_option autoImplicit false
noncomputable section

open Binary32

variable {x : Binary32} {a X : ℝ}

/-! ## Opposite angles -/

namespace Octant

theorem absolute_neg (hx : x.HasValue a) (hne : a ≠ 0) (ha : |a| ≤ 2 ^ (126 : ℤ)) :
    absolute (-x) = absolute x := by
  have hopposite := hasValue_absolute (hasValue_neg hx) (by rwa [abs_neg])
  rw [abs_neg] at hopposite
  exact hopposite.eq_of_ne_zero (hasValue_absolute hx ha) (abs_ne_zero.2 hne)

theorem isBelowZero_neg (hx : x.HasValue a) (hne : a ≠ 0) :
    (-x).isBelowZero = !x.isBelowZero := by
  rw [Bool.eq_not, ne_eq, Bool.eq_iff_iff, isBelowZero_iff hx, isBelowZero_iff (hasValue_neg hx),
    neg_lt_zero]
  rcases hne.lt_or_gt with hneg | hpos
  · simp [hneg, hneg.le]
  · simp [hpos, hpos.le]

end Octant

/-- Both zeros have a zero for their sine. -/
theorem hasValue_laneSine_zero (fused : Bool) (hx : x.HasValue 0) :
    (laneSine fused x).HasValue 0 := by
  have hquantum : (2 : ℝ) ^ (-149 : ℤ) ≠ 0 := (zpow_pos two_pos _).ne'
  obtain ⟨negative, m, hm, hvalue⟩ := hx.datum
  have hcount : Datum.signed negative m = 0 := by
    exact_mod_cast (mul_eq_zero.1 hvalue).resolve_right hquantum
  have hsteps : m = 0 := by
    have habs := Datum.abs_signed negative m
    rw [hcount, abs_zero] at habs
    exact_mod_cast habs.symm
  rw [hsteps] at hm
  have hresult : (laneSine fused x).datum = .finite false 0 := by
    cases negative with
    | true =>
      have hx' : x = -zero :=
        eq_of_datum (hm.trans (by decide)) (by rw [hm]; exact Datum.noConfusion)
      rw [hx']
      cases fused <;> decide +kernel
    | false =>
      have hx' : x = zero :=
        eq_of_datum (hm.trans (by decide)) (by rw [hm]; exact Datum.noConfusion)
      rw [hx']
      cases fused <;> decide +kernel
  exact hasValue_zero.congr (datum_zero.trans hresult.symm)

/-- The sine is odd: opposite angles have opposite results, or neither has one. -/
theorem laneSine_neg (fused : Bool) (x : Binary32) :
    ((laneSine fused x).isNaN = true ∧ (laneSine fused (-x)).isNaN = true) ∨
      ∃ y, (laneSine fused x).HasValue y ∧ (laneSine fused (-x)).HasValue (-y) := by
  by_cases hfinite : x.IsFinite
  · have hx := hfinite.hasValue
    generalize x.toReal = a at hx
    rcases eq_or_ne a 0 with rfl | hne
    · right
      refine ⟨0, hasValue_laneSine_zero fused hx, ?_⟩
      have hopposite := hasValue_neg hx
      rw [neg_zero] at hopposite ⊢
      exact hasValue_laneSine_zero fused hopposite
    · rcases le_or_gt (|a|) (2 ^ (126 : ℤ)) with hle | hgt
      -- one absolute value, so only the last step differs
      · have habsolute := Octant.absolute_neg hx hne hle
        have hturned : isTurned (-x) = !isTurned x := by
          unfold isTurned
          rw [habsolute, Octant.isBelowZero_neg hx hne, Bool.xor_not]
        rcases chosen_cases fused (Octant.absolute x) with hnan | ⟨c, hc, hc1⟩
        · left
          have hopposite : chosen fused (Octant.absolute (-x)) = nan := by rw [habsolute, hnan]
          exact ⟨isNaN_of_eq_nan (laneSine_of_chosen_nan fused hnan),
            isNaN_of_eq_nan (laneSine_of_chosen_nan fused hopposite)⟩
        · right
          have hsize : |c| ≤ 2 ^ (126 : ℤ) := hc1.trans (by norm_num)
          have hopposite := hasValue_laneSine fused (x := -x) (by rw [habsolute]; exact hc) hsize
          refine ⟨_, hasValue_laneSine fused hc hsize, ?_⟩
          rw [hturned] at hopposite
          cases hturn : isTurned x <;> simpa [hturn] using hopposite
      -- neither absolute value is a number of octants that fits
      · left
        have hlarge : (2 : ℝ) ^ (31 : ℤ) ≤ |a| :=
          (zpow_le_zpow_right₀ one_le_two (by norm_num)).trans hgt.le
        have hopposite := Octant.absolute_atLeast (hasValue_neg hx)
        rw [abs_neg] at hopposite
        exact ⟨isNaN_of_eq_nan (laneSine_beyond fused ((Octant.absolute_atLeast hx).mono hlarge)),
          isNaN_of_eq_nan (laneSine_beyond fused (hopposite.mono hlarge))⟩
  · left
    have hopposite : ¬ (-x).IsFinite := by
      unfold IsFinite at hfinite ⊢
      rwa [magnitude_neg]
    exact ⟨isNaN_of_eq_nan (laneSine_not_finite fused hfinite),
      isNaN_of_eq_nan (laneSine_not_finite fused hopposite)⟩

/-! ## Both sides of zero -/

/-- Before its sign is known, the result is not negative. -/
theorem Octant.chosen_nonneg (fused : Bool) (hx : x.HasValue X) (hX : |X| < 2 ^ (16 : ℤ)) :
    ∃ c, (chosen fused (absolute x)).HasValue c ∧ 0 ≤ c ∧ c ≤ 1 := by
  obtain ⟨-, b, hb, hsmall, -⟩ := reduce_near fused hx hX
  obtain ⟨s, c, hs, hc, -, hc0, -⟩ := HalfAngle.sineCosine_near fused hb hsmall
  by_cases hinside : HalfAngle.Inside (HalfAngle.series fused (reduce fused x).angle)
  · obtain ⟨s', c', hs', hc', hs0, hs1, hc1⟩ := HalfAngle.sineCosine_of_inside fused hinside
    have hcosine : c' = c := hc'.unique hc
    obtain ⟨d, hd, hd1, hd0⟩ := Quadrant.hasValue_select
      (((reduce fused x).octant + 1 &&& 2) == 2) hs' hc' hs0 hs1 hc1
    rw [← swapMask_eq_laneMask] at hd
    exact ⟨d, hd, hd0 (by rw [hcosine]; exact hc0), (abs_le.1 hd1).2⟩
  · rw [HalfAngle.sine_nan_of_not_inside fused hinside] at hs
    exact absurd hs.finite (by decide)

/-- Up to `4 π` there is a result, and where the sine is positive it is not negative, and the other
way round. -/
theorem laneSine_sign (fused : Bool) (x : Binary32) (hx : x.IsFinite)
    (hrange : |x.toReal| ≤ 4 * Real.pi) :
    ∃ y, (laneSine fused x).HasValue y ∧ (0 < Real.sin x.toReal → 0 ≤ y) ∧
      (Real.sin x.toReal < 0 → y ≤ 0) := by
  have hvalue := hx.hasValue
  obtain ⟨c, hc, hc0, hc1⟩ := Octant.chosen_nonneg fused hvalue
    (Octant.lt_two_zpow_of_le_four_pi (by norm_num) hrange)
  have hsize : |c| ≤ 2 ^ (126 : ℤ) := by
    rw [abs_of_nonneg hc0]
    exact hc1.trans (by norm_num)
  have hsin := Octant.sin_eq_of_isTurned hvalue hrange
  have habs := abs_nonneg (Real.sin x.toReal)
  refine ⟨_, hasValue_laneSine fused hc hsize, ?_⟩
  cases hturn : isTurned x with
  | true =>
    rw [hturn, if_pos rfl] at hsin
    constructor
    · intro hpos
      linarith
    · intro _
      simpa using hc0
  | false =>
    rw [hturn, if_neg Bool.false_ne_true] at hsin
    constructor
    · intro _
      simpa using hc0
    · intro hneg
      linarith

/-- The next number above `π`, where the sine is already negative. -/
theorem laneSine_sign_above_pi :
    Real.sin (⟨0x40490FDB⟩ : Binary32).toReal < 0 ∧
      ∃ y, (laneSine true ⟨0x40490FDB⟩).HasValue y ∧ y ≤ 0 := by
  have hvalue : (⟨0x40490FDB⟩ : Binary32).HasValue (13176795 / 2 ^ 22) := by
    have h := hasValue_of_significand (x := ⟨0x40490FDB⟩) 13176795 127 (by decide)
    norm_num at h ⊢
    exact h
  have hlow := Real.pi_gt_d20
  have hhigh := Real.pi_lt_d20
  norm_num at hlow hhigh
  have hsin : Real.sin (⟨0x40490FDB⟩ : Binary32).toReal < 0 := by
    rw [hvalue.toReal_eq]
    have hrest : 0 < Real.sin (13176795 / 2 ^ 22 - Real.pi) := by
      apply Real.sin_pos_of_pos_of_lt_pi <;> norm_num <;> linarith
    rw [Real.sin_sub_pi] at hrest
    linarith
  obtain ⟨y, hy, -, hneg⟩ := laneSine_sign true ⟨0x40490FDB⟩ (by decide) (by
    rw [hvalue.toReal_eq, abs_of_pos (by norm_num)]
    norm_num
    linarith)
  exact ⟨hsin, y, hy, hneg hsin⟩

end
end VectorSine
