import VectorSine.Proofs.Pipeline.Overflow
import VectorSine.Proofs.Pipeline.Quadrant

/-! # The magnitude of the result

Nothing clamps the result of the pipeline. It is at most one all the same, for every angle that has
a result, however large: the half angle gives a sine and a cosine in their range or a NaN, and
neither the choice between them nor the change of sign leaves that range. The bits below the sign
then do not exceed those of one, and only finite angles have a number for their sine.

* `chosen_cases`, `laneSine_cases`: a NaN or a number of at most one, without and with its sign.
* `laneSine_isNaN_iff`: which of the two it is.
-/

namespace VectorSine
set_option autoImplicit false
noncomputable section

open Binary32

/-! ## The chosen function -/

variable {x s : Binary32}

theorem chosen_of_inside (fused : Bool) (h : HalfAngle.Inside (HalfAngle.series fused
    (Octant.subtract fused s (Binary32.ofInt32 (Octant.evenCount (Octant.count s)))))) :
    ∃ c, (chosen fused s).HasValue c ∧ |c| ≤ 1 := by
  obtain ⟨b, c, hb, hc, hb0, hb1, hc1⟩ := HalfAngle.sineCosine_of_inside fused h
  simp only [chosen, swapMask_eq_laneMask]
  obtain ⟨d, hd, hd1, -⟩ := Quadrant.hasValue_select _ hb hc hb0 hb1 hc1
  exact ⟨d, hd, hd1⟩

theorem chosen_of_not_inside (fused : Bool) (h : ¬ HalfAngle.Inside (HalfAngle.series fused
    (Octant.subtract fused s (Binary32.ofInt32 (Octant.evenCount (Octant.count s)))))) :
    chosen fused s = nan := by
  simp only [chosen]
  rw [HalfAngle.sine_nan_of_not_inside fused h]
  exact nan_add datum_nan _

theorem chosen_cases (fused : Bool) (s : Binary32) :
    chosen fused s = nan ∨ ∃ c, (chosen fused s).HasValue c ∧ |c| ≤ 1 :=
  (em _).symm.imp (chosen_of_not_inside fused) (chosen_of_inside fused)

/-! ## The result -/

theorem laneSine_of_chosen_nan (fused : Bool) (h : chosen fused (Octant.absolute x) = nan) :
    laneSine fused x = nan := by
  rw [laneSine_eq_flip, h]
  exact nan_sub datum_nan _

theorem laneSine_of_chosen (fused : Bool)
    (h : ∃ c, (chosen fused (Octant.absolute x)).HasValue c ∧ |c| ≤ 1) :
    ∃ y, (laneSine fused x).HasValue y ∧ |y| ≤ 1 := by
  obtain ⟨c, hc, hc1⟩ := h
  refine ⟨_, hasValue_laneSine fused hc (hc1.trans (by norm_num)), ?_⟩
  split
  · rwa [abs_neg]
  · exact hc1

theorem laneSine_cases (fused : Bool) (x : Binary32) :
    laneSine fused x = nan ∨ ∃ y, (laneSine fused x).HasValue y ∧ |y| ≤ 1 :=
  (chosen_cases fused (Octant.absolute x)).imp (laneSine_of_chosen_nan fused)
    (laneSine_of_chosen fused)

theorem isNaN_of_eq_nan {y : Binary32} (h : y = nan) : y.isNaN = true := by
  rw [h]
  decide

/-- The result is a number if and only if the series of the reduced angle is one from zero to
four. -/
theorem laneSine_isNaN_iff (fused : Bool) (x : Binary32) :
    (laneSine fused x).isNaN = true ↔
      ¬ HalfAngle.Inside (HalfAngle.series fused (Octant.reduce fused x).angle) := by
  constructor
  · intro hnan hinside
    obtain ⟨y, hy, -⟩ := laneSine_of_chosen fused (chosen_of_inside fused hinside)
    rw [hy.finite.isNaN_eq_false] at hnan
    contradiction
  · intro houtside
    exact isNaN_of_eq_nan (laneSine_of_chosen_nan fused (chosen_of_not_inside fused houtside))

/-- The result for a number that is not finite is a NaN, and every other result is a NaN or has bits
below the sign that do not exceed those of one. -/
theorem laneSine_magnitude_le (fused : Bool) (x : Binary32) :
    (¬ x.IsFinite → (laneSine fused x).isNaN = true) ∧
    ((laneSine fused x).isNaN = true ∨
      ((laneSine fused x).magnitude ≤ 0x3F800000 ∧
        ∃ y, (laneSine fused x).HasValue y ∧ |y| ≤ 1)) := by
  refine ⟨fun hx => isNaN_of_eq_nan (laneSine_not_finite fused hx), ?_⟩
  rcases laneSine_cases fused x with hnan | ⟨y, hy, hle⟩
  · exact Or.inl (isNaN_of_eq_nan hnan)
  · refine Or.inr ⟨?_, y, hy, hle⟩
    exact hy.magnitude_le hasValue_one (by rwa [abs_one])

/-- The negative infinity, whose absolute value is the difference of two infinities. -/
theorem laneSine_magnitude_le_infinity :
    ¬ (infinity true).IsFinite ∧ (laneSine false (infinity true)).isNaN = true :=
  ⟨by decide, (laneSine_magnitude_le false (infinity true)).1 (by decide)⟩

end
end VectorSine
