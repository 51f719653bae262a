import VectorSine.Proofs.Execution.Results
import VectorSine.Proofs.Packed.Agreement
import VectorSine.Proofs.Pipeline.Quadrant
import VectorSine.Proofs.Sine.Rounded

/-! # Accuracy

Up to `4 π` the pipeline and the rounded sine are both off by less than a millionth, and a kernel
writes nothing else. So every number that a request writes is that near to the sine of the number
it was computed from, whichever build, variant and slices it was.

* `laneSine_within`, `roundedSine_within`: the two ways to a sine.
* `Kernel.execute_within`: what a kernel writes.
-/

namespace VectorSine
set_option autoImplicit false
noncomputable section

/-- A finite number that is off by less than `δ` from the sine of another number. -/
structure SineWithin (δ : ℝ) (x y : Binary32) : Prop where
  finite : y.IsFinite
  near : |y.toReal - Real.sin x.toReal| < δ

variable {x : Binary32} {src : Slice}

theorem sineWithin_of_near {y : Binary32} {Y δ ε : ℝ} (hy : y.HasValue Y)
    (hnear : |Y - Real.sin x.toReal| ≤ ε) (hε : ε < δ) : SineWithin δ x y := by
  refine ⟨hy.finite, ?_⟩
  rw [hy.toReal_eq]
  exact hnear.trans_lt hε

theorem laneSine_within (fused : Bool) (hx : x.IsFinite) (hrange : |x.toReal| ≤ 4 * Real.pi) :
    SineWithin (1 / 10 ^ 6) x (laneSine fused x) := by
  obtain ⟨y, hy, hnear⟩ := laneSine_near fused hx.hasValue hrange
  exact sineWithin_of_near hy hnear (by norm_num)

theorem roundedSine_within (hx : x.IsFinite) (hrange : |x.toReal| ≤ 4 * Real.pi) :
    SineWithin (1 / 10 ^ 6) x (roundedSine x) := by
  obtain ⟨y, hy, hnear⟩ := roundedSine_near hx.hasValue hrange
  exact sineWithin_of_near hy hnear (by norm_num)

namespace Kernel

theorem valueAt_within (k : Kernel) (n i : ℕ) (hx : x.IsFinite)
    (hrange : |x.toReal| ≤ 4 * Real.pi) : SineWithin (1 / 10 ^ 6) x (k.valueAt n i x) := by
  cases k with
  | generic => exact roundedSine_within hx hrange
  | lanes unit fused aligned =>
    by_cases hgroup : i < n - n % unit.lanes
    · rw [valueAt, if_pos hgroup, LaneUnit.laneValue_eq]
      exact laneSine_within fused hx hrange
    · rw [valueAt, if_neg hgroup]
      exact roundedSine_within hx hrange

theorem execute_within (k : Kernel) (dst src : Slice) (hok : (k.execute dst src).failure = none)
    (i : ℕ) (hi : i < src.count) (hx : (src.get i hi).IsFinite)
    (hrange : |(src.get i hi).toReal| ≤ 4 * Real.pi) :
    ∃ y, (k.execute dst src).dst.data[dst.first + i]? = some y ∧
      SineWithin (1 / 10 ^ 6) (src.get i hi) y :=
  ⟨_, k.execute_value dst src hok i hi, k.valueAt_within src.count i hx hrange⟩

end Kernel

namespace Engine

theorem outcomeOf_within (kernel : Except ExecutionError Kernel) (dst src : Slice)
    (hok : (outcomeOf kernel dst src).failure = none) (i : ℕ) (hi : i < src.count)
    (hx : (src.get i hi).IsFinite) (hrange : |(src.get i hi).toReal| ≤ 4 * Real.pi) :
    ∃ y, (outcomeOf kernel dst src).dst.data[dst.first + i]? = some y ∧
      SineWithin (1 / 10 ^ 6) (src.get i hi) y := by
  cases kernel with
  | ok k => exact k.execute_within dst src hok i hi hx hrange
  | error error => contradiction

/-- Both modes of the pipeline, and every number that a request writes, whether it names a variant
or not, are within a millionth of the sine. -/
theorem sine_within_millionth (x : Binary32) (hx : x.IsFinite)
    (hrange : |x.toReal| ≤ 4 * Real.pi) :
    (∀ fused, SineWithin (1 / 10 ^ 6) x (laneSine fused x)) ∧
    (∀ (e : Engine) (v : Variant) (dst src : Slice) (i : ℕ) (hi : i < src.count),
      src.get i hi = x → (e.execute v dst src).1.failure = none →
      ∃ y, (e.execute v dst src).1.dst.data[dst.first + i]? = some y ∧
        SineWithin (1 / 10 ^ 6) x y) ∧
    (∀ (e : Engine) (dst src : Slice) (i : ℕ) (hi : i < src.count),
      src.get i hi = x → (e.sine dst src).1.failure = none →
      ∃ y, (e.sine dst src).1.dst.data[dst.first + i]? = some y ∧
        SineWithin (1 / 10 ^ 6) x y) := by
  refine ⟨fun fused => laneSine_within fused hx hrange, ?_, ?_⟩
  · intro e v dst src i hi hsource hok
    subst hsource
    exact outcomeOf_within (e.make v).1 dst src hok i hi hx hrange
  · intro e dst src i hi hsource hok
    subst hsource
    exact outcomeOf_within e.resolve.1 dst src hok i hi hx hrange

/-- One group of ones, through the preferred kernel. -/
theorem sine_within_millionth_one :
    ∃ y, ((start .all).sine (Buffer.whole { offset := 0, data := Array.replicate 8 Binary32.zero })
        (Buffer.whole { offset := 1, data := Array.replicate 8 Binary32.one })).1.dst.data[0 + 7]? =
          some y ∧ SineWithin (1 / 10 ^ 6) Binary32.one y :=
  (sine_within_millionth Binary32.one (by decide) (by
    rw [Binary32.hasValue_one.toReal_eq, abs_one]
    linarith [Real.pi_gt_three])).2.2 (start .all) _ _ 7 (by decide) rfl (by decide)

end Engine

end
end VectorSine
