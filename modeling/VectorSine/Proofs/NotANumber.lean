import VectorSine.Proofs.Execution.Results
import VectorSine.Proofs.Packed.Agreement
import VectorSine.Proofs.Pipeline.LargeAngle

/-! # Where a NaN is written

The rounded sine of a number is a number. The pipeline loses large angles, so what a request writes
for one depends on where in the buffer it is: a NaN in a full group, a number in the tail.

* `roundedSine_not_isNaN`: the rounded sine.
* `valueAt_isNaN_iff`: what the kernel of a variant leaves at a position.
* `execute_isNaN_iff`: what a request writes.
-/

namespace VectorSine
set_option autoImplicit false
noncomputable section

theorem roundedSine_not_isNaN {x : Binary32} (hx : x.IsFinite) : (roundedSine x).isNaN = false := by
  obtain ⟨negative, q, hq⟩ := (Binary32.isFinite_iff x).1 hx
  have hdatum := Binary32.datum_ofQuanta
    (negative ^^ (FixedPoint.sine (q * Datum.grainsPerQuantum)).1)
    (FixedPoint.sine (q * Datum.grainsPerQuantum)).2 Datum.grainsPerQuantum (by decide)
  rw [← Bool.not_eq_true, ← Binary32.datum_eq_nan_iff, roundedSine, hq]
  change (Binary32.ofQuanta _ _ _).datum ≠ _
  rw [hdatum]
  split <;> exact Datum.noConfusion

theorem valueAt_isNaN_iff {v : Variant} {k : Kernel} (hk : v.kernel? = some k) (n i : ℕ)
    {x : Binary32} (hx : x.IsFinite) :
    (k.valueAt n i x).isNaN = true ↔
      v.isa ≠ .generic ∧ i < n - n % v.lanes ∧ (laneSine v.fused x).isNaN = true := by
  rcases Variant.kernel?_eq_some hk with ⟨hgeneric, rfl⟩ | ⟨unit, hisa, -, hlanes, rfl⟩
  · rw [Kernel.valueAt, roundedSine_not_isNaN hx]
    simp [hgeneric]
  · rw [Kernel.valueAt, hlanes]
    by_cases hgroup : i < n - n % v.lanes
    · rw [if_pos hgroup, LaneUnit.laneValue_eq]
      simp [hisa, hgroup]
    · rw [if_neg hgroup, roundedSine_not_isNaN hx]
      simp [hgroup]

namespace Engine

theorem execute_isNaN_iff (e : Engine) (v : Variant) (dst src : Slice)
    (hok : (e.execute v dst src).1.failure = none) (i : ℕ) (hi : i < src.count)
    (hx : (src.get i hi).IsFinite) :
    ∃ y, (e.execute v dst src).1.dst.data[dst.first + i]? = some y ∧
      (y.isNaN = true ↔ v.isa ≠ .generic ∧ i < src.count - src.count % v.lanes ∧
        (laneSine v.fused (src.get i hi)).isNaN = true) := by
  rw [execute_eq_build] at hok ⊢
  obtain ⟨hsupports, -⟩ := Build.fits_of_execute e.build v dst src hok
  obtain ⟨k, hk, -, hexecute⟩ := e.build.execute_of_supports v dst src hsupports
  rw [hexecute] at hok ⊢
  exact ⟨_, k.execute_value dst src hok i hi, valueAt_isNaN_iff hk src.count i hx⟩

/-- The pipeline has a NaN for a finite number if and only if the series of the reduced angle is not
from zero to four: never below `2²⁷`, always from `2³¹` on. A request that succeeds writes a NaN for
a finite number if and only if that number is in a full group of a variant other than the generic
one and the pipeline has a NaN for it. -/
theorem isNaN_iff_of_finite (x : Binary32) (hx : x.IsFinite) :
    (∀ fused, ((laneSine fused x).isNaN = true ↔
        ¬ HalfAngle.Inside (HalfAngle.series fused (Octant.reduce fused x).angle)) ∧
      (|x.toReal| < 2 ^ (27 : ℤ) → (laneSine fused x).isNaN = false) ∧
      (2 ^ (31 : ℤ) ≤ |x.toReal| → (laneSine fused x).isNaN = true)) ∧
    (∀ (e : Engine) (v : Variant) (dst src : Slice) (i : ℕ) (hi : i < src.count),
      src.get i hi = x → (e.execute v dst src).1.failure = none →
      ∃ y, (e.execute v dst src).1.dst.data[dst.first + i]? = some y ∧
        (|x.toReal| < 2 ^ (27 : ℤ) → y.isNaN = false) ∧
        (y.isNaN = true ↔ v.isa ≠ .generic ∧ i < src.count - src.count % v.lanes ∧
          (laneSine v.fused x).isNaN = true)) := by
  refine ⟨fun fused => ⟨laneSine_isNaN_iff fused x, laneSine_not_isNaN fused hx.hasValue,
    laneSine_isNaN fused hx.hasValue⟩, ?_⟩
  intro e v dst src i hi hsource hok
  subst hsource
  obtain ⟨y, hy, hiff⟩ := e.execute_isNaN_iff v dst src hok i hi hx
  refine ⟨y, hy, ?_, hiff⟩
  intro hrange
  rw [← Bool.not_eq_true, hiff, laneSine_not_isNaN v.fused hx.hasValue hrange]
  simp

/-- One number, through the kernel for single numbers. -/
theorem isNaN_iff_of_finite_scalar :
    (⟨0x4D000C9A⟩ : Binary32).IsFinite ∧
    ∃ y, ((start .all).execute { isa := .scalar, fused := false, alignment := .unaligned }
        (Buffer.whole { offset := 0, data := #[Binary32.zero] })
        (Buffer.whole { offset := 1, data := #[⟨0x4D000C9A⟩] })).1.dst.data[0 + 0]? = some y ∧
      y.isNaN = true := by
  obtain ⟨y, hy, -, hiff⟩ := (isNaN_iff_of_finite ⟨0x4D000C9A⟩ (by decide)).2 (start .all)
    { isa := .scalar, fused := false, alignment := .unaligned }
    (Buffer.whole { offset := 0, data := #[Binary32.zero] })
    (Buffer.whole { offset := 1, data := #[⟨0x4D000C9A⟩] }) 0 (by decide) rfl (by decide)
  exact ⟨by decide, y, hy, hiff.2 ⟨by decide, by decide, by decide +kernel⟩⟩

end Engine

end
end VectorSine
