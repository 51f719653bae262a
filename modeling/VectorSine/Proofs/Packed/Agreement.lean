import VectorSine.Proofs.Pipeline.Overflow

/-! # The packed pipeline computes what the pipeline for one number does

Below `2³⁰` both pipelines count the same octants. A larger angle may have a count that is not an
integer of 32 bits; then the two conversions give different octants, whose even counts are however
the same integer, the least one, and the result is a NaN whichever octant corrects it.

* `counts_agree_or_least`: the counts of octants are equal, or their even counts the least integer.
* `laneValue_eq`: every unit leaves the result of `laneSine` in a lane.
-/

namespace VectorSine
set_option autoImplicit false
noncomputable section

open Binary32

namespace Packed

theorem counts_agree_of_lt {s : Binary32} {a : ℝ} (hs : s.HasValue a) (ha : 0 ≤ a)
    (hlt : a < 2 ^ (30 : ℤ)) : Octant.count s = nearestCount s := by
  have hupper : a * (10680707 / 2 ^ 23) ≤ 3 * 2 ^ (29 : ℤ) := by
    calc a * (10680707 / 2 ^ 23) ≤ 2 ^ (30 : ℤ) * (10680707 / 2 ^ 23) :=
          mul_le_mul_of_nonneg_right hlt.le (by norm_num)
      _ ≤ 3 * 2 ^ (29 : ℤ) := by norm_num
  have hnonneg : 0 ≤ a * (10680707 / 2 ^ 23) := mul_nonneg ha (by norm_num)
  have hproduct := hasValue_mul hs Coefficients.hasValue_octantsPerUnit (by
    rw [abs_of_nonneg hnonneg]
    exact hupper.trans (by norm_num))
  have hkeep : roundReal (3 * 2 ^ (29 : ℤ)) = 3 * 2 ^ (29 : ℤ) :=
    roundReal_eq (m := 3) (e := 29) (by norm_num) (by norm_num) (by norm_num)
  have hrounded : roundReal (a * (10680707 / 2 ^ 23)) < 2 ^ (31 : ℤ) := by
    calc roundReal (a * (10680707 / 2 ^ 23)) ≤ roundReal (3 * 2 ^ (29 : ℤ)) := roundReal_mono hupper
      _ = 3 * 2 ^ (29 : ℤ) := hkeep
      _ < 2 ^ (31 : ℤ) := by norm_num
  obtain ⟨htruncated, hnearest⟩ :=
    hproduct.floor_conversions (roundReal_nonneg hnonneg) hrounded
  unfold Octant.count nearestCount
  rw [htruncated, hnearest]

theorem counts_agree_or_least {s : Binary32} (hs : s.AtLeast (2 ^ (30 : ℤ))) :
    Octant.count s = nearestCount s ∨
      (Octant.evenCount (Octant.count s) = BitVec.ofInt 32 minInt32 ∧
        Octant.evenCount (nearestCount s) = BitVec.ofInt 32 minInt32) := by
  rcases Octant.product_atLeast (by norm_num) hs with hinf | ⟨b, hb, hle⟩
  · exact Or.inr (Octant.evenCounts_beyond (Or.inl hinf))
  · by_cases hlt : b < 2 ^ (31 : ℤ)
    · left
      obtain ⟨htruncated, hnearest⟩ :=
        hb.floor_conversions ((zpow_pos two_pos _).le.trans hle) hlt
      unfold Octant.count nearestCount
      rw [htruncated, hnearest]
    · exact Or.inr (Octant.evenCounts_beyond (Or.inr ⟨b, hb, not_lt.1 hlt⟩))

theorem sineInOctant_nearestCount (fused : Bool) (x : Binary32) :
    sineInOctant fused x (nearestCount (Octant.absolute x)) = laneSine fused x := by
  rw [laneSine_eq]
  rcases Octant.absolute_cases x with hnan | hlarge | ⟨a, hvalue, hnonneg, hlt⟩
  · rw [sineInOctant_nan fused x _ hnan, sineInOctant_nan fused x _ hnan]
  · rcases counts_agree_or_least hlarge with hagree | ⟨htruncated, hnearest⟩
    · rw [hagree]
    · rw [sineInOctant_beyond fused x _ hlarge hnearest,
        sineInOctant_beyond fused x _ hlarge htruncated]
  · rw [counts_agree_of_lt hvalue hnonneg hlt]

end Packed

namespace LaneUnit

theorem laneValue_eq (unit : LaneUnit) (fused : Bool) (x : Binary32) :
    unit.laneValue fused x = laneSine fused x := by
  cases unit with
  | scalar => rfl
  | sse41 => exact Packed.sineInOctant_nearestCount fused x
  | avx2 => exact Packed.sineInOctant_nearestCount fused x

/-- Each lane of each unit holds, bit for bit, what the pipeline for one number computes. -/
theorem compute_eq_laneSine (unit : LaneUnit) (fused : Bool) (r : Register unit.lanes)
    (k : Fin unit.lanes) : (unit.compute fused r)[k] = laneSine fused r[k] := by
  have hlane := unit.getElem_compute fused r k k.isLt
  rw [laneValue_eq] at hlane
  exact hlane

end LaneUnit

end
end VectorSine
