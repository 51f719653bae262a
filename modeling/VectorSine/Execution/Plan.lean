import VectorSine.Execution.Buffer

/-! # Lane groups and tails

A slice of `n` numbers holds `n / w` full groups of `w` lanes, one after the other from its start,
and a tail of the `n % w` numbers after them. A plan pairs the groups and the tails of the two
slices of a run.

* `Plan.between_groups` and `Plan.between_tail`: for slices of one length each group and each
  position of the tail is paired with itself.
-/

namespace VectorSine
set_option autoImplicit false

namespace Slice

/-- Where the full groups start. -/
def groupStarts (s : Slice) (w : Nat) : List Nat :=
  (List.range (s.count / w)).map fun k => k * w

/-- The positions after the last full group. -/
def tailPositions (s : Slice) (w : Nat) : List Nat :=
  (List.range (s.count % w)).map fun k => s.count / w * w + k

end Slice

/-- The groups and the single positions of a run, the destination's first in each pair. -/
structure Plan where
  groups : List (Nat × Nat)
  tail : List (Nat × Nat)

namespace Plan

/-- The plan that pairs two slices group by group and then position by position. -/
def between (w : Nat) (dst src : Slice) : Plan :=
  { groups := (dst.groupStarts w).zip (src.groupStarts w)
    tail := (dst.tailPositions w).zip (src.tailPositions w) }

theorem between_groups (w : Nat) (dst src : Slice) (h : dst.count = src.count) :
    (between w dst src).groups = (src.groupStarts w).map fun i => (i, i) := by
  have hgroups : dst.groupStarts w = src.groupStarts w := by
    unfold Slice.groupStarts
    rw [h]
  change (dst.groupStarts w).zip (src.groupStarts w) = _
  rw [hgroups, List.zip_eq_zipWith, List.zipWith_self]

theorem between_tail (w : Nat) (dst src : Slice) (h : dst.count = src.count) :
    (between w dst src).tail = (src.tailPositions w).map fun i => (i, i) := by
  have htail : dst.tailPositions w = src.tailPositions w := by
    unfold Slice.tailPositions
    rw [h]
  change (dst.tailPositions w).zip (src.tailPositions w) = _
  rw [htail, List.zip_eq_zipWith, List.zipWith_self]

end Plan

namespace Slice

theorem mem_groupStarts {s : Slice} {w i : Nat} (h : i ∈ s.groupStarts w) :
    i % w = 0 ∧ i + w ≤ s.count := by
  unfold groupStarts at h
  rw [List.mem_map] at h
  obtain ⟨k, hk, rfl⟩ := h
  rw [List.mem_range] at hk
  refine ⟨Nat.mul_mod_left k w, ?_⟩
  have hgroups : (k + 1) * w ≤ s.count / w * w := Nat.mul_le_mul_right w hk
  have hcount := Nat.div_mul_le_self s.count w
  rw [Nat.add_mul, Nat.one_mul] at hgroups
  omega

theorem mem_tailPositions {s : Slice} {w i : Nat} (h : i ∈ s.tailPositions w) :
    s.count / w * w ≤ i ∧ i < s.count := by
  unfold tailPositions at h
  rw [List.mem_map] at h
  obtain ⟨k, hk, rfl⟩ := h
  rw [List.mem_range] at hk
  have hcount := Nat.div_add_mod s.count w
  rw [Nat.mul_comm] at hcount
  omega

end Slice

end VectorSine
