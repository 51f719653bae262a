import VectorSine.Execution.Kernel

/-! # Execution

`Kernel.execute` checks the two slices and, where nothing is wrong with them, runs the kernel. An
error leaves the destination as it was.

A run that follows a passed check never faults. Its accesses keep the place of the destination, so
the one check of the start addresses carries over to every group: groups lie a multiple of the
register's bytes apart.
-/

namespace VectorSine
set_option autoImplicit false

namespace Slice

/-- Two slices at one place: same address, same extent, whatever numbers they hold. -/
structure SamePlace (d e : Slice) : Prop where
  offset : d.buffer.offset = e.buffer.offset
  size : d.buffer.data.size = e.buffer.data.size
  first : d.first = e.first
  count : d.count = e.count

theorem SamePlace.refl (d : Slice) : SamePlace d d := ⟨rfl, rfl, rfl, rfl⟩

theorem SamePlace.trans {d e f : Slice} (h : SamePlace d e) (h' : SamePlace e f) : SamePlace d f :=
  ⟨h.offset.trans h'.offset, h.size.trans h'.size, h.first.trans h'.first, h.count.trans h'.count⟩

theorem SamePlace.write (d : Slice) (i : Nat) (xs : List Binary32) : SamePlace (d.write i xs) d :=
  ⟨rfl, write_size d i xs, rfl, rfl⟩

theorem SamePlace.address {d e : Slice} (h : SamePlace d e) (i : Nat) :
    d.address i = e.address i := by
  unfold Slice.address
  rw [h.offset, h.first]

theorem SamePlace.admits {d e : Slice} (h : SamePlace d e) (w : Nat) (aligned : Bool) (i : Nat) :
    d.admits w aligned i ↔ e.admits w aligned i := by
  unfold Slice.admits
  rw [h.count, h.address]

/-- A group start is as far from alignment as the start of the slice. -/
theorem address_mod (s : Slice) (w i : Nat) (hi : i % w = 0) :
    s.address i % (w * bytesPerNumber) = s.address 0 % (w * bytesPerNumber) := by
  obtain ⟨k, rfl⟩ := Nat.dvd_of_mod_eq_zero hi
  have hsplit : s.address (w * k) = s.address 0 + w * bytesPerNumber * k := by
    unfold Slice.address
    rw [Nat.add_zero, Nat.mul_add bytesPerNumber, Nat.mul_right_comm w, Nat.mul_comm (w * k)]
  rw [hsplit, Nat.add_mul_mod_self_left]

theorem take?_eq_some {s : Slice} {n : Nat} (h : n ≤ s.count) :
    ∃ head, s.take? n = some head ∧ head.count = n ∧ head.buffer = s.buffer ∧
      head.first = s.first := by
  refine ⟨_, dif_pos h, rfl, rfl, rfl⟩

end Slice

/-- A fold in which every step succeeds and keeps the place succeeds and keeps the place. -/
theorem foldlM_samePlace {α : Type} (step : Slice → α → Option Slice) (xs : List α) (d e : Slice)
    (hd : d.SamePlace e)
    (hstep : ∀ x ∈ xs, ∀ d : Slice, d.SamePlace e → ∃ d', step d x = some d' ∧ d'.SamePlace e) :
    ∃ d', xs.foldlM step d = some d' ∧ d'.SamePlace e := by
  induction xs generalizing d with
  | nil => exact ⟨d, rfl, hd⟩
  | cons x xs ih =>
    obtain ⟨d', hx, hd'⟩ := hstep x (List.mem_cons_self) d hd
    obtain ⟨d'', hxs, hd''⟩ := ih d' hd' fun y hy => hstep y (List.mem_cons_of_mem x hy)
    refine ⟨d'', ?_, hd''⟩
    rw [List.foldlM_cons, hx]
    exact hxs

namespace Kernel

/-! ## Single steps -/

theorem roundOne?_samePlace (src d e : Slice) (i j : Nat) (hd : d.SamePlace e)
    (hi : i < e.count) (hj : j < src.count) :
    ∃ d', roundOne? src d (i, j) = some d' ∧ d'.SamePlace e := by
  refine ⟨d.write i [roundedSine (src.get j hj)], ?_, (Slice.SamePlace.write _ _ _).trans hd⟩
  have hi' : i < d.count := by rw [hd.count]; exact hi
  simp [roundOne?, Slice.get?, Slice.set?, hi', hj]

theorem sweepGroup?_samePlace (unit : LaneUnit) (fused aligned : Bool) (src d e : Slice)
    (i j : Nat) (hd : d.SamePlace e)
    (hi : e.admits unit.lanes (unit.asksAligned aligned) i)
    (hj : src.admits unit.lanes (unit.asksAligned aligned) j) :
    ∃ d', sweepGroup? unit fused aligned src d (i, j) = some d' ∧ d'.SamePlace e := by
  obtain ⟨r, hr⟩ := Option.isSome_iff_exists.1
    ((Slice.load?_isSome_iff src unit.lanes (unit.asksAligned aligned) j).2 hj)
  refine ⟨d.write i (unit.compute fused r).toList, ?_, (Slice.SamePlace.write _ _ _).trans hd⟩
  have hi' := (hd.admits unit.lanes (unit.asksAligned aligned) i).2 hi
  simp [sweepGroup?, hr, Slice.store?, hi']

/-! ## Whole runs -/

theorem admits_groupStart {unit : LaneUnit} {aligned : Bool} {s : Slice} {i : Nat}
    (hs : s.address 0 % unit.requiredAlignment aligned = 0) (hi : i ∈ s.groupStarts unit.lanes) :
    s.admits unit.lanes (unit.asksAligned aligned) i := by
  obtain ⟨hmod, hend⟩ := Slice.mem_groupStarts hi
  refine ⟨hend, fun hasks => ?_⟩
  rw [LaneUnit.requiredAlignment, if_pos hasks] at hs
  rw [Slice.address_mod s _ i hmod, hs]

/-- After a passed check a run does not fault. -/
theorem sweep?_samePlace (k : Kernel) (dst src : Slice)
    (h : checkBuffers dst src k.requiredAlignment = none) :
    ∃ d, k.sweep? dst src = some d ∧ d.buffer.offset = dst.buffer.offset ∧
      d.buffer.data.size = dst.buffer.data.size := by
  have hlen : src.count ≤ dst.count := by
    unfold checkBuffers at h
    split at h
    · contradiction
    · omega
  cases k with
  | generic =>
    obtain ⟨d, hd, hplace⟩ := foldlM_samePlace (roundOne? src)
      ((List.range dst.count).zip (List.range src.count)) dst dst (Slice.SamePlace.refl dst)
      (fun p hp d hd => roundOne?_samePlace src d dst p.1 p.2 hd
        (List.mem_range.1 (List.of_mem_zip hp).1) (List.mem_range.1 (List.of_mem_zip hp).2))
    exact ⟨d, hd, hplace.offset, hplace.size⟩
  | lanes unit fused aligned =>
    obtain ⟨head, htake, hcount, hbuffer, hfirst⟩ := Slice.take?_eq_some hlen
    have haddress : ∀ s : Slice, s = src ∨ s = head → 0 < s.count →
        s.address 0 % unit.requiredAlignment aligned = 0 := by
      intro s hs hpos
      have hsrc : src.count ≠ 0 := by
        rcases hs with rfl | rfl <;> omega
      unfold checkBuffers at h
      rw [if_neg (by omega), if_neg hsrc] at h
      split at h
      · contradiction
      · next hmod =>
        simp only [requiredAlignment, not_or, Decidable.not_not] at hmod
        rcases hs with rfl | rfl
        · exact hmod.1
        · rw [Slice.address, hbuffer, hfirst]
          exact hmod.2
    have hadmits : ∀ s : Slice, s = src ∨ s = head → ∀ i ∈ s.groupStarts unit.lanes,
        s.admits unit.lanes (unit.asksAligned aligned) i := by
      intro s hs i hi
      refine admits_groupStart (haddress s hs ?_) hi
      have hend := (Slice.mem_groupStarts hi).2
      have hlanes := unit.lanes_pos
      omega
    obtain ⟨swept, hswept, hsweptPlace⟩ := foldlM_samePlace (sweepGroup? unit fused aligned src)
      (Plan.between unit.lanes head src).groups head head (Slice.SamePlace.refl head)
      (fun p hp d hd => sweepGroup?_samePlace unit fused aligned src d head p.1 p.2 hd
        (hadmits head (Or.inr rfl) _ (List.of_mem_zip hp).1)
        (hadmits src (Or.inl rfl) _ (List.of_mem_zip hp).2))
    obtain ⟨d, hd, hplace⟩ := foldlM_samePlace (roundOne? src)
      (Plan.between unit.lanes head src).tail swept head hsweptPlace
      (fun p hp d hd => roundOne?_samePlace src d head p.1 p.2 hd
        (Slice.mem_tailPositions (List.of_mem_zip hp).1).2
        (Slice.mem_tailPositions (List.of_mem_zip hp).2).2)
    refine ⟨d, ?_, by rw [hplace.offset, hbuffer], by rw [hplace.size, hbuffer]⟩
    simp [sweep?, htake, hswept, hd]

theorem sweep?_isSome (k : Kernel) (dst src : Slice)
    (h : checkBuffers dst src k.requiredAlignment = none) : (k.sweep? dst src).isSome := by
  obtain ⟨d, hd, -⟩ := sweep?_samePlace k dst src h
  rw [hd]
  rfl

end Kernel

/-- What a request leaves behind: why it failed, if it did, and the destination's buffer. -/
structure Outcome where
  failure : Option ExecutionError
  dst : Buffer

namespace Kernel

/-- The sines of the source slice at the head of the destination slice. -/
def execute (k : Kernel) (dst src : Slice) : Outcome :=
  match h : checkBuffers dst src k.requiredAlignment with
  | some error => { failure := some error, dst := dst.buffer }
  | none => { failure := none, dst := ((k.sweep? dst src).get (sweep?_isSome k dst src h)).buffer }

theorem execute_of_failure (k : Kernel) (dst src : Slice) (error : ExecutionError)
    (h : checkBuffers dst src k.requiredAlignment = some error) :
    k.execute dst src = { failure := some error, dst := dst.buffer } := by
  unfold execute
  split
  · next h' => rw [h] at h'; cases h'; rfl
  · next h' => rw [h] at h'; contradiction

theorem execute_of_sweep (k : Kernel) (dst src d : Slice)
    (h : checkBuffers dst src k.requiredAlignment = none) (hd : k.sweep? dst src = some d) :
    k.execute dst src = { failure := none, dst := d.buffer } := by
  unfold execute
  split
  · next h' => rw [h] at h'; contradiction
  · simp [hd]

end Kernel

end VectorSine
