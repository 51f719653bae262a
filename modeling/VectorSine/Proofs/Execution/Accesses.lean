import VectorSine.Proofs.Execution.Results

/-! # What a run accesses

`Kernel.sweepNoted?` is the run of a kernel of lanes with a note of every access that it makes: the
spans of the destination and of the source, and whether they were taken as a group. Its slice is
that of the plain run (`sweepNoted?_slice`).

`Access.Performs` says in terms of numbers what an access does: it stores what the unit computes
from the source's numbers in its span, or the rounded sine of the one number there, and changes
nothing else. `Performed` chains the accesses of a run from the first buffer to the last one, and
`sweepNoted?_performed` is that the notes of a run are what its steps did, one note for each.

`Tiling` says what the notes of a run over an accepted pair of slices are. Groups come off the front
of both slices, one after the other, and the positions that are left follow one by one; every access
is inside the slices, every group at the addresses it asks for, and no position is written twice.
-/

namespace VectorSine
set_option autoImplicit false

/-- Consecutive positions of a slice. -/
structure Span where
  first : Nat
  count : Nat
deriving DecidableEq

namespace Span

def positions (s : Span) : List Nat := List.range' s.first s.count

/-! ## Pieces from the front -/

/-- The pieces of `w` positions that come off the front, as long as so many are left. -/
def pieces (w : Nat) (s : Span) : List Span :=
  if 0 < w ∧ w ≤ s.count then
    { first := s.first, count := w } :: pieces w { first := s.first + w, count := s.count - w }
  else []
termination_by s.count

/-- The positions that are left when no further piece comes off. -/
def remainder (w : Nat) (s : Span) : Span :=
  if 0 < w ∧ w ≤ s.count then remainder w { first := s.first + w, count := s.count - w } else s
termination_by s.count

theorem pieces_eq (w : Nat) (hw : 0 < w) (s : Span) :
    s.pieces w =
      (List.range (s.count / w)).map fun k => { first := s.first + k * w, count := w } := by
  fun_induction pieces w s with
  | case1 s h ih =>
    have hdiv : s.count / w = (s.count - w) / w + 1 := by
      rw [← Nat.add_div_right _ hw, Nat.sub_add_cancel h.2]
    rw [ih, hdiv, List.range_succ_eq_map, List.map_cons, List.map_map, Nat.zero_mul, Nat.add_zero]
    congr 1
    apply List.map_congr_left
    intro k _
    simp only [Function.comp_apply, Span.mk.injEq, and_true, Nat.succ_mul]
    omega
  | case2 s h =>
    rw [Nat.div_eq_of_lt (by omega), List.range_zero, List.map_nil]

theorem remainder_eq (w : Nat) (hw : 0 < w) (s : Span) :
    s.remainder w = { first := s.first + s.count / w * w, count := s.count % w } := by
  fun_induction remainder w s with
  | case1 s h ih =>
    have hdiv : s.count / w = (s.count - w) / w + 1 := by
      rw [← Nat.add_div_right _ hw, Nat.sub_add_cancel h.2]
    rw [ih, hdiv, Nat.mod_eq_sub_mod h.2, Nat.succ_mul]
    simp only [Span.mk.injEq, and_true]
    omega
  | case2 s h =>
    rw [Nat.div_eq_of_lt (by omega), Nat.mod_eq_of_lt (by omega), Nat.zero_mul, Nat.add_zero]

end Span

namespace Slice

def span (s : Slice) : Span := { first := 0, count := s.count }

theorem span_pieces (s : Slice) (w : Nat) (hw : 0 < w) :
    s.span.pieces w = (s.groupStarts w).map fun i => { first := i, count := w } := by
  rw [Span.pieces_eq w hw]
  simp [span, groupStarts, Function.comp_def]

theorem span_remainder (s : Slice) (w : Nat) (hw : 0 < w) :
    (s.span.remainder w).positions = s.tailPositions w := by
  rw [Span.remainder_eq w hw]
  simp [span, Span.positions, tailPositions, List.range'_eq_map_range]

end Slice

/-! ## Noted runs -/

/-- One access: the positions that are written, those that are read, and whether they were taken as
a group of lanes. -/
structure Access where
  grouped : Bool
  dst : Span
  src : Span
deriving DecidableEq

namespace Access

def group (w : Nat) (place : Nat × Nat) : Access :=
  { grouped := true
    dst := { first := place.1, count := w }
    src := { first := place.2, count := w } }

def single (place : Nat × Nat) : Access :=
  { grouped := false
    dst := { first := place.1, count := 1 }
    src := { first := place.2, count := 1 } }

end Access

/-- A destination and the accesses that led to it, the earliest first. -/
structure Noted where
  slice : Slice
  accesses : List Access

/-- A step of a run, with a note of the access that it is called for. That it makes this access is
for `Performed` to say. -/
def note? {α : Type} (step : Slice → α → Option Slice) (access : α → Access) (run : Noted) (x : α) :
    Option Noted := do
  let d ← step run.slice x
  return { slice := d, accesses := run.accesses ++ [access x] }

theorem foldlM_note {α : Type} (step : Slice → α → Option Slice) (access : α → Access)
    (xs : List α) (run : Noted) :
    xs.foldlM (note? step access) run = (xs.foldlM step run.slice).map fun d =>
      { slice := d, accesses := run.accesses ++ xs.map access } := by
  induction xs generalizing run with
  | nil => simp
  | cons x xs ih =>
    rw [List.foldlM_cons, List.foldlM_cons, note?]
    cases step run.slice x with
    | none => rfl
    | some d =>
      change xs.foldlM (note? step access) _ = (xs.foldlM step d).map _
      rw [ih]
      simp

/-! ## Performed accesses -/

/-- What an access does to the buffer of the destination `dst`. The unit takes the numbers of the
source's span and what it computes is stored in the destination's span, lane by lane; a single
number becomes its rounded sine. No other number changes. -/
structure Access.Performs (unit : LaneUnit) (fused : Bool) (dst src : Slice) (a : Access)
    (before after : Buffer) : Prop where
  offset : after.offset = before.offset
  size : after.data.size = before.data.size
  group : a.grouped = true → a.dst.count = unit.lanes ∧ a.src.count = unit.lanes ∧
    ∃ r : Register unit.lanes, ∀ k (hk : k < unit.lanes),
      src.get? (a.src.first + k) = some r[k] ∧
      after.data[dst.first + (a.dst.first + k)]? = some (unit.compute fused r)[k]
  single : a.grouped = false → a.dst.count = 1 ∧ a.src.count = 1 ∧
    ∃ x, src.get? a.src.first = some x ∧
      after.data[dst.first + a.dst.first]? = some (roundedSine x)
  outside : ∀ j, (∀ i ∈ a.dst.positions, j ≠ dst.first + i) → after.data[j]? = before.data[j]?

/-- The accesses lead, one after the other, from the destination's buffer to another one. -/
inductive Performed (unit : LaneUnit) (fused : Bool) (dst src : Slice) :
    List Access → Buffer → Prop
  | start : Performed unit fused dst src [] dst.buffer
  | access {accesses : List Access} {a : Access} {before after : Buffer}
      (earlier : Performed unit fused dst src accesses before)
      (last : a.Performs unit fused dst src before after) :
      Performed unit fused dst src (accesses ++ [a]) after

namespace Slice

theorem write_getElem?_outside (s : Slice) (i j : Nat) (xs : List Binary32)
    (hj : ∀ p ∈ Span.positions { first := i, count := xs.length }, j ≠ s.first + p) :
    (s.write i xs).buffer.data[j]? = s.buffer.data[j]? := by
  apply writeFrom_getElem?_outside
  by_contra hcovered
  have hmem : j - s.first ∈ List.range' i xs.length := List.mem_range'_1.2 (by omega)
  exact hj (j - s.first) hmem (by omega)

end Slice

namespace Kernel

/-- The run of a kernel of lanes with a note of every access. -/
def sweepNoted? (unit : LaneUnit) (fused aligned : Bool) (dst src : Slice) : Option Noted := do
  let head ← dst.take? src.count
  let plan := Plan.between unit.lanes head src
  let swept ← plan.groups.foldlM (note? (sweepGroup? unit fused aligned src) (.group unit.lanes))
    { slice := head, accesses := [] }
  plan.tail.foldlM (note? (roundOne? src) .single) swept

variable {unit : LaneUnit} {fused aligned : Bool} {dst src : Slice}

/-! ### Single steps -/

theorem sweepGroup?_performs {d d' : Slice} {place : Nat × Nat} (hfirst : d.first = dst.first)
    (h : sweepGroup? unit fused aligned src d place = some d') :
    (Access.group unit.lanes place).Performs unit fused dst src d.buffer d'.buffer ∧
      d'.first = dst.first := by
  obtain ⟨r, hloaded, hcount, rfl⟩ := sweepGroup?_eq_some h
  have hlength : (unit.compute fused r).toList.length = unit.lanes := Vector.length_toList
  refine ⟨⟨rfl, Slice.write_size _ _ _, ?_, fun hsingle => Bool.noConfusion hsingle, ?_⟩, hfirst⟩
  · refine fun _ => ⟨rfl, rfl, r, fun k hk => ⟨hloaded k hk, ?_⟩⟩
    have hk' : k < (unit.compute fused r).toList.length := by rw [hlength]; exact hk
    rw [← hfirst]
    change (d.write place.1 _).buffer.data[d.first + (place.1 + k)]? = _
    rw [Slice.write_getElem?_inside d _ _ _ hk' (by rw [hlength]; exact hcount),
      List.getElem?_eq_getElem hk', Vector.getElem_toList]
  · intro j hj
    apply Slice.write_getElem?_outside
    rw [hlength, hfirst]
    exact hj

theorem roundOne?_performs {d d' : Slice} {place : Nat × Nat} (hfirst : d.first = dst.first)
    (h : roundOne? src d place = some d') :
    (Access.single place).Performs unit fused dst src d.buffer d'.buffer ∧
      d'.first = dst.first := by
  obtain ⟨x, hx, hcount, rfl⟩ := roundOne?_eq_some h
  refine ⟨⟨rfl, Slice.write_size _ _ _, fun hgroup => Bool.noConfusion hgroup, ?_, ?_⟩, hfirst⟩
  · refine fun _ => ⟨rfl, rfl, x, hx, ?_⟩
    rw [← hfirst]
    exact Slice.write_getElem?_inside d place.1 0 [roundedSine x] Nat.one_pos hcount
  · intro j hj
    apply Slice.write_getElem?_outside
    rw [hfirst]
    exact hj

/-! ### Whole runs -/

/-- Where every step performs its access, the notes of a fold stay performed. -/
theorem performed_foldlM {α : Type} {step : Slice → α → Option Slice} {access : α → Access}
    (xs : List α) (run run' : Noted) (hfold : xs.foldlM (note? step access) run = some run')
    (hstep : ∀ (d d' : Slice) (x : α), d.first = dst.first → step d x = some d' →
      (access x).Performs unit fused dst src d.buffer d'.buffer ∧ d'.first = dst.first)
    (hfirst : run.slice.first = dst.first)
    (hrun : Performed unit fused dst src run.accesses run.slice.buffer) :
    Performed unit fused dst src run'.accesses run'.slice.buffer ∧
      run'.slice.first = dst.first := by
  induction xs generalizing run with
  | nil =>
    cases hfold
    exact ⟨hrun, hfirst⟩
  | cons x xs ih =>
    rw [List.foldlM_cons] at hfold
    obtain ⟨next, hx, hxs⟩ := Option.bind_eq_some_iff.1 hfold
    obtain ⟨d, hd, hnext⟩ := Option.bind_eq_some_iff.1 hx
    cases hnext
    obtain ⟨hperforms, hfirst'⟩ := hstep _ _ x hfirst hd
    exact ih _ hxs hfirst' (hrun.access hperforms)

/-- The notes of a run lead from the destination's buffer to the one after the run. -/
theorem sweepNoted?_performed {run : Noted}
    (h : sweepNoted? unit fused aligned dst src = some run) :
    Performed unit fused dst src run.accesses run.slice.buffer := by
  obtain ⟨head, htake, hrun⟩ := Option.bind_eq_some_iff.1 h
  obtain ⟨swept, hgroups, htail⟩ := Option.bind_eq_some_iff.1 hrun
  obtain ⟨hbuffer, hfirst⟩ : head.buffer = dst.buffer ∧ head.first = dst.first := by
    unfold Slice.take? at htake
    split at htake
    · cases htake
      exact ⟨rfl, rfl⟩
    · contradiction
  have hstart : Performed unit fused dst src [] head.buffer := by
    rw [hbuffer]
    exact .start
  obtain ⟨hswept, hfirst'⟩ := performed_foldlM _ _ swept hgroups
    (fun _ _ _ => sweepGroup?_performs) hfirst hstart
  exact (performed_foldlM _ swept run htail (fun _ _ _ => roundOne?_performs) hfirst' hswept).1

/-- The accesses of a run, in terms of the plan. -/
def accesses (unit : LaneUnit) (head src : Slice) : List Access :=
  (Plan.between unit.lanes head src).groups.map (Access.group unit.lanes) ++
    (Plan.between unit.lanes head src).tail.map Access.single

theorem sweepNoted?_of_take (unit : LaneUnit) (fused aligned : Bool) {head : Slice}
    (h : dst.take? src.count = some head) :
    sweepNoted? unit fused aligned dst src =
      ((lanes unit fused aligned).sweep? dst src).map fun d =>
        { slice := d, accesses := accesses unit head src } := by
  simp only [sweepNoted?, sweep?, h, Option.bind_eq_bind, Option.bind_some, foldlM_note]
  cases (Plan.between unit.lanes head src).groups.foldlM
      (sweepGroup? unit fused aligned src) head with
  | none => rfl
  | some swept => simp [accesses]

theorem sweepNoted?_accesses {head : Slice} {run : Noted} (htake : dst.take? src.count = some head)
    (h : sweepNoted? unit fused aligned dst src = some run) :
    run.accesses = accesses unit head src := by
  rw [sweepNoted?_of_take _ _ _ htake, Option.map_eq_some_iff] at h
  obtain ⟨d, -, rfl⟩ := h
  rfl

/-- The notes do not disturb the run. -/
theorem sweepNoted?_slice (unit : LaneUnit) (fused aligned : Bool) (dst src : Slice) :
    (sweepNoted? unit fused aligned dst src).map Noted.slice =
      (lanes unit fused aligned).sweep? dst src := by
  cases h : dst.take? src.count with
  | none => simp [sweepNoted?, sweep?, h]
  | some head =>
    rw [sweepNoted?_of_take _ _ _ h, Option.map_map]
    exact Option.map_id'

end Kernel

/-! ## Tilings -/

/-- The accesses of a run of groups of `w` lanes: in which order, where, and that they write each
position of the source once. -/
structure Tiling (w : Nat) (aligned : Bool) (dst src : Slice) (accesses : List Access) : Prop where
  order : accesses = (src.span.pieces w).map (fun s => { grouped := true, dst := s, src := s }) ++
    (src.span.remainder w).positions.map fun i => .single (i, i)
  length : accesses.length = src.count / w + src.count % w
  calls : accesses.countP (·.grouped) = src.count / w
  groups : ∀ k, k < src.count / w → accesses[k]? = some (.group w (k * w, k * w))
  singles : ∀ k, k < src.count % w → accesses[src.count / w + k]? =
    some (.single (w * (src.count / w) + k, w * (src.count / w) + k))
  inside : ∀ a ∈ accesses, a.dst.first + a.dst.count ≤ dst.count ∧
    a.src.first + a.src.count ≤ src.count
  addresses : aligned = true → ∀ a ∈ accesses, a.grouped = true →
    dst.address a.dst.first % (w * bytesPerNumber) = 0 ∧
    src.address a.src.first % (w * bytesPerNumber) = 0
  once : (accesses.flatMap fun a => a.dst.positions) = List.range src.count

namespace Kernel

variable {unit : LaneUnit} {head dst src : Slice}

theorem accesses_eq (h : head.count = src.count) :
    accesses unit head src =
      (src.groupStarts unit.lanes).map (fun i => Access.group unit.lanes (i, i)) ++
        (src.tailPositions unit.lanes).map fun i => Access.single (i, i) := by
  rw [accesses, Plan.between_groups _ _ _ h, Plan.between_tail _ _ _ h, List.map_map, List.map_map]
  rfl

theorem mem_accesses (h : head.count = src.count) {a : Access}
    (ha : a ∈ accesses unit head src) :
    (∃ i ∈ src.groupStarts unit.lanes, a = .group unit.lanes (i, i)) ∨
      ∃ i ∈ src.tailPositions unit.lanes, a = .single (i, i) := by
  rw [accesses_eq h, List.mem_append, List.mem_map, List.mem_map] at ha
  rcases ha with ⟨i, hi, rfl⟩ | ⟨i, hi, rfl⟩
  · exact Or.inl ⟨i, hi, rfl⟩
  · exact Or.inr ⟨i, hi, rfl⟩

/-- Groups of `w` positions, one after the other, are all positions up to their end. -/
theorem flatMap_groups (w m : Nat) :
    ((List.range m).flatMap fun k => List.range' (k * w) w) = List.range (m * w) := by
  induction m with
  | zero => simp
  | succ m ih =>
    rw [List.range_succ, List.flatMap_append, ih, List.flatMap_singleton, Nat.succ_mul,
      List.range_eq_range', List.range_eq_range', ← List.range'_append_1, Nat.zero_add]

theorem accesses_once (h : head.count = src.count) :
    ((accesses unit head src).flatMap fun a => a.dst.positions) = List.range src.count := by
  have hgroups : ((src.groupStarts unit.lanes).map fun i => Access.group unit.lanes (i, i)).flatMap
      (fun a => a.dst.positions) = List.range (src.count / unit.lanes * unit.lanes) := by
    rw [← flatMap_groups, Slice.groupStarts, List.map_map, List.flatMap_map]
    rfl
  have htail : ((src.tailPositions unit.lanes).map fun i => Access.single (i, i)).flatMap
      (fun a => a.dst.positions) = src.tailPositions unit.lanes := by
    rw [List.flatMap_map]
    exact List.flatMap_singleton' _
  rw [accesses_eq h, List.flatMap_append, hgroups, htail]
  have hcount := Nat.div_add_mod' src.count unit.lanes
  conv_rhs => rw [← hcount]
  rw [Slice.tailPositions, ← List.range'_eq_map_range, List.range_eq_range', List.range_eq_range',
    ← List.range'_append_1, Nat.zero_add]

theorem accesses_tiling (aligned : Bool) (hhead : head.count = src.count)
    (hcount : src.count ≤ dst.count)
    (haddresses : aligned = true → 0 < src.count →
      dst.address 0 % (unit.lanes * bytesPerNumber) = 0 ∧
      src.address 0 % (unit.lanes * bytesPerNumber) = 0) :
    Tiling unit.lanes aligned dst src (accesses unit head src) where
  order := by
    rw [accesses_eq hhead, Slice.span_pieces _ _ unit.lanes_pos,
      Slice.span_remainder _ _ unit.lanes_pos, List.map_map]
    rfl
  length := by
    rw [accesses_eq hhead]
    simp [Slice.groupStarts, Slice.tailPositions]
  calls := by
    rw [accesses_eq hhead, List.countP_append, List.countP_map, List.countP_map]
    simp [Slice.groupStarts, Function.comp_def, Access.group, Access.single]
  groups := by
    intro k hk
    rw [accesses_eq hhead, List.getElem?_append_left (by simpa [Slice.groupStarts] using hk)]
    simp [Slice.groupStarts, hk]
  singles := by
    intro k hk
    rw [accesses_eq hhead, List.getElem?_append_right (by simp [Slice.groupStarts])]
    simp [Slice.groupStarts, Slice.tailPositions, hk, Nat.mul_comm]
  inside := by
    intro a ha
    rcases mem_accesses hhead ha with ⟨i, hi, rfl⟩ | ⟨i, hi, rfl⟩
    · have hend := (Slice.mem_groupStarts hi).2
      exact ⟨hend.trans hcount, hend⟩
    · have hend := (Slice.mem_tailPositions hi).2
      exact ⟨hend.trans_le hcount, hend⟩
  addresses := by
    intro haligned a ha hgrouped
    rcases mem_accesses hhead ha with ⟨i, hi, rfl⟩ | ⟨i, -, rfl⟩
    · obtain ⟨hmod, hend⟩ := Slice.mem_groupStarts hi
      have hpos : 0 < src.count := by have := unit.lanes_pos; omega
      -- whole registers lie between the start of a slice and the start of a group
      obtain ⟨hdst, hsrc⟩ := haddresses haligned hpos
      refine ⟨?_, ?_⟩
      · rw [Access.group, Slice.address_mod dst _ i hmod, hdst]
      · rw [Access.group, Slice.address_mod src _ i hmod, hsrc]
    · contradiction
  once := accesses_once hhead

end Kernel

theorem LaneUnit.requiredAlignment_true (unit : LaneUnit) :
    unit.requiredAlignment true = unit.lanes * bytesPerNumber := by cases unit <;> rfl

namespace Build

theorem kernel?_of_unit (b : Build) (v : Variant) (hsupports : b.supports v = true)
    (hisa : v.isa ≠ .generic) :
    ∃ unit, v.isa.unit? = some unit ∧ unit.lanes = v.lanes ∧
      b.kernel? v = some (.lanes unit v.fused (v.alignment == .aligned)) := by
  obtain ⟨k, hk⟩ := exists_kernel? hsupports
  rw [kernel?_of_supports hsupports] at hk ⊢
  rcases Variant.kernel?_eq_some hk with ⟨hgeneric, -⟩ | ⟨unit, -, hunit, hlanes, rfl⟩
  · exact absurd hgeneric hisa
  · exact ⟨unit, hunit, hlanes, hk⟩

/-- A run over slices that the check of its kernel lets through does not fault. Its accesses tile
the source, and performing them one after the other is what leads to its result, which holds what
the variant writes. -/
theorem accepted_run_tiles (b : Build) (v : Variant) (hsupports : b.supports v = true)
    (hisa : v.isa ≠ .generic) :
    ∃ unit, v.isa.unit? = some unit ∧ unit.lanes = v.lanes ∧
      b.kernel? v = some (.lanes unit v.fused (v.alignment == .aligned)) ∧
      ∀ dst src : Slice,
        checkBuffers dst src (unit.requiredAlignment (v.alignment == .aligned)) = none →
        ∃ run : Noted,
          Kernel.sweepNoted? unit v.fused (v.alignment == .aligned) dst src = some run ∧
          (Kernel.lanes unit v.fused (v.alignment == .aligned)).sweep? dst src = some run.slice ∧
          b.execute v dst src = { failure := none, dst := run.slice.buffer } ∧
          Tiling v.lanes (v.alignment == .aligned) dst src run.accesses ∧
          Performed unit v.fused dst src run.accesses run.slice.buffer ∧
          v.Writes dst src run.slice.buffer := by
  obtain ⟨unit, hunit, hlanes, hkernel⟩ := kernel?_of_unit b v hsupports hisa
  refine ⟨unit, hunit, hlanes, hkernel, ?_⟩
  intro dst src hcheck
  have hvariant : v.kernel? = _ := (kernel?_of_supports hsupports).symm.trans hkernel
  generalize (v.alignment == Alignment.aligned) = aligned at hkernel hvariant hcheck ⊢
  obtain ⟨d, hd, -⟩ := Kernel.sweep?_samePlace (.lanes unit v.fused aligned) dst src hcheck
  obtain ⟨hcount, hmod⟩ := (checkBuffers_eq_none_iff dst src _).1 hcheck
  obtain ⟨head, htake, hhead, -⟩ := Slice.take?_eq_some hcount
  obtain ⟨run, hrun, rfl⟩ := Option.map_eq_some_iff.1
    ((Kernel.sweepNoted?_slice unit v.fused aligned dst src).trans hd)
  refine ⟨run, hrun, hd, ?_, ?_, Kernel.sweepNoted?_performed hrun, ?_⟩
  · unfold execute
    rw [hkernel]
    exact Kernel.execute_of_sweep _ dst src run.slice hcheck hd
  · rw [← hlanes, Kernel.sweepNoted?_accesses htake hrun]
    apply Kernel.accesses_tiling aligned hhead hcount
    intro haligned hpos
    subst haligned
    rw [LaneUnit.requiredAlignment_true] at hmod
    rcases hmod with hempty | ⟨hsrc, hdst⟩
    · omega
    · exact ⟨hdst, hsrc⟩
  · exact Variant.writes_of_filled hvariant (Kernel.sweep?_filled _ dst src run.slice hcount hd)

/-- Two groups of eight lanes and three single numbers, inside longer buffers. The second group
takes other numbers than the first one, and a number in the tail has another sine than in a
group. -/
theorem accepted_run_tiles_nineteen :
    ∃ (dst src : Slice) (run : Noted),
      dst = { buffer := { offset := 3, data := Array.replicate 40 Binary32.zero }
              first := 5, count := 24, inside := by decide } ∧
      src = { buffer :=
                { offset := 0
                  data := Array.replicate 16 Binary32.one ++ Array.replicate 8 Binary32.two ++
                    Array.replicate 6 Binary32.one }
              first := 8, count := 19, inside := by decide } ∧
      checkBuffers dst src (LaneUnit.avx2.requiredAlignment true) = none ∧
      Kernel.sweepNoted? .avx2 true true dst src = some run ∧
      run.accesses.length = 5 ∧ run.accesses[1]? = some (.group 8 (8, 8)) ∧
      run.accesses[2]? = some (.single (16, 16)) ∧
      Performed .avx2 true dst src run.accesses run.slice.buffer ∧
      run.slice.buffer.data[5 + 7]? = some ⟨0x3F576AA5⟩ ∧
      run.slice.buffer.data[5 + 8]? = some ⟨0x3F68C7B7⟩ ∧
      run.slice.buffer.data[5 + 16]? = some ⟨0x3F576AA4⟩ ∧
      run.slice.buffer.data[5 + 19]? = some Binary32.zero := by
  obtain ⟨unit, hunit, -, -, hruns⟩ := accepted_run_tiles .all
    { isa := .avx2, fused := true, alignment := .aligned } (by decide) (by decide)
  cases hunit
  have hcheck : checkBuffers
      { buffer := { offset := 3, data := Array.replicate 40 Binary32.zero }
        first := 5, count := 24, inside := by decide }
      { buffer :=
          { offset := 0
            data := Array.replicate 16 Binary32.one ++ Array.replicate 8 Binary32.two ++
              Array.replicate 6 Binary32.one }
        first := 8, count := 19, inside := by decide }
      (LaneUnit.avx2.requiredAlignment true) = none := by decide
  obtain ⟨run, hrun, -, -, htiling, hperformed, hwrites⟩ := hruns _ _ hcheck
  obtain ⟨unit, hunit, -, hgroup⟩ := hwrites.group (by decide)
  cases hunit
  have hone : (LaneUnit.avx2.compute true (Vector.replicate 8 Binary32.one)).get ⟨0, by decide⟩ =
      ⟨0x3F576AA5⟩ := by decide +kernel
  have htwo : (LaneUnit.avx2.compute true (Vector.replicate 8 Binary32.two)).get ⟨0, by decide⟩ =
      ⟨0x3F68C7B7⟩ := by decide +kernel
  have hrounded : roundedSine Binary32.one = ⟨0x3F576AA4⟩ := by decide +kernel
  refine ⟨_, _, run, rfl, rfl, hcheck, hrun, htiling.length, htiling.groups 1 (by decide),
    htiling.singles 0 (by decide), hperformed, ?_, ?_, ?_, ?_⟩
  · rw [← hone]
    exact hgroup 7 (by decide) (by decide) (Vector.replicate 8 Binary32.one) 0 (by decide) rfl
  · rw [← htwo]
    exact hgroup 8 (by decide) (by decide) (Vector.replicate 8 Binary32.two) 0 (by decide) rfl
  · rw [← hrounded]
    exact hwrites.tail (by decide) 16 (by decide) (by decide)
  · rw [hwrites.outside (5 + 19) (by decide)]
    rfl

end Build

end VectorSine
