import VectorSine.Execution.Error
import VectorSine.Execution.Plan
import VectorSine.Packed.Sine
import VectorSine.Pipeline.Quadrant
import VectorSine.Sine.Rounded

/-! # Kernels

A kernel computes the sines of a source slice into a destination slice. The generic kernel rounds
each sine by itself. The others take full groups of lanes through the pipeline, with vector loads
and stores, and finish the tail like the generic one.

Before any number is written, `checkBuffers` refuses slices that do not fit together. What it lets
through never faults: `Kernel.sweep?_isSome` says that every access of the run is then in range and
at an address that it admits, and `Kernel.execute` rests on that.
-/

namespace VectorSine
set_option autoImplicit false

/-- What computes a group of lanes. -/
inductive LaneUnit where
  | scalar
  | sse41
  | avx2
deriving DecidableEq

namespace LaneUnit

def lanes : LaneUnit → Nat
  | scalar => 1
  | sse41 => 4
  | avx2 => 8

theorem lanes_pos (u : LaneUnit) : 0 < u.lanes := by cases u <;> decide

def compute (u : LaneUnit) (fused : Bool) (r : Register u.lanes) : Register u.lanes :=
  match u with
  | scalar => r.map (laneSine fused)
  | sse41 => Packed.sine fused r
  | avx2 => Packed.sine fused r

/-- Whether the loads and stores of a group ask for aligned addresses. Single numbers always have
them. -/
def asksAligned (u : LaneUnit) (aligned : Bool) : Bool :=
  match u with
  | scalar => false
  | sse41 => aligned
  | avx2 => aligned

/-- The bytes of which both addresses must be multiples. -/
def requiredAlignment (u : LaneUnit) (aligned : Bool) : Nat :=
  if u.asksAligned aligned then u.lanes * bytesPerNumber else bytesPerNumber

end LaneUnit

inductive Kernel where
  | generic
  | lanes (unit : LaneUnit) (fused aligned : Bool)
deriving DecidableEq

/-! ## Requirements -/

/-- What is wrong with a pair of slices for a kernel that requires an alignment: first the length
of the destination, then the addresses, which do not matter to an empty source. -/
def checkBuffers (dst src : Slice) (alignment : Nat) : Option ExecutionError :=
  if dst.count < src.count then some .shortDestination
  else if src.count = 0 then none
  else if src.address 0 % alignment ≠ 0 ∨ dst.address 0 % alignment ≠ 0 then
    some (.misaligned alignment)
  else none

namespace Kernel

def requiredAlignment : Kernel → Nat
  | generic => bytesPerNumber
  | lanes unit _ aligned => unit.requiredAlignment aligned

/-! ## Runs -/

/-- The rounded sine of one source number, at its destination. -/
def roundOne? (src : Slice) (d : Slice) (place : Nat × Nat) : Option Slice := do
  let x ← src.get? place.2
  d.set? place.1 (roundedSine x)

/-- The sines of one group of source numbers, at their destination. -/
def sweepGroup? (unit : LaneUnit) (fused aligned : Bool) (src : Slice) (d : Slice)
    (place : Nat × Nat) : Option Slice := do
  let r ← src.load? unit.lanes (unit.asksAligned aligned) place.2
  d.store? (unit.asksAligned aligned) place.1 (unit.compute fused r)

/-- What a step for one number does: it reads that number and writes its sine. -/
theorem roundOne?_eq_some {src d d' : Slice} {place : Nat × Nat}
    (h : roundOne? src d place = some d') :
    ∃ x, src.get? place.2 = some x ∧ place.1 < d.count ∧
      d' = d.write place.1 [roundedSine x] := by
  obtain ⟨x, hx, hset⟩ := Option.bind_eq_some_iff.1 h
  exact ⟨x, hx, Slice.set?_eq_some hset⟩

/-- What a step for a group does: it reads the numbers of the group and writes what the unit
computes from them. -/
theorem sweepGroup?_eq_some {unit : LaneUnit} {fused aligned : Bool} {src d d' : Slice}
    {place : Nat × Nat} (h : sweepGroup? unit fused aligned src d place = some d') :
    ∃ r : Register unit.lanes, (∀ k (hk : k < unit.lanes), src.get? (place.2 + k) = some r[k]) ∧
      place.1 + unit.lanes ≤ d.count ∧ d' = d.write place.1 (unit.compute fused r).toList := by
  obtain ⟨r, hload, hstore⟩ := Option.bind_eq_some_iff.1 h
  exact ⟨r, Slice.get?_of_load? hload, Slice.store?_eq_some hstore⟩

/-- The destination after a run, unless an access faults. -/
def sweep? (k : Kernel) (dst src : Slice) : Option Slice := do
  match k with
  | generic => ((List.range dst.count).zip (List.range src.count)).foldlM (roundOne? src) dst
  | lanes unit fused aligned =>
    let head ← dst.take? src.count
    let plan := Plan.between unit.lanes head src
    let swept ← plan.groups.foldlM (sweepGroup? unit fused aligned src) head
    plan.tail.foldlM (roundOne? src) swept

end Kernel

end VectorSine
