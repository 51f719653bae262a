import VectorSine.Execution.Execute
import VectorSine.Variant.Catalog

/-! # From variants to kernels

Each variant but the NEON ones has a kernel, and a build hands out those of the variants that it
supports. `Build.execute` is a request in one piece: the kernel of a variant on two slices.

* `kernel?_eq_some`: a kernel is the generic one or takes lanes.
* `kernel?_isSome_iff`: a build has a kernel exactly for the variants that it supports.
-/

namespace VectorSine
set_option autoImplicit false

namespace InstructionSet

/-- What computes the groups of lanes of an instruction set. -/
def unit? : InstructionSet → Option LaneUnit
  | generic => none
  | scalar => some .scalar
  | sse41 => some .sse41
  | neon => none
  | avx2 => some .avx2

end InstructionSet

namespace Variant

/-- The kernel of a variant, where there is one. -/
def kernel? (v : Variant) : Option Kernel :=
  match v.isa with
  | .generic => some .generic
  | .scalar => some (.lanes .scalar v.fused (v.alignment == .aligned))
  | .sse41 => some (.lanes .sse41 v.fused (v.alignment == .aligned))
  | .neon => none
  | .avx2 => some (.lanes .avx2 v.fused (v.alignment == .aligned))

/-- A kernel is the generic one, or it takes the lanes of its instruction set's unit. -/
theorem kernel?_eq_some {v : Variant} {k : Kernel} (h : v.kernel? = some k) :
    (v.isa = .generic ∧ k = .generic) ∨
      ∃ unit, v.isa ≠ .generic ∧ v.isa.unit? = some unit ∧ unit.lanes = v.lanes ∧
        k = .lanes unit v.fused (v.alignment == .aligned) := by
  obtain ⟨isa, fused, alignment⟩ := v
  cases isa with
  | generic =>
    cases h
    exact Or.inl ⟨rfl, rfl⟩
  | scalar =>
    cases h
    exact Or.inr ⟨.scalar, InstructionSet.noConfusion, rfl, rfl, rfl⟩
  | sse41 =>
    cases h
    exact Or.inr ⟨.sse41, InstructionSet.noConfusion, rfl, rfl, rfl⟩
  | neon => cases h
  | avx2 =>
    cases h
    exact Or.inr ⟨.avx2, InstructionSet.noConfusion, rfl, rfl, rfl⟩

end Variant

namespace Build

def kernel? (b : Build) (v : Variant) : Option Kernel :=
  if b.supports v then v.kernel? else none

theorem kernel?_isSome_iff (b : Build) (v : Variant) :
    (b.kernel? v).isSome ↔ b.supports v = true := by
  unfold kernel?
  split
  · next h =>
    obtain ⟨isa, fused, alignment⟩ := v
    cases isa
    case neon => exact Bool.noConfusion h
    all_goals simp [h, Variant.kernel?]
  · next h => simp [h]

theorem kernel?_of_supports {b : Build} {v : Variant} (h : b.supports v = true) :
    b.kernel? v = v.kernel? := by
  unfold kernel?
  rw [if_pos h]

theorem kernel?_of_not_supports {b : Build} {v : Variant} (h : b.supports v = false) :
    b.kernel? v = none := by
  unfold kernel?
  rw [if_neg (by rw [h]; exact Bool.false_ne_true)]

theorem exists_kernel? {b : Build} {v : Variant} (h : b.supports v = true) :
    ∃ k, b.kernel? v = some k := Option.isSome_iff_exists.1 ((kernel?_isSome_iff b v).2 h)

theorem exists_kernel?_best (b : Build) (alignment : Alignment) :
    ∃ k, b.kernel? (b.best alignment) = some k := exists_kernel? (b.supports_best alignment)

/-- The sines of the source slice at the head of the destination slice, by the kernel of a
variant. -/
def execute (b : Build) (v : Variant) (dst src : Slice) : Outcome :=
  match b.kernel? v with
  | some k => k.execute dst src
  | none => { failure := some (.unsupported v), dst := dst.buffer }

end Build

end VectorSine
