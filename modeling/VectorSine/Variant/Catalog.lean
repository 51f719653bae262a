import VectorSine.Variant.Build

/-! # The catalogue of variants

`Variant.all` lists every variant in its fixed order, `Build.available` those that a build
supports, and `Build.best` is the one that a build prefers: the widest vector kernel, fused if
possible, and the generic variant where there is none.

* `supports_best`: the preferred variant is always supported.
-/

namespace VectorSine
set_option autoImplicit false

namespace Variant

/-- The four variants of one instruction set. -/
def ofSet (isa : InstructionSet) : List Variant :=
  [false, true].flatMap fun fused =>
    [Alignment.aligned, Alignment.unaligned].map fun alignment =>
      { isa := isa, fused := fused, alignment := alignment }

def all : List Variant :=
  generic :: [InstructionSet.scalar, .sse41, .neon, .avx2].flatMap ofSet

/-- The vector variants of one alignment, the preferred ones first. -/
def preferred (alignment : Alignment) : List Variant :=
  [InstructionSet.avx2, .neon, .sse41].flatMap fun isa =>
    [true, false].map fun fused =>
      { isa := isa, fused := fused, alignment := alignment }

end Variant

namespace Build

def available (b : Build) : List Variant := Variant.all.filter b.supports

def best (b : Build) (alignment : Alignment) : Variant :=
  ((Variant.preferred alignment).find? b.supports).getD Variant.generic

theorem supports_best (b : Build) (alignment : Alignment) :
    b.supports (b.best alignment) = true := by
  unfold best
  cases h : (Variant.preferred alignment).find? b.supports with
  | none => exact supports_generic b
  | some v => exact List.find?_some h

/-- Without fused arithmetic the separate variant of the widest set is preferred. -/
example :
    Build.best { sse := true, avx := true, processor := { Processor.full with fma := false } }
      .unaligned = { isa := .avx2, fused := false, alignment := .unaligned } := by
  decide

theorem best_unaligned (b : Build) : (b.best .unaligned).alignment = .unaligned := by
  unfold best
  cases h : (Variant.preferred .unaligned).find? b.supports with
  | none => rfl
  | some v =>
    have hall : ∀ w ∈ Variant.preferred .unaligned, w.alignment = .unaligned := by decide
    exact hall v (List.mem_of_find?_eq_some h)

end Build

end VectorSine
