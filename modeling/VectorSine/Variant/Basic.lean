/-! # Kernel variants

A variant names one way to compute the sine of a buffer: the instruction set its kernel is written
for, whether products and sums are fused, and whether it loads and stores at vector addresses only.
The generic variant uses no polynomial and has neither choice; `normalize` gives it the plain ones.

Variants are ordered by instruction set, then separate before fused, then aligned before unaligned.
-/

namespace VectorSine
set_option autoImplicit false

/-- What a kernel is written for, from the narrowest to the widest. -/
inductive InstructionSet where
  | generic
  | scalar
  | sse41
  | neon
  | avx2
deriving DecidableEq, Ord

/-- Which addresses the loads and stores of a kernel admit. -/
inductive Alignment where
  | aligned
  | unaligned
deriving DecidableEq, Ord

/-- Any address, unless asked otherwise. -/
instance : Inhabited Alignment := ⟨.unaligned⟩

/-- One configuration of a sine kernel. -/
structure Variant where
  isa : InstructionSet
  fused : Bool
  alignment : Alignment
deriving DecidableEq, Ord

namespace InstructionSet

/-- The numbers that one step of a kernel takes. -/
def lanes : InstructionSet → Nat
  | generic => 1
  | scalar => 1
  | sse41 => 4
  | neon => 4
  | avx2 => 8

def name : InstructionSet → String
  | generic => "generic"
  | scalar => "scalar"
  | sse41 => "sse4_1"
  | neon => "neon"
  | avx2 => "avx2"

end InstructionSet

namespace Alignment

def letter : Alignment → String
  | aligned => "a_"
  | unaligned => "u_"

end Alignment

/-- The bytes of one number in memory. -/
def bytesPerNumber : Nat := 4

namespace Variant

def generic : Variant := { isa := .generic, fused := false, alignment := .unaligned }

/-- The variant itself, or the plain generic one for every generic one. -/
def normalize (v : Variant) : Variant := if v.isa = .generic then generic else v

def lanes (v : Variant) : Nat := v.isa.lanes

/-- The bytes of which both buffer addresses must be multiples. -/
def requiredAlignment (v : Variant) : Nat :=
  match v.isa, v.alignment with
  | .generic, _ => bytesPerNumber
  | _, .unaligned => bytesPerNumber
  | isa, .aligned => isa.lanes * bytesPerNumber

/-- The text that names a variant, one for all generic ones. -/
def name (v : Variant) : String :=
  if v.isa = .generic then v.isa.name
  else v.alignment.letter ++ v.isa.name ++ if v.fused then "_fma" else ""

def sort (vs : List Variant) : List Variant := vs.mergeSort fun a b => (compare a b).isLE

def distinctCount (vs : List Variant) : Nat := vs.eraseDups.length

theorem normalize_idem (v : Variant) : v.normalize.normalize = v.normalize := by
  unfold normalize
  by_cases h : v.isa = .generic
  · rw [if_pos h]; rfl
  · rw [if_neg h, if_neg h]

theorem name_normalize (v : Variant) : v.normalize.name = v.name := by
  unfold normalize
  by_cases h : v.isa = .generic
  · simp [name, h, generic]
  · rw [if_neg h]

end Variant

end VectorSine
