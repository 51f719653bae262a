import VectorSine.Variant.Basic

/-! # Builds

A build contains the kernels of some vector instruction sets and runs on an x86-64 processor. Which
instructions that processor has is found out when it runs: a vector kernel needs those of its set,
and those for fused arithmetic if it is a fused one. The kernels for NEON run on no such processor,
the generic and the scalar ones on every processor.
-/

namespace VectorSine
set_option autoImplicit false

/-- The instructions that a processor is found to have. -/
structure Processor where
  sse41 : Bool
  avx2 : Bool
  fma : Bool
deriving DecidableEq

namespace Processor

def full : Processor := { sse41 := true, avx2 := true, fma := true }

/-- Whether products and sums can be computed in the way of a kernel. -/
def multiplies (p : Processor) (fused : Bool) : Bool := !fused || p.fma

end Processor

/-- Which vector kernels are contained, and what they run on. -/
structure Build where
  sse : Bool
  avx : Bool
  processor : Processor
deriving DecidableEq

namespace Build

/-! ## Builds on a processor with all instructions -/

def all : Build := { sse := true, avx := true, processor := .full }

def sseOnly : Build := { sse := true, avx := false, processor := .full }

def avxOnly : Build := { sse := false, avx := true, processor := .full }

def vectorless : Build := { sse := false, avx := false, processor := .full }

/-! ## Support -/

/-- Whether the kernel of a variant is contained and can run. -/
def supports (b : Build) (v : Variant) : Bool :=
  match v.isa with
  | .generic => true
  | .scalar => true
  | .sse41 => b.sse && (b.processor.sse41 && b.processor.multiplies v.fused)
  | .neon => false
  | .avx2 => b.avx && (b.processor.avx2 && b.processor.multiplies v.fused)

@[simp] theorem supports_generic (b : Build) : b.supports Variant.generic = true := rfl

end Build

end VectorSine
