import VectorSine.Variant.Basic

/-! # What can be wrong with a request

A request for sines fails for one of three causes, and `ExecutionError.message` is the text that
reports it.
-/

namespace VectorSine
set_option autoImplicit false

/-- Why no sines were computed. -/
inductive ExecutionError where
  /-- The destination holds fewer numbers than the source. -/
  | shortDestination
  /-- An address is not a multiple of the bytes that the kernel requires. -/
  | misaligned (required : Nat)
  /-- No kernel of this variant is contained or can run. -/
  | unsupported (variant : Variant)
deriving DecidableEq

namespace ExecutionError

def message : ExecutionError → String
  | shortDestination => "Destination must be at least as long as the source"
  | misaligned required => "Buffers must be aligned to " ++ toString required ++ " bytes"
  | unsupported variant =>
    "Variant " ++ variant.name ++ " is not supported on this build or CPU"

end ExecutionError

end VectorSine
