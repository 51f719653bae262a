import VectorSine.Variant.Basic

/-! # Log events

An engine logs each kernel that it makes, and each that it cannot make.
-/

namespace VectorSine
set_option autoImplicit false

/-- What an engine reports about a request for a kernel. -/
inductive Event where
  | selected (variant : Variant)
  | rejected (variant : Variant)
deriving DecidableEq

namespace Event

def variant : Event → Variant
  | selected v => v
  | rejected v => v

def level : Event → String
  | selected _ => "DEBUG"
  | rejected _ => "WARN"

def message : Event → String
  | selected _ => "sine kernel selected"
  | rejected _ => "sine kernel is not supported on this build or CPU"

def lanes? : Event → Option Nat
  | selected v => some v.lanes
  | rejected _ => none

end Event

end VectorSine
