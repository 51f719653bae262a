/-! # Natural powers

A power with a natural exponent can be read with more than one instance, and which of them a module
finds depends on the algebra that it imports. `open scoped CorePower` settles on the one of the core
library, so a definition has the same powers wherever it is used.
-/

namespace VectorSine
set_option autoImplicit false

namespace CorePower

/-- Scoped, because globally it would decide what a power is in every module that imports this. -/
scoped instance (priority := 1100) corePow {α : Type} [NatPow α] : Pow α Nat := instPowNat

end CorePower

end VectorSine
