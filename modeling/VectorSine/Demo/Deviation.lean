import VectorSine.Binary32.Arithmetic
import VectorSine.Sine.Rounded

/-! # Deviation from the sine

How far a binary32 number lies from the sine of another, as double precision arithmetic measures
it: the sine and the difference are each rounded to 53 binary digits. All of it happens on the grid
of grains.
-/

namespace VectorSine
set_option autoImplicit false
open scoped CorePower

namespace Datum

def absolute : Datum → Datum
  | nan => nan
  | infinite _ => infinite false
  | finite _ steps => finite false steps

/-- The number rounded to its leading binary digits, to the even one of two. -/
def leading (digits : Nat) : Datum → Datum
  | finite negative steps =>
    let dropped := steps.log2 + 1 - digits
    finite negative (nearestQuotient steps (2 ^ dropped) * 2 ^ dropped)
  | special => special

end Datum

def doubleDigits : Nat := 53

/-- The distance of `y` from the sine of `x`, in grains. -/
def deviation (x y : Binary32) : Datum :=
  let sine := x.datum.sine.leading doubleDigits
  let exact := y.datum.refine Datum.grainsPerQuantum
  ((exact.plus sine.opposite).leading doubleDigits).absolute

end VectorSine
