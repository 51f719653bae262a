import VectorSine.Binary32.Rounding
import VectorSine.Sine.FixedPoint

/-! # The rounded sine

`roundedSine x` is the binary32 number nearest to the sine of `x`, at any magnitude of `x`. A zero
keeps its sign, and neither a NaN nor an infinity has a sine.

It stands for the sine function of the platform, which the generic kernel and the tails use, and
takes that function to be correctly rounded. Mathematical libraries make no such promise: theirs may
be off by a last digit for some numbers. What is said of these values beyond their place in a buffer
is said under that reading.
-/

namespace VectorSine
set_option autoImplicit false
open scoped CorePower

namespace Datum

/-- The grains in one quantum. -/
def grainsPerQuantum : Nat := 2 ^ (171 : Nat)

def sine : Datum → Datum
  | nan => nan
  | infinite _ => nan
  | finite negative steps =>
    let turned := FixedPoint.sine (steps * grainsPerQuantum)
    finite (negative ^^ turned.1) turned.2

end Datum

/-- The sine of a number, rounded once. -/
def roundedSine (x : Binary32) : Binary32 := x.datum.sine.round Datum.grainsPerQuantum

theorem roundedSine_nan (x : Binary32) (h : x.isNaN = true) : roundedSine x = Binary32.nan := by
  rw [roundedSine, (Binary32.datum_eq_nan_iff x).2 h]
  rfl

end VectorSine
