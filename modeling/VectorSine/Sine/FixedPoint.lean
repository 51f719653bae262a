import VectorSine.NearestQuotient
import VectorSine.Power

/-! # Sine in fixed point

Angles and sines are natural numbers of *grains*, `2⁻³²⁰`, which is fine enough for every binary32
angle to be reduced by its nearest multiple of `π` with more than a hundred digits to spare.

* `reduce` subtracts that multiple; the sine changes its sign with every odd one.
* `sinc` is the alternating series of `sin x / x` in nested form,
  `1 - x²/(2·3) (1 - x²/(4·5) (1 - …))`, cut after a fixed count of factors.
-/

namespace VectorSine
set_option autoImplicit false
open scoped CorePower

namespace FixedPoint

/-- The grains in the number one. -/
def grainsPerOne : Nat := 2 ^ (320 : Nat)

/-- The grains in `π`, rounded down. -/
def piGrains : Nat :=
  0x3243F6A8885A308D313198A2E03707344A4093822299F31D0082EFA98EC4E6C89452821E638D01377

/-- What is left of an angle after its nearest multiple of `π`. -/
structure Residue where
  /-- Whether the angle lies below that multiple. -/
  below : Bool
  /-- The distance from the multiple, in grains. -/
  distance : Nat
  /-- Whether the multiple is an odd one. -/
  odd : Bool

def reduce (x : Nat) : Residue :=
  let multiple := nearestQuotient x piGrains * piGrains
  { below := decide (x < multiple)
    distance := if x < multiple then multiple - x else x - multiple
    odd := nearestQuotient x piGrains % 2 == 1 }

/-- The factors `1 - z/(2j(2j+1)) (…)` of the series from number `j` on, for a square of `z`
grains. -/
def nested (z : Nat) : Nat → Nat → Nat
  | 0, _ => grainsPerOne
  | factors + 1, j =>
    grainsPerOne - z * nested z factors (j + 1) / (grainsPerOne * (2 * j * (2 * j + 1)))

def factorCount : Nat := 32

/-- The quotient `sin x / x` for an angle of `x` grains, in grains. -/
def sinc (x : Nat) : Nat := nested (x * x / grainsPerOne) factorCount 1

/-- The sine of a nonnegative angle of `x` grains: whether it is negative, and its grains. -/
def sine (x : Nat) : Bool × Nat :=
  let residue := reduce x
  (residue.below ^^ residue.odd, residue.distance * sinc residue.distance / grainsPerOne)

end FixedPoint

end VectorSine
