import VectorSine.Binary32.Basic
import VectorSine.NearestQuotient

/-! # Decimal text

A nonnegative rational number `n / d` is written in one of two ways, rounded to the nearest decimal
and to the even one of two:

* `fixed`: with a given count of places after the point;
* `scientific`: with one digit before the point, a given count after it, and the power of ten, which
  has neither a plus sign nor leading zeros. Zero has the power zero.
-/

namespace VectorSine
set_option autoImplicit false
open scoped CorePower

namespace Decimal

/-- The digits of a number, with zeros before them up to a width. -/
def padded (width n : Nat) : String :=
  let digits := Nat.toDigits 10 n
  String.ofList (List.replicate (width - digits.length) '0' ++ digits)

/-- A number with its last digits, as many as there are places, behind the point. -/
def withPlaces (places n : Nat) : String :=
  padded 1 (n / 10 ^ places) ++ "." ++ padded places (n % 10 ^ places)

/-- The quotient `n / d` with a given count of places. -/
def fixed (places n d : Nat) : String := withPlaces places (nearestQuotient (n * 10 ^ places) d)

/-- The least `k`, of the first `fuel` ones, for which `n * 10ᵏ` reaches `d`. -/
def firstPlace : Nat → Nat → Nat → Nat
  | 0, _, _ => 0
  | fuel + 1, n, d => if d ≤ n then 0 else firstPlace fuel (10 * n) d + 1

/-- The power of ten of the leading digit of `n / d`. -/
def leadingPower (n d : Nat) : Int :=
  if d ≤ n then ((Nat.toDigits 10 (n / d)).length - 1 : Nat)
  else -(firstPlace (d.log2 + 1) n d : Int)

/-- The quotient `n / d` divided by a power of ten, rounded to a given count of places and counted
in units of the last one. -/
def mantissa (places n d : Nat) (power : Int) : Nat :=
  nearestQuotient (n * 10 ^ (places - power).toNat) (d * 10 ^ (power - places).toNat)

/-- The power of ten and the mantissa of `n / d`; one that is rounded up to ten becomes one. -/
def normalized (places n d : Nat) : Int × Nat :=
  if n = 0 then (0, 0)
  else
    let power := leadingPower n d
    let m := mantissa places n d power
    if m = 10 ^ (places + 1) then (power + 1, 10 ^ places) else (power, m)

def integer (z : Int) : String := (if z < 0 then "-" else "") ++ padded 1 z.natAbs

/-- The quotient `n / d` in scientific form. -/
def scientific (places n d : Nat) : String :=
  let (power, m) := normalized places n d
  withPlaces places m ++ "e" ++ integer power

/-- The text of a datum with `perOne` steps in one, given that of its absolute value. -/
def ofDatum (absolute : Nat → Nat → String) (perOne : Nat) : Datum → String
  | .nan => "NaN"
  | .infinite negative => if negative then "-inf" else "inf"
  | .finite negative steps => (if negative then "-" else "") ++ absolute steps perOne

end Decimal

end VectorSine
