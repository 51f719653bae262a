import VectorSine.Binary32.Arithmetic

/-! # Binary32 numbers and 32 bit integers

Integers are 32 bit words in two's complement. A number becomes an integer in one of two ways:

* `truncateToInt32` drops the fraction, stops at the ends of the range and takes a NaN to zero;
* `nearestInt32` takes the nearest integer, an even one of two, and answers everything that has
  none in the range with the *indefinite* integer, the smallest.

They agree on integral numbers in the range, which is where they are used: after `floor`.
-/

namespace VectorSine
set_option autoImplicit false
open scoped CorePower

namespace Binary32

/-- The greatest integral number that is not above `x`. -/
def floor (x : Binary32) : Binary32 :=
  match x.datum with
  | .nan => nan
  | .infinite negative => infinity negative
  | .finite negative steps =>
    let units := if negative then (steps + (quantaPerOne - 1)) / quantaPerOne
      else steps / quantaPerOne
    ofQuanta negative (units * quantaPerOne) 1

/-! ## To integers -/

def minInt32 : Int := -2 ^ (31 : Nat)

def maxInt32 : Int := 2 ^ (31 : Nat) - 1

/-- The integer of a number without its fraction, or the nearest end of the range. -/
def truncateToInt32 (x : Binary32) : BitVec 32 :=
  match x.datum with
  | .nan => 0
  | .infinite negative => BitVec.ofInt 32 (if negative then minInt32 else maxInt32)
  | .finite negative steps =>
    BitVec.ofInt 32 (max minInt32 (min maxInt32 (Datum.signed negative (steps / quantaPerOne))))

/-- The answer to a number that has no integer of 32 bits near it. -/
def indefiniteInt32 : BitVec 32 := BitVec.ofInt 32 minInt32

/-- The integer nearest to a number, or the indefinite one. -/
def nearestInt32 (x : Binary32) : BitVec 32 :=
  match x.datum with
  | .nan => indefiniteInt32
  | .infinite _ => indefiniteInt32
  | .finite negative steps =>
    let nearest := Datum.signed negative (nearestQuotient steps quantaPerOne)
    if minInt32 ≤ nearest ∧ nearest ≤ maxInt32 then BitVec.ofInt 32 nearest else indefiniteInt32

/-! ## From integers -/

def ofInt32 (n : BitVec 32) : Binary32 :=
  ofQuanta (decide (n.toInt < 0)) (n.toInt.natAbs * quantaPerOne) 1

end Binary32

end VectorSine
