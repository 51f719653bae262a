import VectorSine.Binary32.Conversion
import VectorSine.Binary32.MultiplyAdd
import VectorSine.Pipeline.Coefficients

/-! # Reduction to an octant

The absolute value of an angle is a number of octants, quarters of `π`, and a rest. `reduce`
subtracts the even number of octants next to it, so that what is left lies around
`[-π/4, π/4]`, and returns it together with the count of whole octants, which says where on the
circle the angle was.

The absolute value is taken by subtracting twice the number where it is negative.
-/

namespace VectorSine
set_option autoImplicit false

/-- What is left of an angle, and the whole octants in its absolute value. -/
structure Reduced where
  angle : Binary32
  octant : BitVec 32
deriving DecidableEq

namespace Octant

/-- All ones where a condition holds, zero elsewhere. -/
def maskOf (condition : Bool) : BitVec 32 := -(BitVec.ofBool condition).setWidth 32

@[simp] theorem maskOf_true : maskOf true = BitVec.allOnes 32 := by decide

@[simp] theorem maskOf_false : maskOf false = 0 := by decide

def absolute (x : Binary32) : Binary32 :=
  x - (x * Binary32.two).masked (maskOf x.isBelowZero)

/-- The whole octants in a nonnegative angle. -/
def count (s : Binary32) : BitVec 32 :=
  (s * Coefficients.octantsPerUnit).floor.truncateToInt32

/-- The least even number that is not below the count of octants. -/
def evenCount (q : BitVec 32) : BitVec 32 := q + (q &&& 1)

/-- The angle less a number of octants, the larger part of each first. -/
def subtract (fused : Bool) (s : Binary32) (r : Binary32) : Binary32 :=
  Binary32.negMulAdd fused (Binary32.negMulAdd fused s r Coefficients.octantHigh) r
    Coefficients.octantLow

def reduce (fused : Bool) (x : Binary32) : Reduced :=
  let s := absolute x
  let q := count s
  { angle := subtract fused s (Binary32.ofInt32 (evenCount q)), octant := q }

end Octant

end VectorSine
