import VectorSine.Pipeline.Octant
import VectorSine.Pipeline.HalfAngle

/-! # Correction by quadrant

The octant of an angle says which of the two functions of its reduced angle is its sine, and with
which sign. Octants 1, 2, 5 and 6 of each turn take the cosine; the octants from 4 on are negative,
and the sign of the angle turns that over. Both choices are made by masks.
-/

namespace VectorSine
set_option autoImplicit false

namespace Quadrant

/-- All ones where the octant takes the cosine. -/
def swapMask (q : BitVec 32) : BitVec 32 := -(((q + 1) &&& 2) >>> 1)

/-- All ones where the octant and the sign of the angle make the sine negative. -/
def flipMask (q : BitVec 32) (x : Binary32) : BitVec 32 :=
  -(((q &&& 4) >>> 2) ^^^ (BitVec.ofBool x.isBelowZero).setWidth 32)

/-- The cosine where the mask has ones, else the sine. -/
def select (sine cosine : Binary32) (mask : BitVec 32) : Binary32 :=
  sine + (cosine - sine).masked mask

/-- The number with the other sign where the mask has ones. -/
def flip (y : Binary32) (mask : BitVec 32) : Binary32 :=
  y - (y * Binary32.two).masked mask

/-- The sine of an angle `x` in octant `q` from the two functions of its reduced angle. -/
def correct (sine cosine : Binary32) (q : BitVec 32) (x : Binary32) : Binary32 :=
  flip (select sine cosine (swapMask q)) (flipMask q x)

end Quadrant

/-- The sine of one number by the pipeline: octant, half angle, quadrant. -/
def laneSine (fused : Bool) (x : Binary32) : Binary32 :=
  let reduced := Octant.reduce fused x
  let both := HalfAngle.sineCosine fused reduced.angle
  Quadrant.correct both.sine both.cosine reduced.octant x

end VectorSine
