import VectorSine.Binary32.MultiplyAdd
import VectorSine.Pipeline.Coefficients

/-! # Sine and cosine of a reduced angle

The quantity `v = 2 (1 - cos θ)` is small near zero and easy to double: `v (4 - v)` is the same
quantity for `2 θ`. The series gives it for an eighth of the angle, three doublings bring it to the
angle itself, and then `v / 2` is `1 - cos`, from which both functions follow:

* the cosine is `1 - v / 2`;
* the absolute value of the sine is the square root of `(2 - v / 2) (v / 2)`.
-/

namespace VectorSine
set_option autoImplicit false

/-- The absolute value of a sine, and the cosine of the same angle. -/
structure SineCosine where
  sine : Binary32
  cosine : Binary32
deriving DecidableEq

namespace HalfAngle

/-- The series divided by `t`, the square of the angle. -/
def seriesFactor (fused : Bool) (t : Binary32) : Binary32 :=
  let p := Binary32.mulSub fused Coefficients.c4 t Coefficients.c5
  let p := Binary32.mulAdd fused Coefficients.c3 p t
  let p := Binary32.mulSub fused Coefficients.c2 p t
  Binary32.mulAdd fused Coefficients.c1 p t

def series (fused : Bool) (s : Binary32) : Binary32 :=
  let eighth := s.divNat 8
  let t := eighth * eighth
  seriesFactor fused t * t

/-- The quantity `2 (1 - cos)` of the doubled angle. -/
def double (v : Binary32) : Binary32 := v * (Binary32.four - v)

def doubled : Nat → Binary32 → Binary32
  | 0, v => v
  | n + 1, v => doubled n (double v)

/-- Sine and cosine from `1 - cos`. -/
def ofVersine (v : Binary32) : SineCosine :=
  { sine := ((Binary32.two - v) * v).sqrt, cosine := Binary32.one - v }

def sineCosine (fused : Bool) (s : Binary32) : SineCosine :=
  ofVersine ((doubled 3 (series fused s)).divNat 2)

end HalfAngle

end VectorSine
