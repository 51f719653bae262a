import VectorSine.Packed.Register
import VectorSine.Pipeline.Coefficients

/-! # The pipeline on registers

Octant, half angle and quadrant for every lane of a register at once. Integers come from the
numbers by the nearest-integer conversion, and the two choices of the quadrant are comparisons,
where the pipeline for one number truncates and builds its masks from single bits.
-/

namespace VectorSine
set_option autoImplicit false

namespace Packed

variable {w : Nat}

/-- The reduced angles and the octants of the lanes, given the mask of the negative ones. -/
def reduce (fused : Bool) (a : Register w) (negative : WordRegister w) :
    Register w × WordRegister w :=
  let s := a.sub ((a.mul (.broadcast w Binary32.two)).masked negative)
  let q := (s.mul (.broadcast w Coefficients.octantsPerUnit)).floor.toWords
  let r := Register.ofWords (q.add (q.and (.broadcast w 1)))
  let s := Register.negMulAdd fused s r (.broadcast w Coefficients.octantHigh)
  (Register.negMulAdd fused s r (.broadcast w Coefficients.octantLow), q)

def series (fused : Bool) (s : Register w) : Register w :=
  let s := s.divNat 8
  let t := s.mul s
  let p := Register.mulSub fused (.broadcast w Coefficients.c4) t (.broadcast w Coefficients.c5)
  let p := Register.mulAdd fused (.broadcast w Coefficients.c3) p t
  let p := Register.mulSub fused (.broadcast w Coefficients.c2) p t
  let p := Register.mulAdd fused (.broadcast w Coefficients.c1) p t
  p.mul t

def double (v : Register w) : Register w :=
  v.mul ((Register.broadcast w Binary32.four).sub v)

def sineCosine (fused : Bool) (s : Register w) : Register w × Register w :=
  let v := (double (double (double (series fused s)))).divNat 2
  ((((Register.broadcast w Binary32.two).sub v).mul v).sqrt,
    (Register.broadcast w Binary32.one).sub v)

def correct (sine cosine : Register w) (q negative : WordRegister w) : Register w :=
  let two := WordRegister.broadcast w 2
  let four := WordRegister.broadcast w 4
  let swap := ((q.add (.broadcast w 1)).and two).eqMask two
  let flip := ((q.and four).eqMask four).xor negative
  let y := sine.add ((cosine.sub sine).masked swap)
  y.sub ((y.mul (.broadcast w Binary32.two)).masked flip)

def sine (fused : Bool) (a : Register w) : Register w :=
  let negative := a.ltMask (.broadcast w Binary32.zero)
  let reduced := reduce fused a negative
  let both := sineCosine fused reduced.1
  correct both.1 both.2 reduced.2 negative

end Packed

end VectorSine
