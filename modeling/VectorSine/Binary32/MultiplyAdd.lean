import VectorSine.Binary32.Arithmetic

/-! # Multiplication with addition

The three combinations of one product and one sum that the polynomial needs. Each comes in two
forms: *fused*, exact up to one rounding, and *separate*, where the product is rounded first.
-/

namespace VectorSine
set_option autoImplicit false

namespace Binary32

def mulAdd (fused : Bool) (acc a b : Binary32) : Binary32 :=
  if fused then fusedMulAdd a b acc else acc + a * b

def negMulAdd (fused : Bool) (acc a b : Binary32) : Binary32 :=
  if fused then fusedMulAdd (-a) b acc else acc - a * b

def mulSub (fused : Bool) (acc a b : Binary32) : Binary32 :=
  if fused then fusedMulAdd a b (-acc) else a * b - acc

end Binary32

end VectorSine
