import VectorSine.Execution.Kernel
import VectorSine.Proofs.Binary32.Special

/-! # Lanes of the packed pipeline

What the pipeline on registers leaves in a lane depends on the number in that lane alone. Once the
octant is known it is also what the pipeline for one number computes: sums are commutative, and the
masks by comparison are the masks built from single bits. The two differ only in how they turn the
count of octants into an integer.

* `getElem_sine`: a lane holds `sineInOctant` of its number, with the nearest-integer octant.
* `laneSine_eq`: the pipeline for one number is `sineInOctant` with the truncated octant.
-/

namespace VectorSine
set_option autoImplicit false

/-! ## Masks -/

theorem maskOf_eq_laneMask (condition : Bool) : Octant.maskOf condition = laneMask condition := by
  cases condition
  · exact Octant.maskOf_false
  · exact Octant.maskOf_true

theorem laneMask_xor (a b : Bool) : laneMask a ^^^ laneMask b = laneMask (a ^^ b) := by
  cases a <;> cases b <;> decide

theorem swapMask_eq_laneMask (q : BitVec 32) :
    Quadrant.swapMask q = laneMask (((q + 1) &&& 2) == 2) := by
  have hbit := BitVec.and_twoPow (q + 1) 1
  rw [show BitVec.twoPow 32 1 = 2 by decide] at hbit
  unfold Quadrant.swapMask
  rw [hbit]
  split <;> decide

theorem flipMask_eq_laneMask (q : BitVec 32) (x : Binary32) :
    Quadrant.flipMask q x = laneMask (((q &&& 4) == 4) ^^ x.isBelowZero) := by
  have hbit := BitVec.and_twoPow q 2
  rw [show BitVec.twoPow 32 2 = 4 by decide] at hbit
  unfold Quadrant.flipMask
  rw [hbit]
  generalize x.isBelowZero = negative
  split <;> cases negative <;> decide

/-! ## One lane -/

/-- The sine of an angle by the pipeline, once the count of its octants is known. -/
def sineInOctant (fused : Bool) (x : Binary32) (q : BitVec 32) : Binary32 :=
  let angle := Octant.subtract fused (Octant.absolute x) (Binary32.ofInt32 (Octant.evenCount q))
  let both := HalfAngle.sineCosine fused angle
  Quadrant.correct both.sine both.cosine q x

theorem laneSine_eq (fused : Bool) (x : Binary32) :
    laneSine fused x = sineInOctant fused x (Octant.count (Octant.absolute x)) := by
  simp only [laneSine, sineInOctant, Octant.reduce]

namespace Packed

/-- The octants of an angle as the pipeline on registers counts them. -/
def nearestCount (s : Binary32) : BitVec 32 :=
  (s * Coefficients.octantsPerUnit).floor.nearestInt32

variable {w : Nat}

theorem getElem_series (fused : Bool) (s : Register w) (i : Nat) (h : i < w) :
    (series fused s)[i] = HalfAngle.series fused s[i] := by
  cases fused
  · simp [series, HalfAngle.series, HalfAngle.seriesFactor, Binary32.mulSub, Binary32.mulAdd,
      Binary32.add_comm_binary32]
  · simp [series, HalfAngle.series, HalfAngle.seriesFactor, Binary32.mulSub, Binary32.mulAdd]

theorem getElem_double (v : Register w) (i : Nat) (h : i < w) :
    (double v)[i] = HalfAngle.double v[i] := by
  simp [double, HalfAngle.double]

theorem getElem_sineCosine (fused : Bool) (s : Register w) (i : Nat) (h : i < w) :
    (sineCosine fused s).1[i] = (HalfAngle.sineCosine fused s[i]).sine ∧
      (sineCosine fused s).2[i] = (HalfAngle.sineCosine fused s[i]).cosine := by
  simp [sineCosine, HalfAngle.sineCosine, HalfAngle.ofVersine, HalfAngle.doubled, getElem_series,
    getElem_double]

theorem getElem_reduce (fused : Bool) (a : Register w) (negative : WordRegister w) (i : Nat)
    (h : i < w) (hnegative : negative[i] = laneMask a[i].isBelowZero) :
    (reduce fused a negative).2[i] = nearestCount (Octant.absolute a[i]) ∧
      (reduce fused a negative).1[i] = Octant.subtract fused (Octant.absolute a[i])
        (Binary32.ofInt32 (Octant.evenCount (nearestCount (Octant.absolute a[i])))) := by
  cases fused <;>
    simp [reduce, nearestCount, Octant.subtract, Octant.absolute, Octant.evenCount,
      Binary32.negMulAdd, hnegative, maskOf_eq_laneMask]

theorem getElem_correct (sine cosine : Register w) (q negative : WordRegister w) (i : Nat)
    (h : i < w) (x : Binary32) (hnegative : negative[i] = laneMask x.isBelowZero) :
    (correct sine cosine q negative)[i] = Quadrant.correct sine[i] cosine[i] q[i] x := by
  simp [correct, Quadrant.correct, Quadrant.select, Quadrant.flip, swapMask_eq_laneMask,
    flipMask_eq_laneMask, ← laneMask_xor, hnegative]

theorem getElem_sine (fused : Bool) (a : Register w) (i : Nat) (h : i < w) :
    (sine fused a)[i] = sineInOctant fused a[i] (nearestCount (Octant.absolute a[i])) := by
  have hnegative : (a.ltMask (.broadcast w Binary32.zero))[i] = laneMask a[i].isBelowZero := by
    simp [Binary32.isBelowZero]
  obtain ⟨hq, hs⟩ := getElem_reduce fused a _ i h hnegative
  obtain ⟨hsine, hcosine⟩ :=
    getElem_sineCosine fused (reduce fused a (a.ltMask (.broadcast w Binary32.zero))).1 i h
  unfold sine sineInOctant
  rw [getElem_correct _ _ _ _ i h a[i] hnegative, hq, hsine, hcosine, hs]

end Packed

namespace LaneUnit

/-- What a unit leaves in a lane that holds a number. -/
def laneValue (u : LaneUnit) (fused : Bool) (x : Binary32) : Binary32 :=
  match u with
  | scalar => laneSine fused x
  | sse41 => sineInOctant fused x (Packed.nearestCount (Octant.absolute x))
  | avx2 => sineInOctant fused x (Packed.nearestCount (Octant.absolute x))

theorem getElem_compute (u : LaneUnit) (fused : Bool) (r : Register u.lanes) (k : Nat)
    (h : k < u.lanes) : (u.compute fused r)[k] = u.laneValue fused r[k] := by
  cases u with
  | scalar => exact Vector.getElem_map _ h
  | sse41 => exact Packed.getElem_sine fused r k h
  | avx2 => exact Packed.getElem_sine fused r k h

end LaneUnit

end VectorSine
