import VectorSine.Proofs.Packed.Lanes
import VectorSine.Proofs.Pipeline.Doubling
import VectorSine.Proofs.Pipeline.Octant

/-! # Angles beyond the range

The pipeline answers a NaN with a NaN whatever the octant. An angle so large that the count of its
octants is not an integer of 32 bits keeps its size through the reduction, and then the series
overflows to an infinity, which the doublings take to a root of a negative number. So the result is
a NaN here too, whichever integer the conversion answers with.
-/

namespace VectorSine
set_option autoImplicit false
noncomputable section

open Binary32

/-! ## From a NaN to a NaN -/

theorem Quadrant.correct_nan (cosine : Binary32) (q : BitVec 32) (x : Binary32) :
    correct nan cosine q x = nan := by
  have hselect : select nan cosine (swapMask q) = nan := nan_add datum_nan _
  unfold correct
  rw [hselect]
  exact nan_sub datum_nan _

theorem sineInOctant_of_sine_nan (fused : Bool) (x : Binary32) (q : BitVec 32)
    (h : (HalfAngle.sineCosine fused (Octant.subtract fused (Octant.absolute x)
      (Binary32.ofInt32 (Octant.evenCount q)))).sine = nan) : sineInOctant fused x q = nan := by
  simp only [sineInOctant, h]
  exact Quadrant.correct_nan _ q x

theorem sineInOctant_nan (fused : Bool) (x : Binary32) (q : BitVec 32)
    (h : (Octant.absolute x).datum = .nan) : sineInOctant fused x q = nan := by
  have hangle : ∀ r, (Octant.subtract fused (Octant.absolute x) r).datum = .nan := by
    intro r
    unfold Octant.subtract
    rw [negMulAdd_nan fused r _ h, negMulAdd_nan fused r _ datum_nan, datum_nan]
  exact sineInOctant_of_sine_nan fused x q (HalfAngle.sine_nan fused (hangle _))

/-! ## From a large angle to a NaN -/

namespace HalfAngle

/-- From `2³⁰` on the series exceeds the finite numbers. -/
theorem series_beyond (fused : Bool) {s : Binary32} (h : s.AtLeast (2 ^ (30 : ℤ))) :
    (series fused s).datum = .infinite false := by
  have hpow : ∀ k : ℤ, (0 : ℝ) < 2 ^ k := fun k => zpow_pos two_pos k
  have heighth : (s.divNat 8).AtLeast (2 ^ (27 : ℤ)) := by
    have hdivided := h.divNat (hpow 30) 8 (by norm_num)
    have heq : (2 : ℝ) ^ (30 : ℤ) / (8 : ℕ) = 2 ^ (27 : ℤ) := by norm_num
    rwa [heq, roundReal_two_zpow (by norm_num)] at hdivided
  have ht : (s.divNat 8 * s.divNat 8).AtLeast (2 ^ (54 : ℤ)) := by
    have hsquare := heighth.mul heighth (hpow 27) (hpow 27)
    rwa [← zpow_add₀ two_ne_zero, roundReal_two_zpow (by norm_num)] at hsquare
  have hbound : ∀ {z : ℝ} {k : ℤ}, -149 ≤ k → 2 ^ k ≤ z → 2 ^ k ≤ roundReal z := by
    intro z k hk hz
    rw [← roundReal_two_zpow hk]
    exact roundReal_mono hz
  have hproduct : ∀ k l : ℤ, -149 ≤ k + l → roundReal ((2 : ℝ) ^ k * 2 ^ l) = 2 ^ k * 2 ^ l := by
    intro k l hkl
    rw [← zpow_add₀ two_ne_zero, roundReal_two_zpow hkl]
  unfold series seriesFactor
  set t := s.divNat 8 * s.divNat 8 with htdef
  have h5 : Coefficients.c5.AtLeast (2 ^ (-21 : ℤ)) :=
    Coefficients.hasValue_c5.atLeast.mono (by norm_num)
  have hp4 : (mulSub fused Coefficients.c4 t Coefficients.c5).AtLeast (2 ^ (32 : ℤ)) :=
    (ht.mulSub fused h5 Coefficients.hasValue_c4 (hpow 54) (hpow (-21))
      (hproduct 54 (-21) (by norm_num)) (by norm_num)).mono (hbound (by norm_num) (by norm_num))
  set p4 := mulSub fused Coefficients.c4 t Coefficients.c5
  have hp3 : (mulAdd fused Coefficients.c3 p4 t).AtLeast (2 ^ (86 : ℤ)) :=
    (hp4.mulAdd fused ht Coefficients.hasValue_c3 (hpow 32) (hpow 54)
      (hproduct 32 54 (by norm_num)) (by norm_num)).mono (hbound (by norm_num) (by norm_num))
  set p3 := mulAdd fused Coefficients.c3 p4 t
  have hp2 : (mulSub fused Coefficients.c2 p3 t).AtLeast (2 ^ (139 : ℤ)) :=
    (hp3.mulSub fused ht Coefficients.hasValue_c2 (hpow 86) (hpow 54)
      (hproduct 86 54 (by norm_num)) (by norm_num)).mono (hbound (by norm_num) (by norm_num))
  set p2 := mulSub fused Coefficients.c2 p3 t
  have hp1 : (mulAdd fused Coefficients.c1 p2 t).AtLeast (2 ^ (193 : ℤ)) :=
    (hp2.mulAdd fused ht Coefficients.hasValue_c1 (hpow 139) (hpow 54)
      (hproduct 139 54 (by norm_num)) (by norm_num)).mono (hbound (by norm_num) (by norm_num))
  exact ((hp1.mul ht (hpow 193) (hpow 54)).mono (hbound (by norm_num) (by norm_num))).infinite

theorem sine_beyond (fused : Bool) {s : Binary32} (h : s.AtLeast (2 ^ (30 : ℤ))) :
    (sineCosine fused s).sine = nan :=
  sine_nan_of_outside fused (.above (Or.inl (series_beyond fused h)))

end HalfAngle

namespace Octant

/-- Taking away a negative number of octants keeps a lower bound that rounding keeps. -/
theorem negMulAdd_atLeast (fused : Bool) {s r part : Binary32} {b c d : ℝ}
    (hs : s.AtLeast b) (hr : r.HasValue c) (hpart : part.HasValue d) (hb : 0 < b) (hc : c ≤ 0)
    (hd : 0 ≤ d) (hlarge : |c * d| ≤ 2 ^ (127 : ℤ)) (hkeep : roundReal b = b) :
    (negMulAdd fused s r part).AtLeast b := by
  have hproduct : c * d ≤ 0 := mul_nonpos_of_nonpos_of_nonneg hc hd
  cases fused with
  | true =>
    have hfused := AtLeast.fusedMulAdd_addend (hasValue_neg hr) hpart hs (by linarith)
    apply hfused.mono
    calc b = roundReal b := hkeep.symm
      _ ≤ roundReal (-c * d + b) := roundReal_mono (by linarith)
  | false =>
    have hrounded : roundReal (c * d) ≤ 0 := by
      rw [← roundReal_zero]
      exact roundReal_mono hproduct
    have hsum := hs.add (hasValue_neg (hasValue_mul hr hpart hlarge)) (by linarith)
    apply hsum.mono
    calc b = roundReal b := hkeep.symm
      _ ≤ roundReal (b + -roundReal (c * d)) := roundReal_mono (by linarith)

end Octant

/-- The answers that the two conversions give beyond their range. Both have the least integer for
their even count. -/
theorem sineInOctant_beyond (fused : Bool) (x : Binary32) (q : BitVec 32)
    (hx : (Octant.absolute x).AtLeast (2 ^ (30 : ℤ)))
    (hq : Octant.evenCount q = BitVec.ofInt 32 minInt32) : sineInOctant fused x q = nan := by
  have hcount : (Binary32.ofInt32 (Octant.evenCount q)).HasValue (-2 ^ (31 : ℤ)) := by
    have hvalue := hasValue_ofInt32 (Octant.evenCount q)
    have hint : (Octant.evenCount q).toInt = -2 ^ 31 := by rw [hq]; decide
    have hreal : (((Octant.evenCount q).toInt : ℤ) : ℝ) = -2 ^ (31 : ℤ) := by
      rw [hint]
      norm_num
    rwa [hreal, roundReal_neg, roundReal_two_zpow (by norm_num)] at hvalue
  have hkeep : roundReal (2 ^ (30 : ℤ)) = 2 ^ (30 : ℤ) := roundReal_two_zpow (by norm_num)
  have hpos : (0 : ℝ) < 2 ^ (30 : ℤ) := zpow_pos two_pos _
  have hhigh := Octant.negMulAdd_atLeast fused hx hcount Coefficients.hasValue_octantHigh hpos
    (by norm_num) (by norm_num) (by norm_num [abs_of_neg, abs_of_pos]) hkeep
  have hangle := Octant.negMulAdd_atLeast fused hhigh hcount Coefficients.hasValue_octantLow hpos
    (by norm_num) (by norm_num) (by norm_num [abs_of_neg, abs_of_pos]) hkeep
  exact sineInOctant_of_sine_nan fused x q (HalfAngle.sine_beyond fused hangle)

/-- Where the octants do not fit in 32 bits one conversion answers with the greatest integer and the
other with the least, and the greatest is odd. -/
theorem Octant.evenCounts_beyond {s : Binary32}
    (h : (s * Coefficients.octantsPerUnit).AtLeast (2 ^ (31 : ℤ))) :
    evenCount (count s) = BitVec.ofInt 32 minInt32 ∧
      evenCount (Packed.nearestCount s) = BitVec.ofInt 32 minInt32 := by
  obtain ⟨htruncated, hnearest⟩ := h.floor_beyond
  unfold count Packed.nearestCount
  rw [htruncated, hnearest]
  decide

theorem Octant.product_atLeast {s : Binary32} {k : ℤ} (hk : -149 ≤ k) (hs : s.AtLeast (2 ^ k)) :
    (s * Coefficients.octantsPerUnit).AtLeast (2 ^ k) := by
  have hone : Coefficients.octantsPerUnit.AtLeast 1 :=
    Coefficients.hasValue_octantsPerUnit.atLeast.mono (by norm_num)
  have hproduct := hs.mul hone (zpow_pos two_pos _) one_pos
  rwa [mul_one, roundReal_two_zpow hk] at hproduct

theorem laneSine_beyond (fused : Bool) {x : Binary32}
    (hx : (Octant.absolute x).AtLeast (2 ^ (31 : ℤ))) : laneSine fused x = nan := by
  rw [laneSine_eq]
  apply sineInOctant_beyond fused x _ (hx.mono (zpow_le_zpow_right₀ one_le_two (by norm_num)))
  exact (Octant.evenCounts_beyond (Octant.product_atLeast (by norm_num) hx)).1

/-- An angle that is not finite has no sine. -/
theorem laneSine_not_finite (fused : Bool) {x : Binary32} (hx : ¬ x.IsFinite) :
    laneSine fused x = nan := by
  rw [isFinite_iff] at hx
  have habsolute : (Octant.absolute x).datum = .nan ∨
      (Octant.absolute x).datum = .infinite false := by
    cases hdatum : x.datum with
    | nan =>
      left
      unfold Octant.absolute
      rw [nan_sub hdatum, datum_nan]
    | infinite negative => exact Octant.absolute_of_infinite negative hdatum
    | finite negative m => exact absurd ⟨negative, m, hdatum⟩ hx
  rcases habsolute with hnan | hinf
  · rw [laneSine_eq]
    exact sineInOctant_nan fused x _ hnan
  · exact laneSine_beyond fused (Or.inl hinf)

end
end VectorSine
