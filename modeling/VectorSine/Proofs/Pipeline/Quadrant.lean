import VectorSine.Proofs.Packed.Lanes
import VectorSine.Proofs.Pipeline.Reduction

/-! # The error of the pipeline

An even number of octants is a number of right angles. So the absolute value of the sine of an angle
is one of the two functions of the reduced angle, and the octants of the angle say which. Up to
`4 π` they also say how many multiples of `π` the angle has passed, which is its sign.

The error is the sum of what the reduction, the half angle and the choice by masks lose. Only the
cosine is rounded by the choice, and the octants that take the cosine are at most fourteen, so that
the sum stays below a millionth.

* `sin_eq_turned`: the sign of the sine.
* `Quadrant.hasValue_select`: the choice stays in the range of a sine.
* `Octant.chosen_near`: the chosen function.
* `laneSine_near`: the error of the pipeline up to `4 π`.
-/

namespace VectorSine
set_option autoImplicit false
noncomputable section

open Binary32

/-! ## Turning an angle -/

theorem abs_sin_add_right_angles (j : ℕ) (θ : ℝ) :
    |Real.sin (θ + j * (Real.pi / 2))| = if j % 2 = 1 then |Real.cos θ| else |Real.sin θ| := by
  obtain ⟨i, rfl | rfl⟩ := j.even_or_odd'
  · have hturn : θ + ((2 * i : ℕ) : ℝ) * (Real.pi / 2) = θ + i * Real.pi := by
      push_cast
      ring
    rw [if_neg (by omega), hturn, Real.sin_add_nat_mul_pi, abs_mul, abs_neg_one_pow, one_mul]
  · have hturn : θ + ((2 * i + 1 : ℕ) : ℝ) * (Real.pi / 2) = θ + Real.pi / 2 + i * Real.pi := by
      push_cast
      ring
    rw [if_pos (by omega), hturn, Real.sin_add_nat_mul_pi, abs_mul, abs_neg_one_pow, one_mul,
      Real.sin_add_pi_div_two]

theorem sin_eq_turned {a : ℝ} {m : ℕ} (hlow : m * Real.pi ≤ a)
    (hhigh : a ≤ ((m + 1 : ℕ) : ℝ) * Real.pi) :
    Real.sin a = if m % 2 = 1 then -|Real.sin a| else |Real.sin a| := by
  have hrest : 0 ≤ Real.sin (a - m * Real.pi) := by
    push_cast at hhigh
    apply Real.sin_nonneg_of_nonneg_of_le_pi <;> linarith
  rw [Real.sin_sub_nat_mul_pi] at hrest
  rcases Nat.mod_two_eq_zero_or_one m with heven | hodd
  · rw [(Nat.even_iff.2 heven).neg_one_pow, one_mul] at hrest
    rw [if_neg (by omega), abs_of_nonneg hrest]
  · rw [(Nat.odd_iff.2 hodd).neg_one_pow, neg_one_mul] at hrest
    rw [if_pos hodd, abs_of_nonpos (neg_nonneg.1 hrest), neg_neg]

theorem abs_sin_abs (a : ℝ) : |Real.sin (|a|)| = |Real.sin a| := by
  rcases abs_choice a with h | h
  · rw [h]
  · rw [h, Real.sin_neg, abs_neg]

theorem sin_eq_signed {a : ℝ} {m : ℕ} {negative : Bool} (hsign : negative = true ↔ a < 0)
    (hlow : m * Real.pi ≤ |a|) (hhigh : |a| ≤ ((m + 1 : ℕ) : ℝ) * Real.pi) :
    Real.sin a =
      if (decide (m % 2 = 1) ^^ negative) = true then -|Real.sin a| else |Real.sin a| := by
  have hturned := sin_eq_turned hlow hhigh
  rw [abs_sin_abs] at hturned
  cases negative with
  | true =>
    have hneg : a < 0 := hsign.1 rfl
    rw [abs_of_neg hneg, Real.sin_neg] at hturned
    by_cases hodd : m % 2 = 1
    · rw [if_pos hodd] at hturned
      simp only [hodd, decide_true, Bool.xor_self, Bool.false_eq_true, if_false]
      exact neg_inj.1 hturned
    · rw [if_neg hodd] at hturned
      simp only [hodd, decide_false, Bool.false_xor, if_true]
      exact neg_eq_iff_eq_neg.1 hturned
  | false =>
    have hnonneg : 0 ≤ a := by
      rw [← not_lt, ← hsign]
      exact Bool.false_ne_true
    rw [abs_of_nonneg hnonneg] at hturned
    simp only [Bool.xor_false, decide_eq_true_eq]
    exact hturned

/-! ## Choosing by masks -/

namespace Quadrant

variable {x y sine cosine : Binary32} {a b : ℝ}

theorem swapMask_ofNat (n : ℕ) :
    swapMask (BitVec.ofNat 32 n) = laneMask (decide ((n + 1) / 2 % 2 = 1)) := by
  have hbit : (BitVec.ofNat 32 (n + 1)).getLsbD 1 = decide ((n + 1) / 2 % 2 = 1) := by
    rw [BitVec.getLsbD_ofNat, Nat.testBit_eq_decide_div_mod_eq]
    rfl
  have hand := BitVec.and_twoPow (BitVec.ofNat 32 (n + 1)) 1
  rw [hbit, show BitVec.twoPow 32 1 = 2 by decide, BitVec.ofNat_add] at hand
  rw [swapMask_eq_laneMask]
  change laneMask ((BitVec.ofNat 32 n + 1#32) &&& 2 == 2) = _
  rw [hand]
  cases decide ((n + 1) / 2 % 2 = 1) <;> rfl

/-- Whether an octant lies in the half of the circle where sines are negative. -/
def lowerHalf (q : BitVec 32) : Bool := (q &&& 4) == 4

theorem lowerHalf_ofNat (n : ℕ) : lowerHalf (BitVec.ofNat 32 n) = decide (n / 4 % 2 = 1) := by
  have hbit : (BitVec.ofNat 32 n).getLsbD 2 = decide (n / 4 % 2 = 1) := by
    rw [BitVec.getLsbD_ofNat, Nat.testBit_eq_decide_div_mod_eq]
    rfl
  have hand := BitVec.and_twoPow (BitVec.ofNat 32 n) 2
  rw [hbit, show BitVec.twoPow 32 2 = 4 by decide] at hand
  unfold lowerHalf
  rw [hand]
  cases decide (n / 4 % 2 = 1) <;> rfl

theorem hasValue_select_sine (hs : sine.HasValue a) (ha : |a| ≤ 1) :
    (select sine cosine (laneMask false)).HasValue a := by
  change (sine + (cosine - sine).masked 0).HasValue a
  have hvalue := hasValue_add hs hasValue_zero (by
    rw [add_zero]
    exact abs_le_two_zpow_127 (ha.trans (by norm_num)))
  rw [add_zero, hs.roundReal_eq] at hvalue
  rw [masked_zero]
  exact hvalue

/-- The cosine is the sine and their difference, with a rounding for each of the two steps. -/
theorem select_cosine_near (hs : sine.HasValue a) (hc : cosine.HasValue b) (ha0 : 0 ≤ a)
    (ha1 : a ≤ 1) (hb0 : 0 ≤ b) (hb1 : b ≤ 1) :
    ∃ c, (select sine cosine (laneMask true)).HasValue c ∧ |c - b| ≤ 2 ^ (-24 : ℤ) := by
  have hdifference : |b - a| ≤ 2 ^ (0 : ℤ) := by
    rw [zpow_zero, abs_le]
    constructor <;> linarith
  have hfirst := hasValue_sub hc hs (hdifference.trans (by norm_num))
  have herror := roundReal_error_of_le hdifference (by norm_num)
  have hcarried : |a + roundReal (b - a) - b| ≤ 2 ^ ((0 : ℤ) - 25) := by
    rwa [show a + roundReal (b - a) - b = roundReal (b - a) - (b - a) by ring]
  have hsum0 : 0 ≤ a + roundReal (b - a) := by
    have hlow : roundReal (-a) ≤ roundReal (b - a) := roundReal_mono (by linarith)
    rw [roundReal_neg, hs.roundReal_eq] at hlow
    linarith
  have hsum : a + roundReal (b - a) ≤ 2 ^ (0 : ℤ) + 2 ^ ((0 : ℤ) - 24) := by
    have hup := (abs_le.1 hcarried).2
    norm_num at hup ⊢
    linarith
  have hsecond := hasValue_add hs hfirst (by
    rw [abs_of_nonneg hsum0]
    exact hsum.trans (by norm_num))
  refine ⟨roundReal (a + roundReal (b - a)), ?_, ?_⟩
  · change (sine + (cosine - sine).masked (BitVec.allOnes 32)).HasValue _
    rw [masked_allOnes]
    exact hsecond
  · have hnear := roundReal_near_of_half (by norm_num) hsum0 hsum (by rwa [zpow_zero]) hcarried
    norm_num at hnear ⊢
    exact hnear

/-- The choice does not leave the range of a sine: the rounded difference is at most half a step of
the numbers near one off, and the sum is rounded back. -/
theorem hasValue_select (swapped : Bool) (hs : sine.HasValue a) (hc : cosine.HasValue b)
    (ha0 : 0 ≤ a) (ha1 : a ≤ 1) (hb : |b| ≤ 1) :
    ∃ c, (select sine cosine (laneMask swapped)).HasValue c ∧ |c| ≤ 1 ∧ (0 ≤ b → 0 ≤ c) := by
  cases swapped with
  | false =>
    have hsize : |a| ≤ 1 := by rwa [abs_of_nonneg ha0]
    exact ⟨a, hasValue_select_sine hs hsize, hsize, fun _ => ha0⟩
  | true =>
    have hb' := abs_le.1 hb
    have hdifference : |b - a| ≤ 2 ^ (1 : ℤ) := by
      rw [zpow_one, abs_le]
      constructor <;> linarith
    have herror := abs_le.1 (roundReal_error_of_le hdifference (by norm_num))
    have hfirst := hasValue_sub hc hs (hdifference.trans (by norm_num))
    have hsum : |a + roundReal (b - a)| ≤ 2 ^ (0 : ℤ) + 2 ^ ((0 : ℤ) - 24) := by
      norm_num at herror ⊢
      rw [abs_le]
      constructor <;> linarith
    refine ⟨roundReal (a + roundReal (b - a)), ?_, ?_, ?_⟩
    · change (sine + (cosine - sine).masked (BitVec.allOnes 32)).HasValue _
      rw [masked_allOnes]
      exact hasValue_add hs hfirst (hsum.trans (by norm_num))
    · have hround := abs_roundReal_le_of_half (by norm_num) hsum
      rwa [zpow_zero] at hround
    · intro hb0
      have hlow : -a ≤ roundReal (b - a) := by
        calc -a = roundReal (-a) := by rw [roundReal_neg, hs.roundReal_eq]
          _ ≤ roundReal (b - a) := roundReal_mono (by linarith)
      exact roundReal_nonneg (by linarith)

theorem hasValue_flip (negative : Bool) (hy : y.HasValue b) (hb : |b| ≤ 2 ^ (126 : ℤ)) :
    (flip y (laneMask negative)).HasValue (if negative then -b else b) := by
  cases negative with
  | true =>
    change (y - (y * two).masked (BitVec.allOnes 32)).HasValue (-b)
    rw [masked_allOnes]
    exact Octant.hasValue_sub_double hy hb
  | false =>
    change (y - (y * two).masked 0).HasValue b
    rw [masked_zero]
    exact Octant.hasValue_sub_zero hy hb

end Quadrant

/-! ## The whole pipeline -/

/-- The function of the reduced angle that the octant of an absolute value chooses. Its sign is the
only thing that is missing. -/
def chosen (fused : Bool) (s : Binary32) : Binary32 :=
  let both := HalfAngle.sineCosine fused
    (Octant.subtract fused s (Binary32.ofInt32 (Octant.evenCount (Octant.count s))))
  Quadrant.select both.sine both.cosine (Quadrant.swapMask (Octant.count s))

/-- Whether the result is the opposite of the chosen function. -/
def isTurned (x : Binary32) : Bool :=
  Quadrant.lowerHalf (Octant.count (Octant.absolute x)) ^^ x.isBelowZero

theorem laneSine_eq_flip (fused : Bool) (x : Binary32) :
    laneSine fused x =
      Quadrant.flip (chosen fused (Octant.absolute x)) (laneMask (isTurned x)) := by
  change Quadrant.flip (chosen fused (Octant.absolute x)) (Quadrant.flipMask _ x) = _
  rw [flipMask_eq_laneMask]
  rfl

theorem hasValue_laneSine (fused : Bool) {x : Binary32} {c : ℝ}
    (hc : (chosen fused (Octant.absolute x)).HasValue c) (hsize : |c| ≤ 2 ^ (126 : ℤ)) :
    (laneSine fused x).HasValue (if isTurned x then -c else c) := by
  rw [laneSine_eq_flip]
  exact Quadrant.hasValue_flip (isTurned x) hc hsize

namespace Octant

variable {x : Binary32} {X : ℝ}

/-- The function that the octants of an angle choose is the absolute value of its sine. -/
theorem abs_sin_eq (n : ℕ) (a : ℝ) (h : |a - (n + n % 2 : ℕ) * (Real.pi / 4)| ≤ 4 / 5) :
    |Real.sin a| = if (n + 1) / 2 % 2 = 1 then Real.cos (a - (n + n % 2 : ℕ) * (Real.pi / 4))
      else |Real.sin (a - (n + n % 2 : ℕ) * (Real.pi / 4))| := by
  have heven : n + n % 2 = 2 * ((n + 1) / 2) := by omega
  rw [heven] at h ⊢
  set θ := a - ((2 * ((n + 1) / 2) : ℕ) : ℝ) * (Real.pi / 4) with hθ
  have hangle : a = θ + ((n + 1) / 2 : ℕ) * (Real.pi / 2) := by
    rw [hθ]
    push_cast
    ring
  have hcos : 0 ≤ Real.cos θ := by
    have hpi := Real.pi_gt_three
    rw [abs_le] at h
    apply Real.cos_nonneg_of_neg_pi_div_two_le_of_le <;> linarith
  rw [hangle, abs_sin_add_right_angles, abs_of_nonneg hcos]

theorem chosen_near (fused : Bool) (hx : x.HasValue X) (hX : |X| ≤ 4 * Real.pi) :
    ∃ c, (chosen fused (absolute x)).HasValue c ∧ |c - (|Real.sin X|)| ≤ 95 / 10 ^ 8 := by
  have hX16 := Octant.lt_two_zpow_of_le_four_pi (k := 16) (by norm_num) hX
  have habsolute : (absolute x).HasValue |X| :=
    hasValue_absolute_of_lt (by norm_num) hx hX16
  have hsixteen := octants_lt_sixteen habsolute (abs_nonneg X) hX
  obtain ⟨hrest, -, -⟩ := rest_bounds habsolute (abs_nonneg X) hX16
  obtain ⟨hoctant, b, hb, hsmall, hreduced⟩ := reduce_near fused hx hX16
  obtain ⟨s, c, hs, hc, hs0, hc0, hc1, hsine, hcosine⟩ := HalfAngle.sineCosine_near fused hb hsmall
  have hsin := abs_sin_eq (octants (absolute x)) |X| (hrest.trans (by norm_num))
  rw [abs_sin_abs] at hsin
  change ∃ c, (Quadrant.select (HalfAngle.sineCosine fused (reduce fused x).angle).sine
    (HalfAngle.sineCosine fused (reduce fused x).angle).cosine
    (Quadrant.swapMask (reduce fused x).octant)).HasValue c ∧ _
  rw [hoctant, Quadrant.swapMask_ofNat]
  unfold evenOctants at hreduced
  set n := octants (absolute x)
  set θ := |X| - ((n + n % 2 : ℕ) : ℝ) * (Real.pi / 4)
  have hs1 : s ≤ 1 := by
    have hle := Real.abs_sin_sub_sin_le b 0
    rw [Real.sin_zero, sub_zero, sub_zero] at hle
    rw [abs_le] at hsine
    linarith
  -- the octants that take the cosine leave room for the two roundings of the choice
  by_cases hswap : (n + 1) / 2 % 2 = 1
  · rw [if_pos hswap] at hsin
    rw [decide_eq_true hswap, hsin]
    obtain ⟨d, hd, hchosen⟩ := Quadrant.select_cosine_near hs hc hs0 hs1 hc0 hc1
    have hcount : ((n + n % 2 : ℕ) : ℝ) ≤ 14 := by exact_mod_cast (by omega : n + n % 2 ≤ 14)
    have hcos := Real.abs_cos_sub_cos_le b θ
    have hchosen' : |d - c| ≤ 6 / 10 ^ 8 := hchosen.trans (by norm_num)
    refine ⟨d, hd, ?_⟩
    calc |d - Real.cos θ| ≤ |d - c| + |c - Real.cos θ| := abs_sub_le _ _ _
      _ ≤ |d - c| + (|c - Real.cos b| + |Real.cos b - Real.cos θ|) := by
        gcongr
        exact abs_sub_le _ _ _
      _ ≤ 95 / 10 ^ 8 := by linarith
  · rw [if_neg hswap] at hsin
    rw [decide_eq_false hswap, hsin]
    have hcount : ((n + n % 2 : ℕ) : ℝ) ≤ 16 := by exact_mod_cast (by omega : n + n % 2 ≤ 16)
    have hsinNear := (abs_abs_sub_abs_le (Real.sin b) (Real.sin θ)).trans
      (Real.abs_sin_sub_sin_le b θ)
    refine ⟨s, Quadrant.hasValue_select_sine hs (by rw [abs_of_nonneg hs0]; exact hs1), ?_⟩
    calc |s - (|Real.sin θ|)| ≤ |s - (|Real.sin b|)| + |(|Real.sin b|) - (|Real.sin θ|)| :=
          abs_sub_le _ _ _
      _ ≤ 95 / 10 ^ 8 := by linarith

/-- Up to `4 π` the sign of the sine is the one that the octant and the sign of the angle say. -/
theorem sin_eq_of_isTurned (hx : x.HasValue X) (hX : |X| ≤ 4 * Real.pi) :
    Real.sin X = if isTurned x then -|Real.sin X| else |Real.sin X| := by
  have hX27 := lt_two_zpow_of_le_four_pi (k := 27) (by norm_num) hX
  have habsolute : (absolute x).HasValue |X| :=
    hasValue_absolute_of_lt (by norm_num) hx hX27
  obtain ⟨hlow, hhigh⟩ := octants_div_four habsolute (abs_nonneg X) hX
  have hturned : isTurned x =
      (decide (octants (absolute x) / 4 % 2 = 1) ^^ x.isBelowZero) := by
    unfold isTurned
    rw [count_eq habsolute (abs_nonneg X) hX27, Quadrant.lowerHalf_ofNat]
  rw [hturned]
  exact sin_eq_signed (isBelowZero_iff hx) hlow hhigh.le

end Octant

/-- The pipeline is off by less than a millionth up to `4 π`, whether its steps are fused or not. -/
theorem laneSine_near (fused : Bool) {x : Binary32} {X : ℝ} (hx : x.HasValue X)
    (hX : |X| ≤ 4 * Real.pi) :
    ∃ y, (laneSine fused x).HasValue y ∧ |y - Real.sin X| ≤ 95 / 10 ^ 8 := by
  obtain ⟨c, hc, hnear⟩ := Octant.chosen_near fused hx hX
  have hsize : |c| ≤ 2 := by
    have hone := Real.abs_sin_le_one X
    rw [abs_le] at hnear ⊢
    constructor <;> linarith [abs_nonneg (Real.sin X)]
  refine ⟨_, hasValue_laneSine fused hc (hsize.trans (by norm_num)), ?_⟩
  rw [Octant.sin_eq_of_isTurned hx hX]
  split
  · rw [neg_sub_neg, abs_sub_comm]
    exact hnear
  · exact hnear

end
end VectorSine
