import VectorSine.Proofs.Pipeline.Reduction

/-! # The reduced angle

Below `2¹⁶` the larger part of the octants is taken away without a rounding error, whichever way the
products are rounded, and what is left is off by what the two parts lack of a quarter of `π` for
each octant. It need not lie in `[-π/4, π/4]`. The octants are counted by a rounded product with a
constant that is a little too small, so an angle just above an odd number of octants may be counted
as below it, and then too few octants are taken away.

Up to `4 π` this costs less than a millionth. It would cost most before fifteen octants, but there a
product that is not rounded up to them is at least half a step below them.

* `product_bounds`, `product_le_of_fourteen`: what the count says about the product.
* `reduce_mem_octant`: the reduced angle up to `4 π`.
* `reduce_exactly`: the whole reduction below `2¹⁶`.
-/

namespace VectorSine
set_option autoImplicit false
noncomputable section

open Binary32

namespace Octant

variable {x s : Binary32} {a X : ℝ}

/-! ## Up to sixteen octants -/

/-- The product is below the next whole number, which rounding would keep, and at most half a step
below its own. -/
theorem product_bounds (hs : s.HasValue a) (ha0 : 0 ≤ a) (ha : a ≤ 4 * Real.pi) :
    (octants s : ℝ) - 2 ^ (-21 : ℤ) ≤ a * (10680707 / 2 ^ 23) ∧
      a * (10680707 / 2 ^ 23) < octants s + 1 := by
  obtain ⟨hlow, hhigh⟩ :=
    octants_bounds hs ha0 (lt_two_zpow_of_le_four_pi (k := 27) (by norm_num) ha)
  have hcount := octants_lt_sixteen hs ha0 ha
  have hkeep : roundReal ((octants s : ℝ) + 1) = octants s + 1 := by
    apply roundReal_eq (m := octants s + 1) (e := 0) (by simp) _ (by norm_num)
    rw [abs_of_nonneg (by positivity)]
    omega
  have hnext : a * (10680707 / 2 ^ 23) < octants s + 1 := by
    by_contra hge
    have hround := roundReal_mono (not_lt.1 hge)
    rw [hkeep] at hround
    exact absurd hhigh (not_lt.2 hround)
  have hsize : |a * (10680707 / 2 ^ 23)| ≤ 2 ^ (4 : ℤ) := by
    have hsixteen : (octants s : ℝ) + 1 ≤ 16 := by exact_mod_cast hcount
    rw [abs_of_nonneg (by positivity)]
    norm_num
    linarith
  have herror := (abs_le.1 (roundReal_error_of_le hsize (by norm_num))).2
  norm_num at herror ⊢
  constructor <;> linarith

/-- A product that is not rounded up to fifteen is at least half a step below it. -/
theorem product_le_of_fourteen (hs : s.HasValue a) (ha0 : 0 ≤ a) (ha : a ≤ 4 * Real.pi)
    (hcount : octants s = 14) : a * (10680707 / 2 ^ 23) ≤ 15 - 2 ^ (-21 : ℤ) := by
  have hrange := lt_two_zpow_of_le_four_pi (k := 27) (by norm_num) ha
  have hhigh := (octants_bounds hs ha0 hrange).2
  have hnext := (product_bounds hs ha0 ha).2
  rw [hcount] at hhigh hnext
  by_contra hgt
  rw [not_le] at hgt
  norm_num at hgt hnext
  have hround := le_roundReal_of_half (z := a * (10680707 / 2 ^ 23)) (m := 15 * 2 ^ 20) (k := 3)
    (by norm_num; linarith) (by norm_num; linarith) (by norm_num) (by norm_num; linarith)
  norm_num at hround hhigh
  linarith

/-- Up to `4 π` the reduced angle leaves `[-π/4, π/4]` by less than a millionth. -/
theorem reduce_mem_octant (fused : Bool) (hx : x.HasValue X) (hX : |X| ≤ 4 * Real.pi) {b : ℝ}
    (hb : (reduce fused x).angle.HasValue b) : |b| ≤ Real.pi / 4 + 1 / 10 ^ 6 := by
  have hX16 := lt_two_zpow_of_le_four_pi (k := 16) (by norm_num) hX
  have hs : (absolute x).HasValue |X| :=
    hasValue_absolute_of_lt (by norm_num) hx hX16
  obtain ⟨-, c, hc, -, hnear⟩ := reduce_near fused hx hX16
  rw [hc.unique hb] at hnear
  obtain ⟨hlow, hhigh⟩ := product_bounds hs (abs_nonneg X) hX
  have hfourteen := product_le_of_fourteen hs (abs_nonneg X) hX
  have hsixteen := octants_lt_sixteen hs (abs_nonneg X) hX
  unfold evenOctants at hnear
  generalize |X| = a at hlow hhigh hfourteen hnear
  generalize octants (absolute x) = n at hlow hhigh hfourteen hsixteen hnear
  have hn0 : (0 : ℝ) ≤ n := Nat.cast_nonneg n
  have hpiLow := Real.pi_gt_d20
  have hpiHigh := Real.pi_lt_d20
  have hpiLow' := mul_le_mul_of_nonneg_left hpiLow.le hn0
  have hpiHigh' := mul_le_mul_of_nonneg_left hpiHigh.le hn0
  rcases Nat.mod_two_eq_zero_or_one n with heven | hodd
  -- too few octants are taken away only if the number of those counted is even
  · rw [heven, Nat.add_zero, abs_le] at hnear
    rcases (by omega : n ≤ 12 ∨ n = 14) with hle | rfl
    · have hle' : (n : ℝ) ≤ 12 := by exact_mod_cast hle
      norm_num at hlow hpiLow hpiHigh hpiLow' hpiHigh'
      rw [abs_le]
      constructor <;> linarith
    -- the bound on the product alone leaves no room for the rounding of the angle here
    · have hlast := hfourteen rfl
      norm_num at hlow hlast hpiLow hpiHigh
      push_cast at hnear
      rw [abs_le]
      constructor <;> linarith
  · rw [hodd, abs_le] at hnear
    have hle' : (n : ℝ) ≤ 15 := by exact_mod_cast (by omega : n ≤ 15)
    norm_num at hlow hpiLow hpiHigh hpiLow' hpiHigh'
    push_cast at hnear
    rw [abs_le]
    constructor <;> linarith

/-! ## Below `2¹⁶` -/

/-- The even number of octants that the reduction takes away. -/
def taken (fused : Bool) (x : Binary32) : ℤ := (evenCount (reduce fused x).octant).toInt

/-- What the reduction of an angle comes to where its first step is exact. -/
structure ReducedExactly (fused : Bool) (x : Binary32) : Prop where
  octant_nonneg : 0 ≤ (reduce fused x).octant.toInt
  taken_eq : taken fused x = (reduce fused x).octant.toInt + (reduce fused x).octant.toInt % 2
  /-- The larger part of the octants is a number of the format. -/
  product : (Binary32.ofInt32 (evenCount (reduce fused x).octant) *
    Coefficients.octantHigh).HasValue (taken fused x * Coefficients.octantHigh.toReal)
  /-- Fused or not, it is taken away without rounding. -/
  firstStep : ∀ mode, (negMulAdd mode (absolute x)
    (Binary32.ofInt32 (evenCount (reduce fused x).octant)) Coefficients.octantHigh).HasValue
      (|x.toReal| - taken fused x * Coefficients.octantHigh.toReal)
  finite : (reduce fused x).angle.IsFinite
  near : |(reduce fused x).angle.toReal - (|x.toReal| - taken fused x * (Real.pi / 4))| ≤
    376 / 10 ^ 10 * taken fused x + 6 / 10 ^ 8
  small : |(reduce fused x).angle.toReal| ≤ 4 / 5

theorem reducedExactly_of_lt (fused : Bool) (hx : x.HasValue X) (hX : |X| < 2 ^ (16 : ℤ)) :
    ReducedExactly fused x := by
  have hs : (absolute x).HasValue |X| :=
    hasValue_absolute_of_lt (by norm_num) hx hX
  have hX17 : |X| < 2 ^ (17 : ℤ) := hX.trans (zpow_lt_zpow_right₀ one_lt_two (by norm_num))
  have hX27 : |X| < 2 ^ (27 : ℤ) := hX.trans (zpow_lt_zpow_right₀ one_lt_two (by norm_num))
  have hoctant : (reduce fused x).octant.toInt = octants (absolute x) :=
    toInt_count hs (abs_nonneg X) hX27
  have htaken : taken fused x = evenOctants (absolute x) := toInt_evenCount hs (abs_nonneg X) hX27
  have hcount : (Binary32.ofInt32 (evenCount (reduce fused x).octant)).HasValue
      (evenOctants (absolute x)) := hasValue_evenCount hs (abs_nonneg X) hX27
  have heven := evenOctants_even (absolute x)
  have htakenReal : (taken fused x : ℝ) = evenOctants (absolute x) := by
    rw [htaken, Int.cast_natCast]
  have hhigh := Coefficients.hasValue_octantHigh
  obtain ⟨-, hhalf, hle⟩ := rest_bounds hs (abs_nonneg X) hX
  obtain ⟨-, b, hb, hsmall, hnear⟩ := reduce_near fused hx hX
  refine ⟨?_, ?_, ?_, ?_, hb.finite, ?_, ?_⟩
  · rw [hoctant]
    exact Int.natCast_nonneg _
  · rw [htaken, hoctant]
    unfold evenOctants
    push_cast
    rfl
  · have hproduct := hasValue_mul hcount hhigh (by
      have hbound : (evenOctants (absolute x) : ℝ) ≤ ((2 ^ 17 : ℕ) : ℝ) := by exact_mod_cast hle
      rw [abs_of_nonneg (by positivity)]
      norm_num at hbound ⊢
      linarith)
    rw [roundReal_octantHigh_product heven hle] at hproduct
    rw [htakenReal, hhigh.toReal_eq]
    exact hproduct
  · intro mode
    rw [htakenReal, hhigh.toReal_eq, hx.toReal_eq]
    exact hasValue_subtract_high mode hs hX17 hcount heven hle hhalf
  · rw [htakenReal, hb.toReal_eq, hx.toReal_eq]
    linarith
  · rw [hb.toReal_eq]
    exact hsmall

/-- An angle below `2¹⁶` is reduced with one exact step, and up to `4 π` it is left within an octant
but for a millionth. -/
theorem reduce_exactly (fused : Bool) (x : Binary32) (hx : x.IsFinite)
    (hrange : |x.toReal| < 65536) :
    ReducedExactly fused x ∧ (|x.toReal| ≤ 4 * Real.pi →
      |(reduce fused x).angle.toReal| ≤ Real.pi / 4 + 1 / 10 ^ 6) := by
  have hexactly := reducedExactly_of_lt fused hx.hasValue (by norm_num; exact hrange)
  exact ⟨hexactly, fun hturns => reduce_mem_octant fused hx.hasValue hturns
    hexactly.finite.hasValue⟩

/-- A number above fifteen octants that is counted below them. -/
theorem reduce_exactly_fifteen :
    (|(⟨0x413C7EDD⟩ : Binary32).toReal| < 65536 ∧
      |(⟨0x413C7EDD⟩ : Binary32).toReal| ≤ 4 * Real.pi) ∧
    ReducedExactly false ⟨0x413C7EDD⟩ ∧
      |(reduce false ⟨0x413C7EDD⟩).angle.toReal| ≤ Real.pi / 4 + 1 / 10 ^ 6 := by
  have hvalue : (⟨0x413C7EDD⟩ : Binary32).HasValue (12353245 / 2 ^ 20) :=
    hasValue_of_dyadic 12353245 129 (by decide) (by norm_num)
  have hpi := Real.pi_gt_three
  have hrange : |(⟨0x413C7EDD⟩ : Binary32).toReal| < 65536 := by
    rw [hvalue.toReal_eq, abs_of_pos (by norm_num)]
    norm_num
  have hturns : |(⟨0x413C7EDD⟩ : Binary32).toReal| ≤ 4 * Real.pi := by
    rw [hvalue.toReal_eq, abs_of_pos (by norm_num)]
    norm_num
    linarith
  obtain ⟨hexactly, hmem⟩ := reduce_exactly false ⟨0x413C7EDD⟩ hvalue.finite hrange
  exact ⟨⟨hrange, hturns⟩, hexactly, hmem hturns⟩

end Octant

end
end VectorSine
