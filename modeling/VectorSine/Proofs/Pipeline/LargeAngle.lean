import VectorSine.Proofs.Pipeline.Magnitude

/-! # Angles far from zero

The further an angle is from zero, the less of it is right after the reduction: the constant that
counts octants lacks a part in ten million of what it stands for, and from `2²⁴` on the product with
it, and the octants taken away, are rounded to whole numbers or more. The reduced angle leaves an
octant by more and more.

Below `2²⁷` it stays in `[-23, 23]`. The series of five terms is then still from zero to four, where
the doublings stay, so a number comes out, if not a sine. From `2³¹` on a NaN does. In between some
angles have a result and some have none, and not far above `2²⁷` there already is one without.

* `series_inside`: the series of an angle up to `23`.
* `reduce_mem`: what the reduction leaves of an angle below `2²⁷`.
* `laneSine_not_isNaN`, `laneSine_isNaN`: the result below the one and from the other on.
-/

namespace VectorSine
set_option autoImplicit false
noncomputable section

open Binary32

/-! ## The series -/

namespace HalfAngle

variable {x s : Binary32} {S τ : ℝ}

/-- The first terms of the series of `versine` in the square of the angle, that square taken out. -/
def factor (τ : ℝ) : ℝ := 1 - τ / 12 + τ ^ 2 / 360 - τ ^ 3 / 20160 + τ ^ 4 / 1814400

theorem factor_pos (hτ0 : 0 ≤ τ) (hτ : τ ≤ 83 / 10) : 3 / 10 ≤ factor τ := by
  have hpair : 0 ≤ τ ^ 2 * (1 / 360 - τ / 20160) := mul_nonneg (sq_nonneg τ) (by linarith)
  have hlast := pow_nonneg hτ0 4
  unfold factor
  linarith

/-- Up to here the terms rise, and do not reach four. -/
theorem factor_mul_le (hτ0 : 0 ≤ τ) (hτ : τ ≤ 83 / 10) : factor τ * τ ≤ 395 / 100 := by
  have hrest : 0 ≤ 83 / 10 - τ := by linarith
  have hlast := mul_nonneg (pow_nonneg hτ0 4) hrest
  have hrest2 := pow_nonneg hrest 2
  have hrest3 := pow_nonneg hrest 3
  have hrest4 := pow_nonneg hrest 4
  unfold factor
  linarith

theorem seriesFactor_within (fused : Bool) (ht : x.HasValue τ) (hτ0 : 0 ≤ τ) (hτ : τ ≤ 83 / 10) :
    ∃ r, (seriesFactor fused x).HasValue r ∧ |r - factor τ| ≤ 1 / 10 ^ 5 := by
  have hτ2 : τ ^ 2 ≤ (83 / 10) ^ 2 := pow_le_pow_left₀ hτ0 hτ 2
  have hτ3 : τ ^ 3 ≤ (83 / 10) ^ 3 := pow_le_pow_left₀ hτ0 hτ 3
  have hτ4 : τ ^ 4 ≤ (83 / 10) ^ 4 := pow_le_pow_left₀ hτ0 hτ 4
  have hτ2' := pow_nonneg hτ0 2
  have hτ3' := pow_nonneg hτ0 3
  have hτ4' := pow_nonneg hτ0 4
  obtain ⟨r, hr, hnear⟩ := seriesFactor_rounded fused ht hτ0 hτ le_rfl
  refine ⟨r, hr, ?_⟩
  unfold factor
  rw [abs_le] at hnear ⊢
  ring_nf at hnear ⊢
  constructor <;> linarith

theorem eighth_square_le (hs : s.HasValue S) (hS : |S| ≤ 23) :
    ∃ t, (s.divNat 8 * s.divNat 8).HasValue t ∧ 0 ≤ t ∧ t ≤ 83 / 10 := by
  have heighth : |S / (8 : ℕ)| ≤ 23 / 8 := by
    rw [abs_div, Nat.abs_cast]
    push_cast
    linarith
  have hvalue := hasValue_divNat 8 (by norm_num) hs (abs_le_two_zpow_127 (by linarith))
  have hround := abs_le.1 (roundReal_near (S / (8 : ℕ)))
  generalize roundReal (S / (8 : ℕ)) = e at hvalue hround
  have heighth' := abs_le.1 heighth
  have hsize : |e| ≤ 288 / 100 := by
    rw [abs_le]
    constructor <;> linarith
  have hsquare0 := mul_self_nonneg e
  have hsquare : e * e ≤ 82944 / 10000 := by
    rw [← abs_mul_abs_self e]
    calc |e| * |e| ≤ 288 / 100 * (288 / 100) := mul_le_mul hsize hsize (abs_nonneg e) (by norm_num)
      _ = 82944 / 10000 := by norm_num
  have habs : |e * e| ≤ 10 := by
    rw [abs_of_nonneg hsquare0]
    linarith
  have hlast := (abs_le.1 (roundReal_near (e * e))).2
  rw [abs_of_nonneg hsquare0] at hlast
  exact ⟨_, hasValue_mul hvalue hvalue (abs_le_two_zpow_127 habs), roundReal_nonneg hsquare0,
    by linarith⟩

theorem series_inside (fused : Bool) (hs : s.HasValue S) (hS : |S| ≤ 23) :
    Inside (series fused s) := by
  obtain ⟨t, ht, ht0, ht1⟩ := eighth_square_le hs hS
  obtain ⟨p, hp, hnear⟩ := seriesFactor_within fused ht ht0 ht1
  have hlow := factor_pos ht0 ht1
  have hhigh := factor_mul_le ht0 ht1
  rw [abs_le] at hnear
  have hproduct0 : 0 ≤ p * t := mul_nonneg (by linarith) ht0
  have hproduct : p * t ≤ 2 ^ (2 : ℤ) := by
    have herror : (p - factor t) * t ≤ 1 / 10 ^ 5 * (83 / 10) :=
      mul_le_mul hnear.2 ht1 ht0 (by norm_num)
    norm_num
    linarith
  have hround := roundReal_mono hproduct
  rw [roundReal_two_zpow (by norm_num)] at hround
  norm_num at hround
  refine ⟨_, hasValue_mul hp ht (abs_le_two_zpow_127 ?_), roundReal_nonneg hproduct0, hround⟩
  rw [abs_of_nonneg hproduct0]
  norm_num at hproduct
  linarith

end HalfAngle

/-! ## The reduction -/

namespace Octant

variable {x s r part : Binary32} {a b d X : ℝ} {k l : ℤ}

/-- Taking away a product, rounded once or twice. -/
theorem negMulAdd_near (fused : Bool) (hs : s.HasValue a) (hr : r.HasValue b)
    (hpart : part.HasValue d) (hk : -125 ≤ k) (hk' : k ≤ 127) (hl : -125 ≤ l) (hl' : l ≤ 127)
    (hproduct : |b * d| ≤ 2 ^ k) (hdifference : |a - b * d| + 2 ^ (k - 25) ≤ 2 ^ l) :
    ∃ c, (negMulAdd fused s r part).HasValue c ∧
      |c - (a - b * d)| ≤ 2 ^ (k - 25) + 2 ^ (l - 25) := by
  have hstep : (0 : ℝ) < 2 ^ (k - 25) := zpow_pos two_pos _
  have hfinite : ∀ m : ℤ, m ≤ 127 → (2 : ℝ) ^ m ≤ 2 ^ (127 : ℤ) := fun m hm =>
    zpow_le_zpow_right₀ one_le_two hm
  cases fused with
  | true =>
    have hsum : -b * d + a = a - b * d := by ring
    have hsize : |a - b * d| ≤ 2 ^ l := by linarith
    have hvalue := hasValue_fusedMulAdd (hasValue_neg hr) hpart hs (by
      rw [hsum]
      exact hsize.trans (hfinite l hl'))
    rw [hsum] at hvalue
    have hround := roundReal_error_of_le hsize hl
    exact ⟨_, hvalue, by linarith⟩
  | false =>
    have hrounded := hasValue_mul hr hpart (hproduct.trans (hfinite k hk'))
    have hfirst := roundReal_error_of_le hproduct hk
    generalize roundReal (b * d) = p at hrounded hfirst
    have hcarried : |(a - p) - (a - b * d)| ≤ 2 ^ (k - 25) := by
      rw [sub_sub_sub_cancel_left, abs_sub_comm]
      exact hfirst
    have hsize : |a - p| ≤ 2 ^ l := by
      calc |a - p| = |(a - b * d) + ((a - p) - (a - b * d))| := by rw [add_sub_cancel]
        _ ≤ |a - b * d| + |(a - p) - (a - b * d)| := abs_add_le _ _
        _ ≤ 2 ^ l := by linarith
    have hsecond := roundReal_error_of_le hsize hl
    refine ⟨_, hasValue_sub hs hrounded (hsize.trans (hfinite l hl')), ?_⟩
    calc |roundReal (a - p) - (a - b * d)| =
          |(roundReal (a - p) - (a - p)) + ((a - p) - (a - b * d))| := by rw [sub_add_sub_cancel]
      _ ≤ |roundReal (a - p) - (a - p)| + |(a - p) - (a - b * d)| := abs_add_le _ _
      _ ≤ 2 ^ (k - 25) + 2 ^ (l - 25) := by linarith

theorem evenOctants_near (hs : s.HasValue a) (ha0 : 0 ≤ a) (ha : a < 2 ^ (27 : ℤ)) :
    |(evenOctants s : ℝ) - a * (10680707 / 2 ^ 23)| ≤ 9 := by
  have hproduct : |a * (10680707 / 2 ^ 23)| ≤ 2 ^ (28 : ℤ) := by
    rw [abs_of_nonneg (by positivity)]
    norm_num at ha ⊢
    linarith
  have hround := abs_le.1 (roundReal_error_of_le hproduct (by norm_num))
  obtain ⟨hlow, hhigh⟩ := octants_bounds hs ha0 ha
  obtain ⟨heven0, heven1⟩ := evenOctants_bounds s
  norm_num at hround
  rw [abs_le]
  constructor <;> linarith

/-- What is left of an angle below `2²⁷`: at most 12 for the constant that counts octants, 7 for the
count and 4 for the larger part that is taken away. -/
theorem reduce_mem (fused : Bool) (hx : x.HasValue X) (hX : |X| < 2 ^ (27 : ℤ)) :
    ∃ b, (reduce fused x).angle.HasValue b ∧ |b| ≤ 23 := by
  have hs : (absolute x).HasValue |X| :=
    hasValue_absolute_of_lt (by norm_num) hx hX
  have ha0 := abs_nonneg X
  have hcount := hasValue_evenCount hs ha0 hX
  have hnear := abs_le.1 (evenOctants_near hs ha0 hX)
  have hn0 : (0 : ℝ) ≤ evenOctants (absolute x) := Nat.cast_nonneg _
  change ∃ b, (subtract fused (absolute x)
    (Binary32.ofInt32 (evenCount (count (absolute x))))).HasValue b ∧ |b| ≤ 23
  generalize (evenOctants (absolute x) : ℝ) = n at hcount hnear hn0
  generalize |X| = a at hs hX ha0 hnear
  norm_num at hX
  have hexact : |a - n * (201 / 2 ^ 8) - n * (2077699 / 2 ^ 33)| ≤ 189 / 10 := by
    rw [abs_le]
    constructor <;> linarith
  have hexact' := abs_le.1 hexact
  obtain ⟨b, hb, hfirst⟩ := negMulAdd_near fused hs hcount Coefficients.hasValue_octantHigh
    (k := 27) (l := 16) (by norm_num) (by norm_num) (by norm_num) (by norm_num)
    (by rw [abs_of_nonneg (by positivity)]; norm_num; linarith)
    (by
      have hsize : |a - n * (201 / 2 ^ 8)| ≤ 50000 := by
        rw [abs_le]
        constructor <;> linarith
      norm_num at hsize ⊢
      linarith)
  norm_num at hfirst
  rw [abs_le] at hfirst
  obtain ⟨c, hc, hsecond⟩ := negMulAdd_near fused hb hcount Coefficients.hasValue_octantLow
    (k := 16) (l := 5) (by norm_num) (by norm_num) (by norm_num) (by norm_num)
    (by rw [abs_of_nonneg (by positivity)]; norm_num; linarith)
    (by
      have hsize : |b - n * (2077699 / 2 ^ 33)| ≤ 23 := by
        rw [abs_le]
        constructor <;> linarith
      norm_num at hsize ⊢
      linarith)
  norm_num at hsecond
  refine ⟨c, hc, ?_⟩
  rw [abs_le] at hsecond ⊢
  constructor <;> linarith

end Octant

/-! ## The result -/

variable {x : Binary32} {X : ℝ}

theorem laneSine_not_isNaN (fused : Bool) (hx : x.HasValue X) (hX : |X| < 2 ^ (27 : ℤ)) :
    (laneSine fused x).isNaN = false := by
  obtain ⟨b, hb, hb23⟩ := Octant.reduce_mem fused hx hX
  rw [← Bool.not_eq_true, laneSine_isNaN_iff, not_not]
  exact HalfAngle.series_inside fused hb hb23

theorem laneSine_isNaN (fused : Bool) (hx : x.HasValue X) (hX : 2 ^ (31 : ℤ) ≤ |X|) :
    (laneSine fused x).isNaN = true :=
  isNaN_of_eq_nan (laneSine_beyond fused ((Octant.absolute_atLeast hx).mono hX))

/-- Two finite angles without a result, the first where products are rounded by themselves. -/
theorem laneSine_isNaN_above :
    ((⟨0x4D000C9A⟩ : Binary32).IsFinite ∧ (laneSine false ⟨0x4D000C9A⟩).isNaN = true) ∧
      (⟨0x4D47E0BF⟩ : Binary32).IsFinite ∧ (laneSine true ⟨0x4D47E0BF⟩).isNaN = true := by
  decide +kernel

end
end VectorSine
