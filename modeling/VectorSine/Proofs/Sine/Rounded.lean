import VectorSine.Sine.Rounded
import VectorSine.Proofs.Binary32.RealValue
import VectorSine.Proofs.Sine.Series
import Mathlib.Algebra.Order.Floor.Semifield

/-! # The error of the rounded sine

The fixed-point sine loses a few grains at each factor of its series, the terms that the series
leaves out, and what the grains of `π` lack for every multiple that is taken away. All of this is
far below the one rounding that ends the computation.

* `nested_near`: a nested series in grains is within two grains of the exact one.
* `pow_mul_exactNested`: the exact nested series is a partial sum of the series of the sine.
* `roundedSine_near`: the error of the rounded sine up to `4 π`.
-/

namespace VectorSine
set_option autoImplicit false
noncomputable section

open Binary32

namespace FixedPoint

def amount (n : ℕ) : ℝ := n / grainsPerOne

theorem grainsPerOne_eq : grainsPerOne = 2 ^ 160 * 2 ^ 160 := by
  unfold grainsPerOne
  rw [← Nat.pow_add]

theorem grainsPerOne_pos : (0 : ℝ) < grainsPerOne := by
  rw [grainsPerOne_eq]
  positivity

theorem amount_grainsPerOne : amount grainsPerOne = 1 := div_self grainsPerOne_pos.ne'

theorem amount_nonneg (n : ℕ) : 0 ≤ amount n := div_nonneg n.cast_nonneg grainsPerOne_pos.le

theorem amount_one_le : amount 1 ≤ 1 / 10 ^ 80 := by
  unfold amount
  rw [grainsPerOne_eq]
  norm_num

theorem amount_mono {m n : ℕ} (h : m ≤ n) : amount m ≤ amount n :=
  div_le_div_of_nonneg_right (Nat.cast_le.2 h) grainsPerOne_pos.le

/-- A quotient rounded down is off by less than a grain. -/
theorem amount_div_near (n d : ℕ) : |amount (n / d) - amount n / d| ≤ amount 1 := by
  have hlow := Nat.floor_le (div_nonneg n.cast_nonneg d.cast_nonneg : (0 : ℝ) ≤ n / d)
  have hhigh := Nat.lt_floor_add_one ((n : ℝ) / d)
  rw [Nat.floor_div_eq_div] at hlow hhigh
  have hquotient : amount (n / d) - amount n / d =
      (((n / d : ℕ) : ℝ) - (n : ℝ) / d) / grainsPerOne := by
    unfold amount
    ring
  rw [hquotient, abs_div, abs_of_pos grainsPerOne_pos, amount, Nat.cast_one]
  apply div_le_div_of_nonneg_right _ grainsPerOne_pos.le
  rw [abs_le]
  constructor <;> linarith

theorem amount_mul_near (m n : ℕ) : |amount (m * n / grainsPerOne) - amount m * amount n| ≤
    amount 1 := by
  have hnear := amount_div_near (m * n) grainsPerOne
  have hproduct : amount (m * n) / grainsPerOne = amount m * amount n := by
    unfold amount
    push_cast
    ring
  rw [hproduct] at hnear
  exact hnear

/-! ## The nested series -/

theorem nested_le (z factors j : ℕ) : nested z factors j ≤ grainsPerOne := by
  cases factors with
  | zero => exact le_rfl
  | succ factors => exact Nat.sub_le _ _

/-- The nested series for a square, in exact arithmetic. -/
def exactNested (square : ℝ) : ℕ → ℕ → ℝ
  | 0, _ => 1
  | factors + 1, j =>
    1 - square * exactNested square factors (j + 1) / ((2 * j * (2 * j + 1) : ℕ) : ℝ)

/-- A factor halves what the later ones have lost, and loses a grain. -/
theorem nested_near (z factors j : ℕ) (hz : z ≤ 3 * grainsPerOne) (hj : 1 ≤ j) :
    |amount (nested z factors j) - exactNested (amount z) factors j| ≤ amount 1 + amount 1 := by
  have hgrain := amount_nonneg 1
  -- the later factors enter with a weight of at most one half, so two grains are never exceeded
  induction factors generalizing j with
  | zero =>
    rw [nested, exactNested, amount_grainsPerOne, sub_self, abs_zero]
    linarith
  | succ factors ih =>
    have hlater := ih (j + 1) (by omega)
    have hle := nested_le z factors (j + 1)
    set n := nested z factors (j + 1)
    set e := exactNested (amount z) factors (j + 1)
    set c := 2 * j * (2 * j + 1)
    have hc : 6 ≤ c := by
      have h : 2 * 1 * (2 * 1 + 1) ≤ 2 * j * (2 * j + 1) := by gcongr
      exact h
    have hc' : (6 : ℝ) ≤ c := by exact_mod_cast hc
    have hquotient : z * n / (grainsPerOne * c) ≤ grainsPerOne := by
      apply Nat.div_le_of_le_mul
      calc z * n ≤ 3 * grainsPerOne * grainsPerOne := Nat.mul_le_mul hz hle
        _ ≤ c * grainsPerOne * grainsPerOne := by gcongr; omega
        _ = grainsPerOne * c * grainsPerOne := by ring
    have hexact : amount (nested z (factors + 1) j) = 1 - amount (z * n / (grainsPerOne * c)) := by
      change amount (grainsPerOne - z * n / (grainsPerOne * c)) = _
      unfold amount
      rw [Nat.cast_sub hquotient, sub_div, div_self grainsPerOne_pos.ne']
    have hfloor := amount_div_near (z * n) (grainsPerOne * c)
    have hproduct : amount (z * n) / ((grainsPerOne * c : ℕ) : ℝ) = amount z * amount n / c := by
      unfold amount
      push_cast
      have hpos := grainsPerOne_pos.ne'
      field_simp
    rw [hproduct] at hfloor
    have hz' : amount z / c ≤ 1 / 2 := by
      have hthree : amount z ≤ 3 := by
        rw [amount, div_le_iff₀ grainsPerOne_pos]
        exact_mod_cast hz
      rw [div_le_iff₀ (by linarith)]
      linarith
    have hstep : |amount z * amount n / c - amount z * e / c| ≤ amount 1 := by
      calc |amount z * amount n / c - amount z * e / c| = amount z / c * |amount n - e| := by
            rw [← abs_of_nonneg (div_nonneg (amount_nonneg z) c.cast_nonneg), ← abs_mul]
            congr 1
            ring
        _ ≤ 1 / 2 * (amount 1 + amount 1) :=
            mul_le_mul hz' hlater (abs_nonneg _) (by norm_num)
        _ = amount 1 := by ring
    rw [hexact, exactNested]
    rw [abs_le] at hfloor hstep ⊢
    constructor <;> linarith

theorem pow_mul_exactNested (t : ℝ) (factors j : ℕ) :
    t ^ (2 * j + 1) / (2 * j + 1).factorial * exactNested (t ^ 2) factors (j + 1) =
      ∑ i ∈ Finset.range (factors + 1),
        (-1) ^ i * (t ^ (2 * (i + j) + 1) / (2 * (i + j) + 1).factorial) := by
  induction factors generalizing j with
  | zero => simp [exactNested]
  | succ factors ih =>
    have hlater := ih (j + 1)
    have hshift : ∀ i ∈ Finset.range (factors + 1),
        (-1 : ℝ) ^ (i + 1) * (t ^ (2 * (i + 1 + j) + 1) / (2 * (i + 1 + j) + 1).factorial) =
          -((-1) ^ i * (t ^ (2 * (i + (j + 1)) + 1) / (2 * (i + (j + 1)) + 1).factorial)) := by
      intro i _
      rw [show i + 1 + j = i + (j + 1) by ring]
      ring
    rw [Finset.sum_range_succ', Finset.sum_congr rfl hshift, Finset.sum_neg_distrib, ← hlater]
    rw [exactNested, show 2 * (j + 1) + 1 = 2 * j + 1 + 2 by ring, factorial_add_two, Nat.zero_add]
    have hfactorial : ((2 * j + 1).factorial : ℝ) ≠ 0 :=
      Nat.cast_ne_zero.2 (Nat.factorial_ne_zero _)
    push_cast
    field_simp
    ring

theorem exactNested_near_sin {t : ℝ} (ht0 : 0 ≤ t) (ht : t ≤ 2) :
    |t * exactNested (t ^ 2) factorCount 1 - Real.sin t| ≤ 1 / 10 ^ 20 := by
  have hsum := pow_mul_exactNested t factorCount 0
  rw [Nat.mul_zero, Nat.zero_add, Nat.factorial_one, Nat.cast_one, pow_one, div_one] at hsum
  have hterms := abs_sin_sub_sum_le ht0 ht (factorCount + 1)
  have hlast : t ^ 67 / ((67).factorial : ℝ) ≤ 1 / 10 ^ 20 := by
    calc t ^ 67 / ((67).factorial : ℝ) ≤ 2 ^ 67 / ((67).factorial : ℝ) := by gcongr
      _ ≤ 1 / 10 ^ 20 := by norm_num [Nat.factorial]
  rw [hsum, abs_sub_comm]
  exact hterms.trans hlast

theorem sinc_near {x : ℕ} (hx : amount x ≤ 8 / 5) :
    |amount x * amount (sinc x) - Real.sin (amount x)| ≤ 1 / 10 ^ 19 := by
  have hx0 := amount_nonneg x
  have hgrain := amount_one_le
  set z := x * x / grainsPerOne with hz
  have hsquare : |amount z - amount x * amount x| ≤ 0 * (amount x * amount x) + 1 / 10 ^ 80 := by
    rw [zero_mul, zero_add]
    exact (amount_mul_near x x).trans hgrain
  have hroot := abs_sqrt_sub_le (amount_nonneg z) (mul_self_nonneg _) hsquare le_rfl (by norm_num)
    (by norm_num)
  have hrest : √(1 / 10 ^ 80 : ℝ) = 1 / 10 ^ 40 := by
    rw [Real.sqrt_eq_iff_mul_self_eq (by norm_num) (by norm_num)]
    norm_num
  rw [Real.sqrt_mul_self hx0, mul_zero, zero_mul, zero_add, hrest] at hroot
  set t := √(amount z) with ht
  have ht0 : 0 ≤ t := Real.sqrt_nonneg _
  have hroot' := abs_le.1 hroot
  have hthree : z ≤ 3 * grainsPerOne := by
    have hproduct : amount x * amount x ≤ 8 / 5 * (8 / 5) := mul_self_le_mul_self hx0 hx
    have hsquare' := (abs_le.1 hsquare).2
    have hreal : amount z ≤ 3 := by linarith
    rw [amount, div_le_iff₀ grainsPerOne_pos] at hreal
    exact_mod_cast hreal
  have hnested := nested_near z factorCount 1 hthree le_rfl
  have hpartial := exactNested_near_sin ht0 (by linarith)
  rw [ht, Real.sq_sqrt (amount_nonneg z), ← ht] at hpartial
  have hsin := (Real.abs_sin_sub_sin_le t (amount x)).trans hroot
  have hn1 : amount (nested z factorCount 1) ≤ 1 :=
    (amount_mono (nested_le z factorCount 1)).trans_eq amount_grainsPerOne
  have hn0 := amount_nonneg (nested z factorCount 1)
  change |amount x * amount (nested z factorCount 1) - _| ≤ _
  set n := amount (nested z factorCount 1)
  set e := exactNested (amount z) factorCount 1
  have he : |e| ≤ 2 := by
    rw [abs_le] at hnested ⊢
    constructor <;> linarith
  have hfirst : |amount x * (n - e)| ≤ 1 / 10 ^ 40 := by
    rw [abs_mul, abs_of_nonneg hx0]
    calc amount x * |n - e| ≤ 8 / 5 * (amount 1 + amount 1) :=
          mul_le_mul hx hnested (abs_nonneg _) (by norm_num)
      _ ≤ 1 / 10 ^ 40 := by linarith
  have hsecond : |(t - amount x) * e| ≤ 2 / 10 ^ 40 := by
    rw [abs_mul]
    calc |t - amount x| * |e| ≤ 1 / 10 ^ 40 * 2 :=
          mul_le_mul hroot he (abs_nonneg _) (by norm_num)
      _ = 2 / 10 ^ 40 := by ring
  have hsplit : amount x * n - Real.sin (amount x) = amount x * (n - e) - (t - amount x) * e +
      (t * e - Real.sin t) + (Real.sin t - Real.sin (amount x)) := by ring
  rw [hsplit]
  rw [abs_le] at hfirst hsecond hpartial hsin ⊢
  constructor <;> linarith

/-! ## Multiples of `π` -/

theorem piGrains_near : |amount piGrains - Real.pi| ≤ 1 / 10 ^ 20 := by
  have hlow := Real.pi_gt_d20
  have hhigh := Real.pi_lt_d20
  have hgrainsLow : (314159265358979323846 : ℝ) / 10 ^ 20 ≤ amount piGrains := by
    unfold amount
    rw [grainsPerOne_eq]
    norm_num [piGrains]
  have hgrainsHigh : amount piGrains ≤ 314159265358979323847 / 10 ^ 20 := by
    unfold amount
    rw [grainsPerOne_eq]
    norm_num [piGrains]
  norm_num at hlow hhigh hgrainsLow hgrainsHigh
  rw [abs_le]
  constructor <;> linarith

theorem piGrains_pos : 0 < piGrains := by decide

theorem signed_distance (x y : ℕ) :
    Datum.signed (decide (x < y)) (if x < y then y - x else x - y) = (x : ℤ) - y := by
  unfold Datum.signed
  by_cases h : x < y
  · rw [decide_eq_true h, if_pos rfl, if_pos h]
    omega
  · rw [decide_eq_false h, if_neg Bool.false_ne_true, if_neg h]
    omega

/-- An angle is its nearest multiple of `π` and a signed distance. -/
theorem reduce_eq (x : ℕ) : (x : ℤ) = nearestQuotient x piGrains * piGrains +
    Datum.signed (reduce x).below (reduce x).distance := by
  have hdistance := signed_distance x (nearestQuotient x piGrains * piGrains)
  change _ = _ + Datum.signed (decide (x < nearestQuotient x piGrains * piGrains)) _
  change _ = _ + Datum.signed _ (if x < nearestQuotient x piGrains * piGrains then _ else _)
  rw [hdistance]
  push_cast
  ring

theorem signed_div (negative : Bool) (n : ℕ) :
    ((Datum.signed negative n : ℤ) : ℝ) / grainsPerOne =
      if negative then -amount n else amount n := by
  cases negative <;> simp [Datum.signed, amount, neg_div]

/-- The sine is odd, so a sign on both sides does not change an error. -/
theorem abs_signed_sub_sin_le {s θ δ : ℝ} (negative : Bool) (h : |s - Real.sin θ| ≤ δ) :
    |(if negative then -s else s) - Real.sin (if negative then -θ else θ)| ≤ δ := by
  cases negative with
  | true =>
    rw [if_pos rfl, if_pos rfl, Real.sin_neg, neg_sub_neg, abs_sub_comm]
    exact h
  | false => exact h

theorem signed_turned (below : Bool) (m n : ℕ) :
    ((Datum.signed (below ^^ (m % 2 == 1)) n : ℤ) : ℝ) / grainsPerOne =
      (-1) ^ m * (if below then -amount n else amount n) := by
  rw [signed_div]
  rcases Nat.even_or_odd m with heven | hodd
  · rw [heven.neg_one_pow, Nat.even_iff.1 heven]
    cases below <;> simp
  · rw [hodd.neg_one_pow, Nat.odd_iff.1 hodd]
    cases below <;> simp

theorem amount_reduce (x : ℕ) : amount x = nearestQuotient x piGrains * amount piGrains +
    (if (reduce x).below then -amount (reduce x).distance else amount (reduce x).distance) := by
  have hangle := congrArg (fun z : ℤ => (z : ℝ) / grainsPerOne) (reduce_eq x)
  simp only [Int.cast_add, Int.cast_mul, Int.cast_natCast, add_div, signed_div] at hangle
  unfold amount at hangle ⊢
  rw [hangle, mul_div_assoc]

theorem distance_le (x : ℕ) : amount (reduce x).distance ≤ 8 / 5 := by
  have hlow := nearestQuotient_le x piGrains piGrains_pos
  have hhigh := le_nearestQuotient x piGrains piGrains_pos
  have hdistance : 2 * (reduce x).distance ≤ piGrains := by
    rw [Nat.mul_comm piGrains] at hlow hhigh
    unfold reduce
    dsimp only
    split <;> omega
  have hpi := (abs_le.1 piGrains_near).2
  have hpiHigh := Real.pi_lt_d20
  have hamount := amount_mono hdistance
  have htwo : amount (2 * (reduce x).distance) = 2 * amount (reduce x).distance := by
    unfold amount
    push_cast
    ring
  norm_num at hpiHigh
  linarith

theorem multiple_le {x : ℕ} (hx : amount x ≤ 4 * Real.pi) : nearestQuotient x piGrains ≤ 4 := by
  have hpi := abs_le.1 piGrains_near
  have hpiLow := Real.pi_gt_three
  have hlow := amount_mono (nearestQuotient_le x piGrains piGrains_pos)
  by_contra hmany
  have hfive : amount (2 * (piGrains * 5)) ≤
      amount (2 * (piGrains * nearestQuotient x piGrains)) := by
    apply amount_mono
    gcongr
    omega
  have hten : amount (2 * (piGrains * 5)) = 10 * amount piGrains := by
    unfold amount
    push_cast
    ring
  have hsum : amount (2 * x + piGrains) = 2 * amount x + amount piGrains := by
    unfold amount
    push_cast
    ring
  linarith

theorem sine_near {x : ℕ} (hx : amount x ≤ 4 * Real.pi) :
    |((Datum.signed (sine x).1 (sine x).2 : ℤ) : ℝ) / grainsPerOne - Real.sin (amount x)| ≤
      1 / 10 ^ 18 := by
  have hangle := amount_reduce x
  have hdistance := distance_le x
  have hmultiple : (nearestQuotient x piGrains : ℝ) ≤ 4 := by exact_mod_cast multiple_le hx
  change |((Datum.signed ((reduce x).below ^^ (nearestQuotient x piGrains % 2 == 1))
    ((reduce x).distance * sinc (reduce x).distance / grainsPerOne) : ℤ) : ℝ) /
      grainsPerOne - _| ≤ _
  rw [signed_turned]
  set m := nearestQuotient x piGrains
  set below := (reduce x).below
  set d := (reduce x).distance
  have hgrains : |amount (d * sinc d / grainsPerOne) - Real.sin (amount d)| ≤ 2 / 10 ^ 19 := by
    have hproduct := amount_mul_near d (sinc d)
    have hsinc := sinc_near hdistance
    have hgrain := amount_one_le
    rw [abs_le] at hproduct hsinc ⊢
    constructor <;> linarith
  set offset := if below then -amount d else amount d with hoffset
  have hsine := abs_signed_sub_sin_le below hgrains
  rw [← hoffset] at hsine
  have hmoved : |Real.sin (offset + m * Real.pi) - Real.sin (amount x)| ≤ 4 / 10 ^ 20 := by
    have hgap : offset + m * Real.pi - amount x = -(m * (amount piGrains - Real.pi)) := by
      rw [hangle]
      ring
    calc |Real.sin (offset + m * Real.pi) - Real.sin (amount x)|
        ≤ |offset + m * Real.pi - amount x| := Real.abs_sin_sub_sin_le _ _
      _ = m * |amount piGrains - Real.pi| := by
        rw [hgap, abs_neg, abs_mul, Nat.abs_cast]
      _ ≤ 4 * (1 / 10 ^ 20) :=
        mul_le_mul hmultiple piGrains_near (abs_nonneg _) (by norm_num)
      _ = 4 / 10 ^ 20 := by ring
  have hturned : |(-1) ^ m * (if below then -amount (d * sinc d / grainsPerOne)
      else amount (d * sinc d / grainsPerOne)) - Real.sin (offset + m * Real.pi)| ≤
        2 / 10 ^ 19 := by
    rw [Real.sin_add_nat_mul_pi, ← mul_sub, abs_mul, abs_neg_one_pow, one_mul]
    exact hsine
  rw [abs_le] at hturned hmoved ⊢
  constructor <;> linarith

end FixedPoint

/-! ## Rounding -/

theorem grainsPerOne_eq_quanta :
    FixedPoint.grainsPerOne = Datum.grainsPerQuantum * Binary32.quantaPerOne := by
  unfold FixedPoint.grainsPerOne Datum.grainsPerQuantum Binary32.quantaPerOne
  rw [← Nat.pow_add]

theorem grainsPerQuantum_pos : 0 < Datum.grainsPerQuantum := by decide

theorem div_grainsPerOne (z : ℝ) : z / FixedPoint.grainsPerOne =
    z / Datum.grainsPerQuantum * 2 ^ (-149 : ℤ) := by
  rw [Binary32.quantum_eq_inv, grainsPerOne_eq_quanta]
  push_cast
  rw [div_mul_eq_div_div, div_eq_mul_inv]

theorem amount_quanta (negative : Bool) (q : ℕ) :
    (Datum.signed negative q : ℝ) * 2 ^ (-149 : ℤ) =
      if negative then -FixedPoint.amount (q * Datum.grainsPerQuantum)
      else FixedPoint.amount (q * Datum.grainsPerQuantum) := by
  have hpos : (Datum.grainsPerQuantum : ℝ) ≠ 0 := Nat.cast_ne_zero.2 grainsPerQuantum_pos.ne'
  rw [FixedPoint.amount, div_grainsPerOne, Nat.cast_mul, mul_div_cancel_right₀ _ hpos]
  cases negative <;> simp [Datum.signed]

theorem signed_xor_div (a b : Bool) (n : ℕ) :
    (Datum.signed (a ^^ b) n : ℝ) / Datum.grainsPerQuantum * 2 ^ (-149 : ℤ) =
      if a then -((Datum.signed b n : ℝ) / FixedPoint.grainsPerOne)
      else (Datum.signed b n : ℝ) / FixedPoint.grainsPerOne := by
  rw [← div_grainsPerOne]
  cases a <;> cases b <;> simp [Datum.signed, neg_div]

/-- The rounded sine is off by half a step of the numbers near one, and by what little the fixed
point loses. -/
theorem roundedSine_near {x : Binary32} {X : ℝ} (hx : x.HasValue X) (hX : |X| ≤ 4 * Real.pi) :
    ∃ y, (roundedSine x).HasValue y ∧ |y - Real.sin X| ≤ 1 / 10 ^ 7 := by
  obtain ⟨negative, q, hq, rfl⟩ := hx.datum
  rw [amount_quanta] at hX ⊢
  set grains := q * Datum.grainsPerQuantum
  have hrange : FixedPoint.amount grains ≤ 4 * Real.pi := by
    rw [abs_le] at hX
    cases negative with
    | true => exact neg_le_neg_iff.1 hX.1
    | false => exact hX.2
  have hsine := FixedPoint.abs_signed_sub_sin_le negative (FixedPoint.sine_near hrange)
  have hrounded : roundedSine x = (Datum.finite (negative ^^ (FixedPoint.sine grains).1)
      (FixedPoint.sine grains).2).round Datum.grainsPerQuantum := by
    unfold roundedSine
    rw [hq]
    rfl
  rw [hrounded]
  have hround := hasValue_round (negative ^^ (FixedPoint.sine grains).1) (FixedPoint.sine grains).2
    Datum.grainsPerQuantum grainsPerQuantum_pos
  rw [signed_xor_div] at hround
  set exact := if negative then -((Datum.signed (FixedPoint.sine grains).1
    (FixedPoint.sine grains).2 : ℝ) / FixedPoint.grainsPerOne)
    else (Datum.signed (FixedPoint.sine grains).1 (FixedPoint.sine grains).2 : ℝ) /
      FixedPoint.grainsPerOne
  set θ := if negative then -FixedPoint.amount grains else FixedPoint.amount grains
  have hsize : |exact| ≤ 2 := by
    have hone := abs_le.1 (Real.abs_sin_le_one θ)
    rw [abs_le] at hsine ⊢
    constructor <;> linarith
  have herror := roundReal_near_of_le_two hsize
  refine ⟨roundReal exact, hround (abs_roundReal_lt (hsize.trans (by norm_num))), ?_⟩
  rw [abs_le] at hsine herror ⊢
  constructor <;> linarith

end
end VectorSine
