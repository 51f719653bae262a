import VectorSine.Pipeline.HalfAngle
import VectorSine.Proofs.Pipeline.Octant
import VectorSine.Proofs.Sine.Series

/-! # The error of the half angle

For a reduced angle `S` of size at most `0.8` each step of the half angle computation is compared
with the same step on reals. The series and the doublings have small relative errors, about
`1.8·10⁻⁷` after the series and `1.2·10⁻⁷` more for each doubling; a root halves a relative error,
so both functions are off by less than `3·10⁻⁷`. The absolute terms near `10⁻³⁸` stand for what is
lost below the least quantum.

* `series_near`, `double_near`: the two relative errors.
* `sineCosine_near`: the errors of both functions.
* `sineCosine_within`: the same for the numbers themselves, up to `0.8`.
-/

namespace VectorSine
set_option autoImplicit false
noncomputable section

open Binary32

variable {x y z s v : Binary32} {a b c : ℝ}

/-! ## Products and sums -/

/-- A product and a sum, rounded once or twice. -/
theorem mulAdd_near (fused : Bool) (hx : x.HasValue a) (hy : y.HasValue b) (hz : z.HasValue c)
    {P Q : ℝ} (hP : |a * b| ≤ P) (hQ : |a * b + c| ≤ Q) (hP' : P ≤ 5) (hQ' : Q ≤ 5) :
    ∃ r, (mulAdd fused z x y).HasValue r ∧
      |r - (a * b + c)| ≤ 6 / 10 ^ 8 * (P + Q) + 1 / 10 ^ 39 := by
  have hP0 : 0 ≤ P := (abs_nonneg _).trans hP
  have hQ0 : 0 ≤ Q := (abs_nonneg _).trans hQ
  cases fused with
  | true =>
    refine ⟨_, hasValue_fusedMulAdd hx hy hz (abs_le_two_zpow_127 (by linarith)), ?_⟩
    have hround := roundReal_near (a * b + c)
    linarith
  | false =>
    have hproduct := hasValue_mul hx hy (abs_le_two_zpow_127 (by linarith))
    have hround := roundReal_near (a * b)
    have hsum : |c + roundReal (a * b) - (a * b + c)| ≤ 597 / 10 ^ 10 * P + 1 / 10 ^ 40 := by
      rw [show c + roundReal (a * b) - (a * b + c) = roundReal (a * b) - a * b by ring]
      linarith
    have hsize : |c + roundReal (a * b)| ≤ 10 := by
      calc |c + roundReal (a * b)| =
            |(a * b + c) + (c + roundReal (a * b) - (a * b + c))| := by rw [add_sub_cancel]
        _ ≤ |a * b + c| + |c + roundReal (a * b) - (a * b + c)| := abs_add_le _ _
        _ ≤ 10 := by linarith
    refine ⟨_, hasValue_add hz hproduct (abs_le_two_zpow_127 hsize), ?_⟩
    have htotal := roundReal_near_of_near hsum
    linarith

theorem mulSub_eq_mulAdd (fused : Bool) (x y z : Binary32) :
    mulSub fused z x y = mulAdd fused (-z) x y := by
  cases fused with
  | true => rfl
  | false => exact add_comm_binary32 (x * y) (-z)

/-! ## The series -/

namespace HalfAngle

variable {S T τ π P δ A C : ℝ}

/-- A step of the polynomial: the error of the factor counts by the square of the angle. -/
theorem step_near (fused : Bool) (hx : x.HasValue π) (hy : y.HasValue τ) (hz : z.HasValue c)
    (hτ0 : 0 ≤ τ) (hτ : τ ≤ T) (hclose : |π - P| ≤ δ) (hP : |P| ≤ A) (hc : |c| ≤ C)
    (hsize : (A + δ) * T + C ≤ 5) :
    ∃ r, (mulAdd fused z x y).HasValue r ∧
      |r - (P * τ + c)| ≤ δ * T + 6 / 10 ^ 8 * (2 * ((A + δ) * T) + C) + 1 / 10 ^ 39 := by
  have hδ : 0 ≤ δ := (abs_nonneg _).trans hclose
  have hA0 : 0 ≤ A := (abs_nonneg _).trans hP
  have hC0 : 0 ≤ C := (abs_nonneg _).trans hc
  have hπ : |π| ≤ A + δ := by
    calc |π| = |P + (π - P)| := by rw [add_sub_cancel]
      _ ≤ |P| + |π - P| := abs_add_le _ _
      _ ≤ A + δ := add_le_add hP hclose
  have hproduct : |π * τ| ≤ (A + δ) * T := by
    rw [abs_mul, abs_of_nonneg hτ0]
    exact mul_le_mul hπ hτ hτ0 (by linarith)
  have hsum : |π * τ + c| ≤ (A + δ) * T + C := (abs_add_le _ _).trans (add_le_add hproduct hc)
  obtain ⟨r, hr, hnear⟩ := mulAdd_near fused hx hy hz hproduct hsum (by linarith) hsize
  refine ⟨r, hr, ?_⟩
  have hcarried : |π * τ + c - (P * τ + c)| ≤ δ * T := by
    rw [show π * τ + c - (P * τ + c) = (π - P) * τ by ring, abs_mul, abs_of_nonneg hτ0]
    exact mul_le_mul hclose hτ hτ0 hδ
  calc |r - (P * τ + c)| = |(r - (π * τ + c)) + (π * τ + c - (P * τ + c))| := by
        rw [sub_add_sub_cancel]
    _ ≤ |r - (π * τ + c)| + |π * τ + c - (P * τ + c)| := abs_add_le _ _
    _ ≤ δ * T + 6 / 10 ^ 8 * (2 * ((A + δ) * T) + C) + 1 / 10 ^ 39 := by linarith

/-- The polynomial, with the coefficients that it has. What is lost in the last step counts most. -/
theorem seriesFactor_rounded (fused : Bool) (ht : x.HasValue τ) (hτ0 : 0 ≤ τ) (hτ : τ ≤ T)
    (hT : T ≤ 83 / 10) :
    ∃ r, (seriesFactor fused x).HasValue r ∧
      |r - ((((τ * (9693295 / 2 ^ 44) - 13634769 / 2 ^ 38) * τ + 5965233 / 2 ^ 31) * τ -
        11184811 / 2 ^ 27) * τ + 1)| ≤ 6 / 10 ^ 8 + 21 / 10 ^ 9 * T + 1 / 10 ^ 39 := by
  have hτ' := hτ.trans hT
  have hτ2 : τ ^ 2 ≤ (83 / 10) ^ 2 := pow_le_pow_left₀ hτ0 hτ' 2
  have hτ3 : τ ^ 3 ≤ (83 / 10) ^ 3 := pow_le_pow_left₀ hτ0 hτ' 3
  have hτ2' := pow_nonneg hτ0 2
  have hτ3' := pow_nonneg hτ0 3
  unfold seriesFactor
  simp only [mulSub_eq_mulAdd]
  obtain ⟨r4, hr4, hnear4⟩ := step_near fused ht Coefficients.hasValue_c5
    (hasValue_neg Coefficients.hasValue_c4) (P := τ) (T := 6 / 10 ^ 7) (δ := 0) (A := 83 / 10)
    (C := 5 / 10 ^ 5) (by norm_num) (by norm_num) (by simp) (by rwa [abs_of_nonneg hτ0])
    (by rw [abs_neg, abs_of_pos] <;> norm_num) (by norm_num)
  obtain ⟨r3, hr3, hnear3⟩ := step_near fused hr4 ht Coefficients.hasValue_c3 hτ0 hτ'
    (hnear4.trans (by norm_num)) (δ := 4 / 10 ^ 12) (A := 5 / 10 ^ 5) (C := 278 / 10 ^ 5)
    (by rw [abs_le]; constructor <;> norm_num <;> linarith) (by rw [abs_le]; norm_num)
    (by norm_num)
  obtain ⟨r2, hr2, hnear2⟩ := step_near fused hr3 ht (hasValue_neg Coefficients.hasValue_c2) hτ0 hτ'
    (hnear3.trans (by norm_num)) (δ := 26 / 10 ^ 11) (A := 3 / 10 ^ 3) (C := 834 / 10 ^ 4)
    (by rw [abs_le]; constructor <;> ring_nf <;> norm_num <;> linarith) (by rw [abs_le]; norm_num)
    (by norm_num)
  obtain ⟨r1, hr1, hnear1⟩ := step_near fused hr2 ht Coefficients.hasValue_c1 hτ0 hτ
    (hnear2.trans (by norm_num)) (δ := 103 / 10 ^ 10) (A := 87 / 10 ^ 3) (C := 1)
    (by rw [abs_le]; constructor <;> ring_nf <;> norm_num <;> linarith) (by rw [abs_one])
    (by norm_num; linarith)
  refine ⟨r1, hr1, ?_⟩
  simp only [← sub_eq_add_neg] at hnear1
  linarith

/-- The polynomial is the beginning of the series of `versine`, divided by the square. -/
theorem seriesFactor_near (fused : Bool) (ht : x.HasValue τ) (hτ0 : 0 ≤ τ) (hτ : τ ≤ 1 / 99) :
    ∃ r, (seriesFactor fused x).HasValue r ∧
      |r - (1 - τ / 12 + τ ^ 2 / 360)| ≤ 603 / 10 ^ 10 := by
  have hτ2 : τ ^ 2 ≤ (1 / 99) ^ 2 := pow_le_pow_left₀ hτ0 hτ 2
  have hτ3 : τ ^ 3 ≤ (1 / 99) ^ 3 := pow_le_pow_left₀ hτ0 hτ 3
  have hτ4 : τ ^ 4 ≤ (1 / 99) ^ 4 := pow_le_pow_left₀ hτ0 hτ 4
  have hτ2' := pow_nonneg hτ0 2
  have hτ3' := pow_nonneg hτ0 3
  have hτ4' := pow_nonneg hτ0 4
  obtain ⟨r, hr, hnear⟩ := seriesFactor_rounded fused ht hτ0 hτ (by norm_num)
  refine ⟨r, hr, ?_⟩
  rw [abs_le] at hnear ⊢
  ring_nf at hnear ⊢
  constructor <;> linarith

/-- The square of an eighth, the eighth being exact but for what is lost below the quantum. -/
theorem eighth_square_near (hs : s.HasValue S) (hS : |S| ≤ 4 / 5) :
    ∃ t, (s.divNat 8 * s.divNat 8).HasValue t ∧ 0 ≤ t ∧
      |t - (S / 8) ^ 2| ≤ 597 / 10 ^ 10 * (S / 8) ^ 2 + 1 / 10 ^ 39 := by
  have heighth : |S / 8| ≤ 1 / 10 := by
    rw [abs_div, abs_of_pos (by norm_num : (0 : ℝ) < 8)]
    linarith
  obtain ⟨e, he, hnear⟩ : ∃ e, (s.divNat 8).HasValue e ∧ |e - S / 8| ≤ 1 / 10 ^ 40 := by
    refine ⟨_, hasValue_divNat 8 (by norm_num) hs (abs_le_two_zpow_127 ?_), ?_⟩
    · push_cast
      linarith
    · have hexact := hs.roundReal_div_two_pow 3
      have height : (2 : ℝ) ^ 3 = ((8 : ℕ) : ℝ) := by norm_num
      rw [height] at hexact
      push_cast at hexact ⊢
      exact hexact.trans (by norm_num)
  rw [abs_le] at heighth hnear
  have hsquare : |e * e - (S / 8) ^ 2| ≤ 3 / 10 ^ 41 := by
    have hfactor : e * e - (S / 8) ^ 2 = (e - S / 8) * (e + S / 8) := by ring
    have hdifference : |e - S / 8| ≤ 1 / 10 ^ 40 := abs_le.2 hnear
    have hsum : |e + S / 8| ≤ 3 / 10 := by
      rw [abs_le]
      constructor <;> linarith
    rw [hfactor, abs_mul]
    calc |e - S / 8| * |e + S / 8| ≤ 1 / 10 ^ 40 * (3 / 10) :=
          mul_le_mul hdifference hsum (abs_nonneg _) (by norm_num)
      _ = 3 / 10 ^ 41 := by norm_num
  have hsize : |e * e| ≤ 10 := by
    rw [abs_mul_self]
    nlinarith
  refine ⟨_, hasValue_mul he he (abs_le_two_zpow_127 hsize), roundReal_nonneg (mul_self_nonneg e),
    ?_⟩
  have hround := roundReal_near_of_near hsquare
  rw [abs_of_nonneg (sq_nonneg (S / 8))] at hround
  linarith

/-- The series from the square and the polynomial, each with its own error, before the last
rounding. -/
theorem series_product_near {t p V : ℝ} (hT0 : 0 ≤ T) (hT1 : T ≤ 1 / 100) (ht0 : 0 ≤ t)
    (hsquare : |t - T| ≤ 597 / 10 ^ 10 * T + 1 / 10 ^ 39)
    (hfactor : |p - (1 - t / 12 + t ^ 2 / 360)| ≤ 603 / 10 ^ 10)
    (hseries : |V - (T - T ^ 2 / 12 + T ^ 3 / 360)| ≤ T ^ 4 / 20160) :
    |p * t - V| ≤ 1206 / 10 ^ 10 * T + 2 / 10 ^ 39 ∧ T ≤ 1001 / 1000 * V ∧ 0 ≤ p := by
  have hT2 : T ^ 2 ≤ T / 100 := by nlinarith
  have hT3 : T ^ 3 ≤ T / 10000 := by nlinarith [mul_nonneg hT0 hT0]
  have hT4 : T ^ 4 ≤ T / 1000000 := by nlinarith [pow_nonneg hT0 3]
  have hT3' := pow_nonneg hT0 3
  have ht1 : t ≤ 1 / 99 := by
    have h := (abs_le.1 hsquare).2
    linarith
  have ht2 : t ^ 2 ≤ 1 / 9801 := by nlinarith
  have hp := abs_le.1 hfactor
  have hp0 : 0 ≤ p := by nlinarith
  have hp1 : p ≤ 10001 / 10000 := by nlinarith
  have hcarried : |p * (t - T)| ≤ 10001 / 10000 * (597 / 10 ^ 10 * T + 1 / 10 ^ 39) := by
    rw [abs_mul, abs_of_nonneg hp0]
    exact mul_le_mul hp1 hsquare (abs_nonneg _) (by norm_num)
  have hpolynomial : |T * (p - (1 - t / 12 + t ^ 2 / 360))| ≤ T * (603 / 10 ^ 10) := by
    rw [abs_mul, abs_of_nonneg hT0]
    exact mul_le_mul_of_nonneg_left hfactor hT0
  have hargument : |T * ((t - T) * (-1 / 12 + (t + T) / 360))| ≤
      1 / 100 * ((597 / 10 ^ 10 * T + 1 / 10 ^ 39) * (1 / 10)) := by
    have hslope : |-1 / 12 + (t + T) / 360| ≤ 1 / 10 := by
      rw [abs_le]
      constructor <;> linarith
    rw [abs_mul, abs_mul, abs_of_nonneg hT0]
    have hproduct := mul_le_mul hsquare hslope (abs_nonneg _) ((abs_nonneg _).trans hsquare)
    exact mul_le_mul hT1 hproduct (mul_nonneg (abs_nonneg _) (abs_nonneg _)) (by norm_num)
  have hsplit : p * t - V = p * (t - T) + T * (p - (1 - t / 12 + t ^ 2 / 360)) +
      T * ((t - T) * (-1 / 12 + (t + T) / 360)) - (V - (T - T ^ 2 / 12 + T ^ 3 / 360)) := by
    ring
  refine ⟨?_, ?_, hp0⟩
  · rw [hsplit]
    rw [abs_le] at *
    constructor <;> linarith
  · have hlow := (abs_le.1 hseries).1
    linarith

theorem series_near (fused : Bool) (hs : s.HasValue S) (hS : |S| ≤ 4 / 5) :
    ∃ r, (series fused s).HasValue r ∧ 0 ≤ r ∧
      |r - versine (S / 8)| ≤ 181 / 10 ^ 9 * versine (S / 8) + 1 / 10 ^ 38 := by
  obtain ⟨t, ht, ht0, hsquare⟩ := eighth_square_near hs hS
  have hseries := versine_series (θ := S / 8) (by
    rw [abs_div, abs_of_pos (by norm_num : (0 : ℝ) < 8)]
    linarith)
  have hT1 : (S / 8) ^ 2 ≤ 1 / 100 := by
    rw [← sq_abs]
    have h : |S / 8| ≤ 1 / 10 := by
      rw [abs_div, abs_of_pos (by norm_num : (0 : ℝ) < 8)]
      linarith
    nlinarith [abs_nonneg (S / 8)]
  have hpow4 : (S / 8) ^ 4 = ((S / 8) ^ 2) ^ 2 := by ring
  have hpow6 : (S / 8) ^ 6 = ((S / 8) ^ 2) ^ 3 := by ring
  have hpow8 : (S / 8) ^ 8 = ((S / 8) ^ 2) ^ 4 := by ring
  rw [hpow4, hpow6, hpow8] at hseries
  have hV0 := versine_nonneg (S / 8)
  have hV1 : versine (S / 8) ≤ 1 / 100 := (versine_le_sq _).trans hT1
  have hT0 := sq_nonneg (S / 8)
  generalize versine (S / 8) = V at hseries hV0 hV1 ⊢
  generalize (S / 8) ^ 2 = T at hT0 hT1 hsquare hseries
  have ht1 : t ≤ 1 / 99 := by
    have h := (abs_le.1 hsquare).2
    linarith
  obtain ⟨p, hp, hfactor⟩ := seriesFactor_near fused ht ht0 ht1
  obtain ⟨hproduct, hTV, hp0⟩ := series_product_near hT0 hT1 ht0 hsquare hfactor hseries
  have hsize : |p * t| ≤ 10 := by
    have h := abs_le.1 hproduct
    rw [abs_le]
    constructor <;> linarith
  refine ⟨_, hasValue_mul hp ht (abs_le_two_zpow_127 hsize), roundReal_nonneg (mul_nonneg hp0 ht0),
    ?_⟩
  have hround := roundReal_near_of_near hproduct
  rw [abs_of_nonneg hV0] at hround
  linarith

/-! ## Doublings -/

/-- A product with what is left to a constant, two roundings included. A relative error is kept, as
the quotient of `K - 2 V` and `K - V` is at most one, and those of the roundings are added. -/
theorem rest_product_near {K V ρ η : ℝ} (ha : 0 ≤ a) (hV0 : 0 ≤ V) (hV1 : V ≤ 1) (hK : K ≤ 4)
    (hsum : a + V ≤ K) (hclose : |a - V| ≤ ρ * V + η) (hρ0 : 0 ≤ ρ) (hρ : ρ ≤ 1 / 10 ^ 6)
    (hη0 : 0 ≤ η) (hη : η ≤ 1 / 10 ^ 30) :
    |a * roundReal (K - a)| ≤ 10 ∧
      |roundReal (a * roundReal (K - a)) - V * (K - V)| ≤
        (ρ + 1195 / 10 ^ 10) * (V * (K - V)) + (5 * η + 1 / 10 ^ 38) := by
  have ha2 : a ≤ 2 := by
    have h := (abs_le.1 hclose).2
    nlinarith
  have hrest0 : 0 ≤ K - a := by linarith
  have hround := roundReal_near (K - a)
  rw [abs_of_nonneg hrest0] at hround
  have hM0 : 0 ≤ V * (K - V) := mul_nonneg hV0 (by linarith)
  have hcarried : |a * (K - a) - V * (K - V)| ≤ ρ * (V * (K - V)) + 4 * η := by
    have hfactor : a * (K - a) - V * (K - V) = (a - V) * (K - a - V) := by ring
    have hslope : |K - a - V| ≤ K - V := by
      rw [abs_of_nonneg (by linarith)]
      linarith
    have hηK : η * (K - V) ≤ η * 4 := mul_le_mul_of_nonneg_left (by linarith) hη0
    rw [hfactor, abs_mul]
    calc |a - V| * |K - a - V| ≤ (ρ * V + η) * (K - V) :=
          mul_le_mul hclose hslope (abs_nonneg _) ((abs_nonneg _).trans hclose)
      _ = ρ * (V * (K - V)) + η * (K - V) := by ring
      _ ≤ ρ * (V * (K - V)) + 4 * η := by linarith
  have hfirst : |a * roundReal (K - a) - a * (K - a)| ≤
      597 / 10 ^ 10 * (a * (K - a)) + 2 / 10 ^ 40 := by
    rw [← mul_sub, abs_mul, abs_of_nonneg ha]
    calc a * |roundReal (K - a) - (K - a)| ≤ a * (597 / 10 ^ 10 * (K - a) + 1 / 10 ^ 40) :=
          mul_le_mul_of_nonneg_left hround ha
      _ = 597 / 10 ^ 10 * (a * (K - a)) + a * (1 / 10 ^ 40) := by ring
      _ ≤ 597 / 10 ^ 10 * (a * (K - a)) + 2 / 10 ^ 40 := by linarith
  have hM4 : V * (K - V) ≤ 4 := by nlinarith
  have hρM : ρ * (V * (K - V)) ≤ 1 / 10 ^ 6 * (V * (K - V)) := mul_le_mul_of_nonneg_right hρ hM0
  have hρM0 : 0 ≤ ρ * (V * (K - V)) := mul_nonneg hρ0 hM0
  have hproduct : |a * roundReal (K - a) - V * (K - V)| ≤
      (ρ + 5971 / 10 ^ 11) * (V * (K - V)) + (41 / 10 * η + 3 / 10 ^ 40) := by
    rw [abs_le] at hfirst hcarried ⊢
    constructor <;> linarith
  constructor
  · have h := abs_le.1 hproduct
    rw [abs_le]
    constructor <;> linarith
  · have htotal := roundReal_near_of_near hproduct
    rw [abs_of_nonneg hM0] at htotal
    linarith

theorem double_near {V ρ η : ℝ} (hv : v.HasValue a) (ha : 0 ≤ a) (hV0 : 0 ≤ V) (hV1 : V ≤ 1)
    (hclose : |a - V| ≤ ρ * V + η) (hρ0 : 0 ≤ ρ) (hρ : ρ ≤ 1 / 10 ^ 6) (hη0 : 0 ≤ η)
    (hη : η ≤ 1 / 10 ^ 30) :
    ∃ b, (double v).HasValue b ∧ 0 ≤ b ∧
      |b - V * (4 - V)| ≤ (ρ + 1195 / 10 ^ 10) * (V * (4 - V)) + (5 * η + 1 / 10 ^ 38) := by
  have ha2 : a ≤ 2 := by
    have h := (abs_le.1 hclose).2
    nlinarith
  have hrest : |4 - a| ≤ 10 := by
    rw [abs_le]
    constructor <;> linarith
  obtain ⟨hsize, hnear⟩ :=
    rest_product_near ha hV0 hV1 le_rfl (by linarith) hclose hρ0 hρ hη0 hη
  have hdifference := hasValue_sub hasValue_four hv (abs_le_two_zpow_127 hrest)
  refine ⟨_, hasValue_mul hv hdifference (abs_le_two_zpow_127 hsize), ?_, hnear⟩
  exact roundReal_nonneg (mul_nonneg ha (roundReal_nonneg (by linarith)))

/-- The versine of the whole angle, after three doublings. -/
theorem doubled_near (fused : Bool) (hs : s.HasValue S) (hS : |S| ≤ 4 / 5) :
    ∃ b, (doubled 3 (series fused s)).HasValue b ∧ 0 ≤ b ∧
      |b - versine S| ≤ 5395 / 10 ^ 10 * versine S + 1 / 10 ^ 35 := by
  have hle : ∀ k : ℝ, 0 ≤ k → k ≤ 1 → versine (k * S) ≤ 1 := by
    intro k hk0 hk1
    have hsq : (k * S) ^ 2 ≤ 1 := by
      rw [← sq_abs, abs_mul, abs_of_nonneg hk0]
      have hproduct : k * |S| ≤ 1 * (4 / 5) := mul_le_mul hk1 hS (abs_nonneg S) zero_le_one
      nlinarith [mul_nonneg hk0 (abs_nonneg S)]
    exact (versine_le_sq _).trans hsq
  have hdouble : ∀ θ : ℝ, versine θ * (4 - versine θ) = versine (2 * θ) := fun θ =>
    (versine_double θ).symm
  obtain ⟨b0, hb0, hnonneg0, hnear0⟩ := series_near fused hs hS
  obtain ⟨b1, hb1, hnonneg1, hnear1⟩ := double_near hb0 hnonneg0 (versine_nonneg _)
    (by rw [div_eq_inv_mul]; exact hle _ (by norm_num) (by norm_num)) hnear0 (by norm_num)
    (by norm_num) (by norm_num) (by norm_num)
  rw [hdouble, show 2 * (S / 8) = 4⁻¹ * S by ring] at hnear1
  obtain ⟨b2, hb2, hnonneg2, hnear2⟩ := double_near hb1 hnonneg1 (versine_nonneg _)
    (hle _ (by norm_num) (by norm_num)) hnear1 (by norm_num) (by norm_num) (by norm_num)
    (by norm_num)
  rw [hdouble, show 2 * (4⁻¹ * S) = 2⁻¹ * S by ring] at hnear2
  obtain ⟨b3, hb3, hnonneg3, hnear3⟩ := double_near hb2 hnonneg2 (versine_nonneg _)
    (hle _ (by norm_num) (by norm_num)) hnear2 (by norm_num) (by norm_num) (by norm_num)
    (by norm_num)
  rw [hdouble, show 2 * (2⁻¹ * S) = S by ring] at hnear3
  refine ⟨b3, hb3, hnonneg3, hnear3.trans ?_⟩
  have hV0 := versine_nonneg S
  linarith

/-! ## Sine and cosine -/

theorem one_sub_cos_le (hS : |S| ≤ 4 / 5) : 1 - Real.cos S ≤ 32 / 100 := by
  have hcos := Real.one_sub_sq_div_two_le_cos (x := S)
  have hsq : S ^ 2 ≤ (4 / 5) ^ 2 := by
    rw [← sq_abs]
    exact pow_le_pow_left₀ (abs_nonneg S) hS 2
  linarith

theorem half_near (fused : Bool) (hs : s.HasValue S) (hS : |S| ≤ 4 / 5) :
    ∃ b, ((doubled 3 (series fused s)).divNat 2).HasValue b ∧ 0 ≤ b ∧
      |b - (1 - Real.cos S)| ≤ 5396 / 10 ^ 10 * (1 - Real.cos S) + 1 / 10 ^ 34 := by
  obtain ⟨d, hd, hd0, hnear⟩ := doubled_near fused hs hS
  have hC := one_sub_cos_le hS
  have hC0 : 0 ≤ 1 - Real.cos S := by
    have h := Real.cos_le_one S
    linarith
  rw [versine_eq, abs_le] at hnear
  have hhalf0 : 0 ≤ d / (2 : ℕ) := div_nonneg hd0 (Nat.cast_nonneg 2)
  have hsize : |d / (2 : ℕ)| ≤ 10 := by
    rw [abs_of_nonneg hhalf0]
    push_cast
    linarith
  refine ⟨_, hasValue_divNat 2 two_pos hd (abs_le_two_zpow_127 hsize), roundReal_nonneg hhalf0, ?_⟩
  have hexact := hd.roundReal_div_two_pow 1
  have hquantum : (2 : ℝ) ^ (-150 : ℤ) ≤ 1 / 10 ^ 40 := by norm_num
  have hexact' := abs_le.1 (hexact.trans hquantum)
  rw [pow_one] at hexact'
  push_cast
  rw [abs_le]
  constructor <;> linarith

theorem cosine_near {C : ℝ} (hv : v.HasValue a) (ha : 0 ≤ a) (hC : C ≤ 32 / 100)
    (hclose : |a - C| ≤ 5396 / 10 ^ 10 * C + 1 / 10 ^ 34) :
    ∃ b, (one - v).HasValue b ∧ 0 ≤ b ∧ b ≤ 1 ∧ |b - (1 - C)| ≤ 3 / 10 ^ 7 := by
  have hbounds := abs_le.1 hclose
  have hrest0 : 0 ≤ 1 - a := by linarith
  have hrest : |1 - a| ≤ 1 := by
    rw [abs_of_nonneg hrest0]
    linarith
  have hround := abs_le.1 (roundReal_near_of_le_one hrest)
  refine ⟨_, hasValue_sub hasValue_one hv (abs_le_two_zpow_127 (hrest.trans (by norm_num))),
    roundReal_nonneg hrest0, ?_, ?_⟩
  · calc roundReal (1 - a) ≤ roundReal (2 ^ (0 : ℤ)) := by
          apply roundReal_mono
          rw [zpow_zero]
          linarith
      _ = 1 := by rw [roundReal_two_zpow (by norm_num), zpow_zero]
  · rw [abs_le]
    constructor <;> linarith

theorem sine_near {C : ℝ} (hv : v.HasValue a) (ha : 0 ≤ a) (hC0 : 0 ≤ C) (hC : C ≤ 32 / 100)
    (hclose : |a - C| ≤ 5396 / 10 ^ 10 * C + 1 / 10 ^ 34) :
    ∃ b, ((two - v) * v).sqrt.HasValue b ∧ 0 ≤ b ∧ |b - √(C * (2 - C))| ≤ 3 / 10 ^ 7 := by
  have hbounds := abs_le.1 hclose
  have hrest0 : 0 ≤ 2 - a := by linarith
  have hrest : |2 - a| ≤ 10 := by
    rw [abs_of_nonneg hrest0]
    linarith
  obtain ⟨hsize, hproduct⟩ := rest_product_near (K := 2) ha hC0 (by linarith) (by norm_num)
    (by linarith) hclose (by norm_num) (by norm_num) (by norm_num) (by norm_num)
  have hvalue := hasValue_mul (hasValue_sub hasValue_two hv (abs_le_two_zpow_127 hrest)) hv
    (abs_le_two_zpow_127 (by rw [mul_comm]; exact hsize))
  rw [mul_comm (roundReal (2 - a)) a] at hvalue
  have hw0 : 0 ≤ roundReal (a * roundReal (2 - a)) :=
    roundReal_nonneg (mul_nonneg ha (roundReal_nonneg hrest0))
  have hW0 : 0 ≤ C * (2 - C) := mul_nonneg hC0 (by linarith)
  have hW : C * (2 - C) ≤ (3 / 4) ^ 2 := by nlinarith
  have hrootW : √(C * (2 - C)) ≤ 3 / 4 := Real.sqrt_le_iff.2 ⟨by norm_num, hW⟩
  have hrootW0 := Real.sqrt_nonneg (C * (2 - C))
  have hwsize : roundReal (a * roundReal (2 - a)) ≤ 2 := by
    have h := (abs_le.1 hproduct).2
    linarith
  obtain ⟨r, hr0, hr, hsqrt⟩ :=
    hasValue_sqrt hvalue hw0 (hwsize.trans (by norm_num))
  have hroot := abs_sqrt_sub_le hw0 hW0 hproduct (by norm_num) (by norm_num) (by norm_num)
  have hrootη : √(5 * (1 / 10 ^ 34) + 1 / 10 ^ 38 : ℝ) ≤ 1 / 10 ^ 16 :=
    Real.sqrt_le_iff.2 ⟨by norm_num, by norm_num⟩
  have hquantum : (2 : ℝ) ^ (-150 : ℤ) ≤ 1 / 10 ^ 40 := by norm_num
  have hr' := abs_le.1 (hr.trans hquantum)
  have hroot' := abs_le.1 hroot
  have hr1 : |r| ≤ 1 := by
    rw [abs_of_nonneg hr0]
    linarith
  have hround := abs_le.1 (roundReal_near_of_le_one hr1)
  refine ⟨_, hsqrt, roundReal_nonneg hr0, ?_⟩
  rw [abs_le]
  constructor <;> linarith

theorem sineCosine_near (fused : Bool) (hs : s.HasValue S) (hS : |S| ≤ 4 / 5) :
    ∃ a b, (sineCosine fused s).sine.HasValue a ∧ (sineCosine fused s).cosine.HasValue b ∧
      0 ≤ a ∧ 0 ≤ b ∧ b ≤ 1 ∧ |a - (|Real.sin S|)| ≤ 3 / 10 ^ 7 ∧
      |b - Real.cos S| ≤ 3 / 10 ^ 7 := by
  obtain ⟨d, hd, hd0, hnear⟩ := half_near fused hs hS
  have hC := one_sub_cos_le hS
  have hC0 : 0 ≤ 1 - Real.cos S := by
    have h := Real.cos_le_one S
    linarith
  have hroot : √((1 - Real.cos S) * (2 - (1 - Real.cos S))) = |Real.sin S| := by
    rw [← Real.sqrt_sq_eq_abs, Real.sin_sq]
    congr 1
    ring
  obtain ⟨b, hb, hb0, hb1, hbnear⟩ := cosine_near hd hd0 hC hnear
  obtain ⟨a, ha, ha0, hanear⟩ := sine_near hd hd0 hC0 hC hnear
  rw [hroot] at hanear
  rw [sub_sub_cancel] at hbnear
  exact ⟨a, b, ha, hb, ha0, hb0, hb1, hanear, hbnear⟩

/-- Both functions of a reduced angle are numbers that are not negative, and off by at most
`3·10⁻⁷`, fused or not. -/
theorem sineCosine_within (fused : Bool) (s : Binary32) (hs : s.IsFinite)
    (hsmall : |s.toReal| ≤ 4 / 5) :
    ((sineCosine fused s).sine.IsFinite ∧ 0 ≤ (sineCosine fused s).sine.toReal ∧
      |(sineCosine fused s).sine.toReal - (|Real.sin s.toReal|)| ≤ 3 / 10 ^ 7) ∧
    ((sineCosine fused s).cosine.IsFinite ∧ 0 ≤ (sineCosine fused s).cosine.toReal ∧
      |(sineCosine fused s).cosine.toReal - Real.cos s.toReal| ≤ 3 / 10 ^ 7) := by
  obtain ⟨a, b, ha, hb, ha0, hb0, -, hanear, hbnear⟩ := sineCosine_near fused hs.hasValue hsmall
  rw [ha.toReal_eq, hb.toReal_eq]
  exact ⟨⟨ha.finite, ha0, hanear⟩, ⟨hb.finite, hb0, hbnear⟩⟩

/-- The last number up to `0.8`. -/
theorem sineCosine_within_last :
    |(⟨0x3F4CCCCC⟩ : Binary32).toReal| ≤ 4 / 5 ∧
      |(sineCosine false ⟨0x3F4CCCCC⟩).sine.toReal -
        (|Real.sin (⟨0x3F4CCCCC⟩ : Binary32).toReal|)| ≤ 3 / 10 ^ 7 ∧
      |(sineCosine false ⟨0x3F4CCCCC⟩).cosine.toReal -
        Real.cos (⟨0x3F4CCCCC⟩ : Binary32).toReal| ≤ 3 / 10 ^ 7 := by
  have hvalue : (⟨0x3F4CCCCC⟩ : Binary32).HasValue (13421772 / 2 ^ 24) :=
    hasValue_of_dyadic 13421772 125 (by decide) (by norm_num)
  have hsmall : |(⟨0x3F4CCCCC⟩ : Binary32).toReal| ≤ 4 / 5 := by
    rw [hvalue.toReal_eq, abs_of_pos (by norm_num)]
    norm_num
  obtain ⟨⟨-, -, hsine⟩, -, -, hcosine⟩ :=
    sineCosine_within false ⟨0x3F4CCCCC⟩ hvalue.finite hsmall
  exact ⟨hsmall, hsine, hcosine⟩

end HalfAngle

end
end VectorSine
