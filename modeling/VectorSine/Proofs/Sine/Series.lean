import Mathlib.Analysis.Real.Pi.Bounds
import Mathlib.Analysis.SpecialFunctions.Exponential
import Mathlib.Analysis.SpecialFunctions.Trigonometric.Series
import Mathlib.Analysis.SpecificLimits.Normed

/-! # The series of sine and cosine

Both series alternate, and for small angles their terms fall, so a partial sum is off by the first
omitted term at most. The quantity `2 (1 - cos θ)`, the *versine* here, is what the pipeline
doubles: `versine_double` is the identity behind its loop.
-/

namespace VectorSine
set_option autoImplicit false
noncomputable section

/-! ## Partial sums -/

theorem factorial_add_two (n : ℕ) :
    ((n + 2).factorial : ℝ) = (n + 2) * (n + 1) * n.factorial := by
  rw [Nat.factorial_succ, Nat.factorial_succ]
  push_cast
  ring

theorem pow_div_factorial_succ_le {d : ℝ} (hd : 0 ≤ d) {k : ℕ} (hk : d * d ≤ (k + 2) * (k + 1)) :
    d ^ (k + 2) / (k + 2).factorial ≤ d ^ k / k.factorial := by
  have hfactorial : (0 : ℝ) < k.factorial := Nat.cast_pos.2 k.factorial_pos
  have hfactors : (0 : ℝ) < (k + 2) * (k + 1) := by positivity
  rw [factorial_add_two, div_le_div_iff₀ (mul_pos hfactors hfactorial) hfactorial]
  calc d ^ (k + 2) * k.factorial = d ^ k * k.factorial * (d * d) := by ring
    _ ≤ d ^ k * k.factorial * ((k + 2) * (k + 1)) :=
      mul_le_mul_of_nonneg_left hk (mul_nonneg (pow_nonneg hd k) hfactorial.le)
    _ = d ^ k * ((k + 2) * (k + 1) * k.factorial) := by ring

theorem abs_sin_sub_sum_le {d : ℝ} (hd : 0 ≤ d) (h : d ≤ 2) (n : ℕ) :
    |Real.sin d - ∑ i ∈ Finset.range n, (-1) ^ i * (d ^ (2 * i + 1) / (2 * i + 1).factorial)| ≤
      d ^ (2 * n + 1) / (2 * n + 1).factorial := by
  have hantitone : Antitone fun i : ℕ => d ^ (2 * i + 1) / ((2 * i + 1).factorial : ℝ) := by
    apply antitone_nat_of_succ_le
    intro i
    apply pow_div_factorial_succ_le hd
    push_cast
    nlinarith [(Nat.cast_nonneg i : (0 : ℝ) ≤ i)]
  have hsummable : Summable fun i : ℕ => d ^ (2 * i + 1) / ((2 * i + 1).factorial : ℝ) :=
    (Real.summable_pow_div_factorial d).comp_injective fun i j hij => by simpa using hij
  have hsum : Real.sin d =
      tsum fun i : ℕ => (-1) ^ i * (d ^ (2 * i + 1) / ((2 * i + 1).factorial : ℝ)) := by
    rw [Real.sin_eq_tsum]
    apply tsum_congr
    intro i
    rw [mul_div_assoc]
  rw [hsum]
  exact alternating_series_error_bound _ hantitone hsummable n

theorem abs_cos_sub_sum_le {d : ℝ} (hd : 0 ≤ d) (h : d ≤ 1) (n : ℕ) :
    |Real.cos d - ∑ i ∈ Finset.range n, (-1) ^ i * (d ^ (2 * i) / (2 * i).factorial)| ≤
      d ^ (2 * n) / (2 * n).factorial := by
  have hantitone : Antitone fun i : ℕ => d ^ (2 * i) / ((2 * i).factorial : ℝ) := by
    apply antitone_nat_of_succ_le
    intro i
    apply pow_div_factorial_succ_le hd
    nlinarith [(Nat.cast_nonneg i : (0 : ℝ) ≤ i)]
  have hsummable : Summable fun i : ℕ => d ^ (2 * i) / ((2 * i).factorial : ℝ) :=
    (Real.summable_pow_div_factorial d).comp_injective fun i j hij => by simpa using hij
  have hsum : Real.cos d =
      tsum fun i : ℕ => (-1) ^ i * (d ^ (2 * i) / ((2 * i).factorial : ℝ)) := by
    rw [Real.cos_eq_tsum]
    apply tsum_congr
    intro i
    rw [mul_div_assoc]
  rw [hsum]
  exact alternating_series_error_bound _ hantitone hsummable n

/-! ## The versine -/

def versine (θ : ℝ) : ℝ := (1 - Real.cos θ) + (1 - Real.cos θ)

theorem versine_eq (θ : ℝ) : versine θ = 2 * (1 - Real.cos θ) := by
  unfold versine
  ring

theorem versine_double (θ : ℝ) : versine (2 * θ) = versine θ * (4 - versine θ) := by
  rw [versine_eq, versine_eq, Real.cos_two_mul]
  ring

theorem versine_nonneg (θ : ℝ) : 0 ≤ versine θ := by
  rw [versine_eq]
  have hcos := Real.cos_le_one θ
  linarith

theorem versine_le_sq (θ : ℝ) : versine θ ≤ θ ^ 2 := by
  rw [versine_eq]
  have hcos := Real.one_sub_sq_div_two_le_cos (x := θ)
  linarith

theorem versine_series {θ : ℝ} (h : |θ| ≤ 1) :
    |versine θ - (θ ^ 2 - θ ^ 4 / 12 + θ ^ 6 / 360)| ≤ θ ^ 8 / 20160 := by
  have hcos := abs_cos_sub_sum_le (abs_nonneg θ) h 4
  have heven : ∀ k : ℕ, |θ| ^ (2 * k) = θ ^ (2 * k) := fun k => (even_two_mul k).pow_abs θ
  simp only [heven, Real.cos_abs, Finset.sum_range_succ, Finset.sum_range_zero] at hcos
  norm_num [Nat.factorial] at hcos
  rw [versine_eq]
  rw [abs_le] at hcos ⊢
  constructor <;> linarith

/-! ## Roots -/

/-- A root halves a relative error. -/
theorem abs_sqrt_sub_le {w W ρ η : ℝ} (hw : 0 ≤ w) (hW : 0 ≤ W) (hclose : |w - W| ≤ ρ * W + η)
    (hρ0 : 0 ≤ ρ) (hρ : ρ ≤ 1 / 1000) (hη : 0 ≤ η) :
    |√w - √W| ≤ 501 / 1000 * ρ * √W + √η := by
  have hroot := Real.sqrt_nonneg W
  have hrootη := Real.sqrt_nonneg η
  have hsq : √W * √W = W := Real.mul_self_sqrt hW
  have hsqη : √η * √η = η := Real.mul_self_sqrt hη
  rw [abs_le] at hclose
  have hcross : 0 ≤ √W * √η := mul_nonneg hroot hrootη
  have hρW : 0 ≤ ρ * W := mul_nonneg hρ0 hW
  have hρρW0 : 0 ≤ ρ * (ρ * W) := mul_nonneg hρ0 hρW
  have hρρW : ρ * (ρ * W) ≤ 1 / 1000 * (ρ * W) := mul_le_mul_of_nonneg_right hρ hρW
  have hupper : √w ≤ √W * (1 + 501 / 1000 * ρ) + √η := by
    apply Real.sqrt_le_iff.2
    refine ⟨by positivity, ?_⟩
    have hsquare : w ≤ (1 + 501 / 1000 * ρ) ^ 2 * W + η := by linarith
    calc w ≤ (1 + 501 / 1000 * ρ) ^ 2 * W + η := hsquare
      _ = (√W * (1 + 501 / 1000 * ρ)) ^ 2 + √η * √η := by rw [mul_pow, sq √W, hsq, hsqη]; ring
      _ ≤ (√W * (1 + 501 / 1000 * ρ) + √η) ^ 2 := by nlinarith [mul_nonneg hcross hρ0]
  have hlower : √W * (1 - 501 / 1000 * ρ) ≤ √w + √η := by
    have hrootw := Real.sqrt_nonneg w
    have hsqw : √w * √w = w := Real.mul_self_sqrt hw
    have hsquare : (1 - 501 / 1000 * ρ) ^ 2 * W ≤ w + η := by linarith
    have hsquares : (√W * (1 - 501 / 1000 * ρ)) ^ 2 ≤ (√w + √η) ^ 2 := by
      calc (√W * (1 - 501 / 1000 * ρ)) ^ 2 = (1 - 501 / 1000 * ρ) ^ 2 * W := by
            rw [mul_pow, sq √W, hsq, mul_comm]
        _ ≤ √w * √w + √η * √η := by rw [hsqw, hsqη]; exact hsquare
        _ ≤ (√w + √η) ^ 2 := by nlinarith [mul_nonneg hrootw hrootη]
    exact (le_abs_self _).trans (abs_le_of_sq_le_sq hsquares (by positivity))
  rw [abs_le]
  constructor <;> linarith

end
end VectorSine
