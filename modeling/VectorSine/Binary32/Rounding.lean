import VectorSine.NearestQuotient
import VectorSine.Binary32.Basic

/-! # Rounding to binary32

A result is first computed exactly, on a grid finer than that of the quanta if need be, and then
rounded once: `nearestQuanta n d` is the count of quanta nearest to `n / d` among those that a
24 digit significand can hold, `Datum.round` is the number with that count. A count that reaches
`2²⁷⁷` quanta has become infinity.

* `nearestQuanta_small`: below `2²⁴` quanta, where the steps are single quanta, rounding is that of
  the quotient to an integer.
* `nearestQuanta_quantaOf`: a representable count is kept, so `round_datum` gives a number back.
-/

namespace VectorSine
set_option autoImplicit false
open scoped CorePower

namespace Binary32

/-- The representable count of quanta nearest to `n / d`; of two, the one with the even
significand. A quotient with leading digit `2ᵏ` is rounded to a multiple of `2ᵏ⁻²³`. -/
def nearestQuanta (n d : Nat) : Nat :=
  nearestQuotient n (d * 2 ^ ((n / d).log2 - 23)) * 2 ^ ((n / d).log2 - 23)

/-- The number nearest to `n / d` quanta, with the given sign; infinity beyond the finite range. -/
def ofQuanta (negative : Bool) (n d : Nat) : Binary32 :=
  pack negative (magnitudeOf (min (nearestQuanta n d) infinityQuanta))

theorem nearestQuanta_small (n d : Nat) (h : n / d < 2 ^ (24 : Nat)) :
    nearestQuanta n d = nearestQuotient n d := by
  have hs : (n / d).log2 - 23 = 0 := by
    by_cases h0 : n / d = 0
    · simp [h0, Nat.log2_zero]
    · have := (Nat.log2_lt h0).2 h
      omega
  simp [nearestQuanta, hs]

theorem nearestQuanta_shift (f s : Nat) (hlo : 2 ^ (23 : Nat) ≤ f) (hhi : f < 2 ^ (24 : Nat)) :
    nearestQuanta (f * 2 ^ s) 1 = f * 2 ^ s := by
  have hpos : 0 < 2 ^ s := Nat.two_pow_pos s
  have hne : f * 2 ^ s ≠ 0 := Nat.mul_ne_zero (by omega) (by omega)
  have hlog : (f * 2 ^ s).log2 = 23 + s := by
    rw [Nat.log2_eq_iff hne]
    constructor
    · rw [Nat.pow_add]; exact Nat.mul_le_mul_right _ hlo
    · rw [show 23 + s + 1 = 24 + s by omega, Nat.pow_add]
      exact Nat.mul_lt_mul_of_pos_right hhi hpos
  rw [nearestQuanta, Nat.div_one, hlog, show 23 + s - 23 = s by omega, Nat.one_mul,
    nearestQuotient_mul f _ hpos]

theorem nearestQuanta_quantaOf (m : Nat) : nearestQuanta (quantaOf m) 1 = quantaOf m := by
  by_cases h : m < 2 ^ (24 : Nat)
  · rw [quantaOf_small m h, nearestQuanta_small m 1 (by omega), nearestQuotient_one]
  · exact nearestQuanta_shift _ _ (by omega) (by omega)

theorem quantaOf_lt (m : Nat) (hm : m < infinityMagnitude) : quantaOf m < infinityQuanta := by
  unfold infinityMagnitude at hm
  unfold quantaOf infinityQuanta
  have hs : m / 2 ^ (23 : Nat) - 1 ≤ 253 := by omega
  have hf : m - (m / 2 ^ (23 : Nat) - 1) * 2 ^ (23 : Nat) < 2 ^ (24 : Nat) := by omega
  calc (m - (m / 2 ^ (23 : Nat) - 1) * 2 ^ (23 : Nat)) * 2 ^ (m / 2 ^ (23 : Nat) - 1)
      < 2 ^ (24 : Nat) * 2 ^ (m / 2 ^ (23 : Nat) - 1) :=
        Nat.mul_lt_mul_of_pos_right hf (Nat.two_pow_pos _)
    _ ≤ 2 ^ (24 : Nat) * 2 ^ (253 : Nat) :=
        Nat.mul_le_mul_left _ (Nat.pow_le_pow_right (by decide) hs)
    _ = 2 ^ (23 : Nat) * 2 ^ (254 : Nat) := by decide

end Binary32

namespace Datum

/-- The binary32 number nearest to a datum whose steps are one `d`-th of a quantum. -/
def round (d : Nat) : Datum → Binary32
  | nan => Binary32.nan
  | infinite negative => Binary32.infinity negative
  | finite negative steps => Binary32.ofQuanta negative steps d

end Datum

namespace Binary32

/-- Rounding changes no number; a NaN becomes the one that operations return. -/
theorem round_datum (x : Binary32) :
    x.datum.round 1 = if x.isNaN then nan else x := by
  unfold datum isNaN
  by_cases h : infinityMagnitude < x.magnitude
  · simp [h, Datum.round]
  by_cases h' : x.magnitude = infinityMagnitude
  · simp [h', Datum.round, infinity]
    rw [← h', pack_eta]
  · have hlt : x.magnitude < infinityMagnitude := by omega
    simp only [if_neg h, if_neg h', Datum.round, ofQuanta, nearestQuanta_quantaOf,
      decide_eq_true_eq]
    rw [Nat.min_eq_left (Nat.le_of_lt (quantaOf_lt _ hlt)), magnitudeOf_quantaOf, pack_eta]

end Binary32

end VectorSine
