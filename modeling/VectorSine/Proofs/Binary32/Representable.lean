import Mathlib.Algebra.Group.Nat.Defs
import VectorSine.Binary32.Arithmetic

/-! # Representable counts of quanta

A count of quanta is representable if a 24 digit significand, shifted left, gives it. Rounding lands
on such counts, and between them and the magnitudes below infinity `magnitudeOf` and `quantaOf` are
inverse to each other. So the datum of a rounded quotient is known:

* `datum_ofQuanta`: it is the nearest representable count, or an infinity from `2²⁷⁷` quanta on.
-/

namespace VectorSine
set_option autoImplicit false

theorem nearestQuotient_le_of_le_mul (n d m : Nat) (hd : 0 < d) (h : n ≤ d * m) :
    nearestQuotient n d ≤ m := by
  have hdiv := Nat.div_add_mod n d
  have hmod := Nat.mod_lt n hd
  unfold nearestQuotient
  rcases Nat.lt_or_ge (n / d) m with hlt | hge
  · split <;> omega
  · have hmul : d * m ≤ d * (n / d) := Nat.mul_le_mul_left d hge
    have hzero : n % d = 0 := by omega
    have heq : d * (n / d) = d * m := by omega
    have hm : n / d = m := Nat.eq_of_mul_eq_mul_left hd heq
    rw [if_neg (by omega)]
    exact Nat.le_of_eq hm

namespace Binary32

/-- A count of quanta that a significand of 24 digits can hold, whatever its exponent. -/
def Representable (q : Nat) : Prop := ∃ f s : Nat, f < 2 ^ 24 ∧ q = f * 2 ^ s

theorem representable_of_le (f s : Nat) (hf : f ≤ 2 ^ 24) : Representable (f * 2 ^ s) := by
  rcases Nat.lt_or_ge f (2 ^ 24) with hlt | hge
  · exact ⟨f, s, hlt, rfl⟩
  · have heq : f = 2 ^ 24 := by omega
    refine ⟨2 ^ 23, s + 1, by decide, ?_⟩
    rw [heq, Nat.pow_succ 2 s, ← Nat.mul_assoc, Nat.mul_right_comm, ← Nat.pow_succ]

theorem representable_small (q : Nat) (hq : q < 2 ^ 24) : Representable q :=
  ⟨q, 0, hq, by rw [Nat.pow_zero, Nat.mul_one]⟩

theorem representable_quantaOf (m : Nat) : Representable (quantaOf m) := by
  by_cases h : m < 2 ^ 24
  · rw [quantaOf_small m h]
    exact representable_small m h
  · exact ⟨_, _, by omega, rfl⟩

theorem representable_nearestQuanta (n d : Nat) (hd : 0 < d) :
    Representable (nearestQuanta n d) := by
  unfold nearestQuanta
  apply representable_of_le
  generalize hs : (n / d).log2 - 23 = s
  apply nearestQuotient_le_of_le_mul _ _ _ (Nat.mul_pos hd (Nat.two_pow_pos s))
  have hlog : n / d < 2 ^ (s + 24) := by
    by_cases h0 : n / d = 0
    · rw [h0]
      exact Nat.two_pow_pos _
    · exact (Nat.log2_lt h0).1 (by omega)
  have hn : n < d * 2 ^ (s + 24) := by
    rw [Nat.mul_comm]
    exact (Nat.div_lt_iff_lt_mul hd).1 hlog
  rw [Nat.mul_assoc, ← Nat.pow_add]
  exact Nat.le_of_lt hn

/-- A representable count beyond single quanta has a significand of exactly 24 digits. -/
theorem Representable.normalize {q : Nat} (hq : Representable q) (hbig : 2 ^ 24 ≤ q) :
    ∃ f s : Nat, 2 ^ 23 ≤ f ∧ f < 2 ^ 24 ∧ 0 < s ∧ q = f * 2 ^ s := by
  obtain ⟨f, s, hf, rfl⟩ := hq
  have hf0 : f ≠ 0 := by
    intro h
    rw [h, Nat.zero_mul] at hbig
    omega
  have hlog : f.log2 < 24 := (Nat.log2_lt hf0).2 hf
  have hself : 2 ^ f.log2 ≤ f := Nat.log2_self_le hf0
  have hlt : f < 2 ^ (f.log2 + 1) := Nat.lt_log2_self
  have hk : 23 - f.log2 ≤ s := by
    apply Nat.le_of_not_lt
    intro hlt'
    have hsum : f * 2 ^ s < 2 ^ 24 := by
      calc f * 2 ^ s < 2 ^ (f.log2 + 1) * 2 ^ s :=
            Nat.mul_lt_mul_of_pos_right hlt (Nat.two_pow_pos s)
        _ = 2 ^ (f.log2 + 1 + s) := (Nat.pow_add 2 _ _).symm
        _ ≤ 2 ^ 24 := Nat.pow_le_pow_right (by decide) (by omega)
    omega
  have hsplit : f * 2 ^ s = f * 2 ^ (23 - f.log2) * 2 ^ (s - (23 - f.log2)) := by
    rw [Nat.mul_assoc, ← Nat.pow_add, Nat.add_sub_cancel' hk]
  have hlo : 2 ^ 23 ≤ f * 2 ^ (23 - f.log2) := by
    calc 2 ^ 23 = 2 ^ f.log2 * 2 ^ (23 - f.log2) := by rw [← Nat.pow_add]; congr 1; omega
      _ ≤ f * 2 ^ (23 - f.log2) := Nat.mul_le_mul_right _ hself
  have hhi : f * 2 ^ (23 - f.log2) < 2 ^ 24 := by
    calc f * 2 ^ (23 - f.log2) < 2 ^ (f.log2 + 1) * 2 ^ (23 - f.log2) :=
          Nat.mul_lt_mul_of_pos_right hlt (Nat.two_pow_pos _)
      _ = 2 ^ 24 := by rw [← Nat.pow_add]; congr 1; omega
  refine ⟨f * 2 ^ (23 - f.log2), s - (23 - f.log2), hlo, hhi, ?_, hsplit⟩
  apply Nat.pos_of_ne_zero
  intro h
  rw [hsplit, h, Nat.pow_zero, Nat.mul_one] at hbig
  omega

/-! ## Magnitudes of representable counts -/

theorem Representable.quantaOf_magnitudeOf {q : Nat} (hq : Representable q) :
    quantaOf (magnitudeOf q) = q := by
  by_cases h : q < 2 ^ 24
  · rw [magnitudeOf_small q h, quantaOf_small q h]
  · obtain ⟨f, s, hlo, hhi, hs, rfl⟩ := hq.normalize (by omega)
    rw [magnitudeOf_shift f s hlo hhi, quantaOf]
    have hexponent : (s * 2 ^ 23 + f) / 2 ^ 23 - 1 = s := by omega
    rw [hexponent, Nat.add_sub_cancel_left]

theorem magnitudeOf_infinityQuanta : magnitudeOf infinityQuanta = infinityMagnitude :=
  magnitudeOf_shift (2 ^ 23) 254 (by decide) (by decide)

theorem Representable.magnitudeOf_lt {q : Nat} (hq : Representable q) (h : q < infinityQuanta) :
    magnitudeOf q < infinityMagnitude := by
  by_cases hsmall : q < 2 ^ 24
  · rw [magnitudeOf_small q hsmall]
    exact Nat.lt_trans hsmall (by decide)
  · obtain ⟨f, s, hlo, hhi, hs, rfl⟩ := hq.normalize (by omega)
    rw [magnitudeOf_shift f s hlo hhi]
    have hs' : s < 254 := by
      apply Nat.lt_of_not_le
      intro hle
      have hmul : 2 ^ 23 * 2 ^ 254 ≤ f * 2 ^ s :=
        Nat.mul_le_mul hlo (Nat.pow_le_pow_right (by decide) hle)
      exact absurd h (Nat.not_lt.2 hmul)
    unfold infinityMagnitude
    omega

/-- A larger magnitude stands for more quanta: its fraction is larger, or its exponent is and then
the leading one outweighs any fraction. -/
theorem quantaOf_lt_quantaOf {m n : Nat} (h : m < n) : quantaOf m < quantaOf n := by
  unfold quantaOf
  have hexponent : m / 2 ^ 23 - 1 ≤ n / 2 ^ 23 - 1 := by omega
  rcases Nat.lt_or_eq_of_le hexponent with hlt | heq
  · have hm : m - (m / 2 ^ 23 - 1) * 2 ^ 23 < 2 ^ 24 := by omega
    have hn : 2 ^ 23 ≤ n - (n / 2 ^ 23 - 1) * 2 ^ 23 := by omega
    calc (m - (m / 2 ^ 23 - 1) * 2 ^ 23) * 2 ^ (m / 2 ^ 23 - 1)
        < 2 ^ 24 * 2 ^ (m / 2 ^ 23 - 1) := Nat.mul_lt_mul_of_pos_right hm (Nat.two_pow_pos _)
      _ = 2 ^ 23 * 2 ^ (m / 2 ^ 23 - 1 + 1) := by rw [Nat.pow_succ 2 (m / 2 ^ 23 - 1)]; omega
      _ ≤ 2 ^ 23 * 2 ^ (n / 2 ^ 23 - 1) :=
        Nat.mul_le_mul_left _ (Nat.pow_le_pow_right (by decide) hlt)
      _ ≤ (n - (n / 2 ^ 23 - 1) * 2 ^ 23) * 2 ^ (n / 2 ^ 23 - 1) := Nat.mul_le_mul_right _ hn
  · rw [heq]
    exact Nat.mul_lt_mul_of_pos_right (by omega) (Nat.two_pow_pos _)

/-! ## Data of numbers -/

theorem datum_pack (negative : Bool) (m : Nat) (hm : m < infinityMagnitude) :
    (pack negative m).datum = .finite negative (quantaOf m) := by
  have hlt : m < 2 ^ 31 := Nat.lt_trans hm (by decide)
  unfold datum
  rw [magnitude_pack negative m hlt, negative_pack negative m hlt, if_neg (by omega),
    if_neg (by omega)]

@[simp] theorem datum_infinity (negative : Bool) :
    (infinity negative).datum = .infinite negative := by
  cases negative <;> decide

theorem datum_ofQuanta (negative : Bool) (n d : Nat) (hd : 0 < d) :
    (ofQuanta negative n d).datum =
      if nearestQuanta n d < infinityQuanta then .finite negative (nearestQuanta n d)
      else .infinite negative := by
  have hrep := representable_nearestQuanta n d hd
  unfold ofQuanta
  split
  · next h =>
    rw [Nat.min_eq_left (Nat.le_of_lt h), datum_pack _ _ (hrep.magnitudeOf_lt h),
      hrep.quantaOf_magnitudeOf]
  · next h =>
    rw [Nat.min_eq_right (Nat.le_of_not_lt h), magnitudeOf_infinityQuanta]
    exact datum_infinity negative

theorem magnitude_neg (x : Binary32) : (-x).magnitude = x.magnitude := by
  change (x.bits ^^^ 0x80000000#32).toNat % 2 ^ 31 = x.bits.toNat % 2 ^ 31
  rw [BitVec.toNat_xor, Nat.xor_mod_two_pow]
  exact Nat.xor_zero _

theorem negative_neg (x : Binary32) : (-x).negative = !x.negative := by
  change (x.bits ^^^ 0x80000000#32).msb = !x.bits.msb
  rw [BitVec.msb_xor, show (0x80000000#32).msb = true by decide, Bool.xor_true]

theorem datum_neg (x : Binary32) : (-x).datum = x.datum.opposite := by
  unfold datum
  rw [magnitude_neg, negative_neg]
  split
  · rfl
  · split <;> rfl

theorem datum_finite {x : Binary32} {negative : Bool} {q : Nat} (h : x.datum = .finite negative q) :
    Representable q ∧ q < infinityQuanta := by
  unfold datum at h
  split at h
  · contradiction
  split at h
  · contradiction
  · next hnan hinf =>
    injection h with hneg hq
    rw [← hq]
    exact ⟨representable_quantaOf _, quantaOf_lt _ (by omega)⟩

end Binary32

end VectorSine
