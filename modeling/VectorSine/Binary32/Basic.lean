import VectorSine.NearestQuotient
import VectorSine.Power

/-! # Binary32 numbers

A binary32 number is its 32 bits. Its finite values are the multiples of one *quantum*, `2⁻¹⁴⁹`,
so arithmetic on them is arithmetic on natural numbers of quanta, and the view `Binary32.datum`
says which number (or which special value) the bits stand for.

* `quantaOf` and `magnitudeOf` go between the 31 bits below the sign and the count of quanta.
* `magnitudeOf_quantaOf`: decoding and encoding a magnitude gives it back.
* `pack_eta`: sign and magnitude determine the number.
-/

namespace VectorSine
set_option autoImplicit false
open scoped CorePower

/-- A number of the IEEE 754 binary32 format, kept as its bits. -/
structure Binary32 where
  bits : BitVec 32
deriving DecidableEq, Inhabited

/-- A number on a grid of equal steps: a sign and a count of steps, or a special value.
The sign of a zero counts. -/
inductive Datum where
  | nan
  | infinite (negative : Bool)
  | finite (negative : Bool) (steps : Nat)
deriving DecidableEq

namespace Binary32

/-! ## Sign and magnitude -/

def negative (x : Binary32) : Bool := x.bits.msb

/-- The 31 bits below the sign, read as a number. -/
def magnitude (x : Binary32) : Nat := x.bits.toNat % 2 ^ (31 : Nat)

def pack (negative : Bool) (magnitude : Nat) : Binary32 :=
  ⟨BitVec.ofNat 32 ((if negative then 2 ^ (31 : Nat) else 0) + magnitude)⟩

theorem negative_eq_decide (x : Binary32) : x.negative = decide (2 ^ (31 : Nat) ≤ x.bits.toNat) :=
  BitVec.msb_eq_decide x.bits

theorem pack_eta (x : Binary32) : pack x.negative x.magnitude = x := by
  have hlt := x.bits.isLt
  have hbits : (if x.negative then 2 ^ (31 : Nat) else 0) + x.magnitude = x.bits.toNat := by
    rw [negative_eq_decide, magnitude]
    by_cases h : 2 ^ (31 : Nat) ≤ x.bits.toNat
    · rw [decide_eq_true h, if_pos rfl]; omega
    · rw [decide_eq_false h, if_neg Bool.false_ne_true]; omega
  unfold pack
  rw [hbits, BitVec.ofNat_toNat, BitVec.setWidth_eq]

theorem toNat_pack (negative : Bool) (m : Nat) (hm : m < 2 ^ (31 : Nat)) :
    (pack negative m).bits.toNat = (if negative then 2 ^ (31 : Nat) else 0) + m := by
  unfold pack
  rw [BitVec.toNat_ofNat, Nat.mod_eq_of_lt]
  cases negative <;> simp <;> omega

@[simp] theorem magnitude_pack (negative : Bool) (m : Nat) (hm : m < 2 ^ (31 : Nat)) :
    (pack negative m).magnitude = m := by
  rw [magnitude, toNat_pack negative m hm]
  cases negative <;> simp <;> omega

@[simp] theorem negative_pack (negative : Bool) (m : Nat) (hm : m < 2 ^ (31 : Nat)) :
    (pack negative m).negative = negative := by
  rw [negative_eq_decide, toNat_pack negative m hm]
  cases negative
  · simp
    omega
  · simp

/-! ## Magnitudes as quanta -/

def infinityMagnitude : Nat := 0x7F800000

def infinityQuanta : Nat := 2 ^ (23 : Nat) * 2 ^ (254 : Nat)

/-- The quanta of a magnitude: the fraction with its leading one, shifted by the exponent. -/
def quantaOf (m : Nat) : Nat :=
  (m - (m / 2 ^ (23 : Nat) - 1) * 2 ^ (23 : Nat)) * 2 ^ (m / 2 ^ (23 : Nat) - 1)

/-- The magnitude of a count of quanta, of which the leading 24 binary digits are kept. -/
def magnitudeOf (quanta : Nat) : Nat :=
  (quanta.log2 - 23) * 2 ^ (23 : Nat) + quanta / 2 ^ (quanta.log2 - 23)

theorem quantaOf_small (m : Nat) (hm : m < 2 ^ (24 : Nat)) : quantaOf m = m := by
  have h : m / 2 ^ (23 : Nat) - 1 = 0 := by omega
  rw [quantaOf, h, Nat.zero_mul, Nat.sub_zero, Nat.pow_zero, Nat.mul_one]

theorem magnitudeOf_small (q : Nat) (hq : q < 2 ^ (24 : Nat)) : magnitudeOf q = q := by
  have h : q.log2 - 23 = 0 := by
    by_cases h0 : q = 0
    · simp [h0, Nat.log2_zero]
    · have := (Nat.log2_lt h0).2 hq
      omega
  simp [magnitudeOf, h]

/-- A significand of 24 digits, shifted left by `s`, has the magnitude `s · 2²³` above it. -/
theorem magnitudeOf_shift (f s : Nat) (hlo : 2 ^ (23 : Nat) ≤ f) (hhi : f < 2 ^ (24 : Nat)) :
    magnitudeOf (f * 2 ^ s) = s * 2 ^ (23 : Nat) + f := by
  have hpos : 0 < 2 ^ s := Nat.two_pow_pos s
  have hne : f * 2 ^ s ≠ 0 := Nat.mul_ne_zero (by omega) (by omega)
  have hlog : (f * 2 ^ s).log2 = 23 + s := by
    rw [Nat.log2_eq_iff hne]
    constructor
    · rw [Nat.pow_add]; exact Nat.mul_le_mul_right _ hlo
    · rw [show 23 + s + 1 = 24 + s by omega, Nat.pow_add]
      exact Nat.mul_lt_mul_of_pos_right hhi hpos
  rw [magnitudeOf, hlog, show 23 + s - 23 = s by omega, Nat.mul_div_cancel f hpos]

theorem magnitudeOf_quantaOf (m : Nat) : magnitudeOf (quantaOf m) = m := by
  by_cases h : m < 2 ^ (24 : Nat)
  · rw [quantaOf_small m h, magnitudeOf_small m h]
  · rw [quantaOf, magnitudeOf_shift _ _ (by omega) (by omega)]
    omega

/-! ## The number that the bits stand for -/

/-- The number or special value of the bits, in quanta. All NaNs are one. -/
def datum (x : Binary32) : Datum :=
  if infinityMagnitude < x.magnitude then .nan
  else if x.magnitude = infinityMagnitude then .infinite x.negative
  else .finite x.negative (quantaOf x.magnitude)

def isNaN (x : Binary32) : Bool := infinityMagnitude < x.magnitude

/-- The NaN that operations return. -/
def nan : Binary32 := ⟨0x7FC00000⟩

def infinity (negative : Bool) : Binary32 := pack negative infinityMagnitude

def zero : Binary32 := ⟨0x00000000⟩

def one : Binary32 := ⟨0x3F800000⟩

def two : Binary32 := ⟨0x40000000⟩

def four : Binary32 := ⟨0x40800000⟩

@[simp] theorem datum_nan : nan.datum = .nan := by decide

@[simp] theorem datum_zero : zero.datum = .finite false 0 := by decide

theorem datum_eq_nan_iff (x : Binary32) : x.datum = .nan ↔ x.isNaN = true := by
  unfold datum isNaN
  by_cases h : infinityMagnitude < x.magnitude
  · simp [h]
  · by_cases h' : x.magnitude = infinityMagnitude <;> simp [h, h']

end Binary32

end VectorSine
