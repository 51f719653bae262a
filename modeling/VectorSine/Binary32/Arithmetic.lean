import VectorSine.Binary32.Rounding

/-! # Arithmetic on binary32 numbers

Each operation is an exact one on data followed by one rounding. Products of two numbers lie on a
grid of `2⁻¹⁴⁹` quanta, so the fused multiplication and addition adds there and rounds once, where
a multiplication followed by an addition rounds twice.

An exact sum that is zero is negative only if both its terms are. The order is that of the numbers:
both zeros are equal, and a NaN is neither less nor greater than anything.
-/

namespace VectorSine
set_option autoImplicit false
open scoped CorePower

namespace Datum

/-! ## Exact operations -/

def signed (negative : Bool) (steps : Nat) : Int :=
  if negative then -(steps : Int) else steps

def opposite : Datum → Datum
  | nan => nan
  | infinite negative => infinite (!negative)
  | finite negative steps => finite (!negative) steps

/-- The exact sum of two data on one grid. -/
def plus : Datum → Datum → Datum
  | nan, _ => nan
  | _, nan => nan
  | infinite a, infinite b => if a = b then infinite a else nan
  | infinite a, finite _ _ => infinite a
  | finite _ _, infinite b => infinite b
  | finite a m, finite b n =>
    let sum := signed a m + signed b n
    if sum = 0 then finite (a && b) 0 else finite (decide (sum < 0)) sum.natAbs

/-- The exact product, on the grid whose step is the product of the two steps. -/
def times : Datum → Datum → Datum
  | nan, _ => nan
  | _, nan => nan
  | infinite a, infinite b => infinite (a ^^ b)
  | infinite a, finite b n => if n = 0 then nan else infinite (a ^^ b)
  | finite a m, infinite b => if m = 0 then nan else infinite (a ^^ b)
  | finite a m, finite b n => finite (a ^^ b) (m * n)

/-- The same number on a grid that is `k` times as fine. -/
def refine (k : Nat) : Datum → Datum
  | finite a m => finite a (m * k)
  | special => special

/-- The place in the order of the numbers, an infinity beyond every finite count. -/
def place : Datum → Option Int
  | nan => none
  | infinite negative => some (signed negative Binary32.infinityQuanta)
  | finite negative steps => some (signed negative steps)

/-! ## Square roots -/

/-- The largest `r` with `r * r ≤ n`, found two binary digits of `n` at a time, for `n < 4ᵏ`. -/
def rootDigits : Nat → Nat → Nat
  | 0, _ => 0
  | k + 1, n =>
    let r := 2 * rootDigits k (n / 4)
    if (r + 1) * (r + 1) ≤ n then r + 1 else r

def integerRoot (n : Nat) : Nat := rootDigits (n.log2 / 2 + 1) n

theorem rootDigits_spec (k n : Nat) (hn : n < 4 ^ k) :
    rootDigits k n * rootDigits k n ≤ n ∧ n < (rootDigits k n + 1) * (rootDigits k n + 1) := by
  induction k generalizing n with
  | zero => simp only [Nat.pow_zero, Nat.lt_one_iff] at hn; simp [rootDigits, hn]
  | succ k ih =>
    have h := ih (n / 4) (by rw [Nat.pow_succ] at hn; omega)
    revert h
    rw [rootDigits]
    generalize rootDigits k (n / 4) = r
    intro h
    simp only [Nat.add_mul, Nat.mul_add, Nat.one_mul, Nat.mul_one] at h
    have hfour : 2 * r * (2 * r) = 4 * (r * r) := by
      rw [Nat.mul_assoc, Nat.mul_left_comm r 2 r, ← Nat.mul_assoc]
    split
    · next hle => exact ⟨hle, by simp only [Nat.add_mul, Nat.mul_add]; omega⟩
    · next hgt => exact ⟨by omega, by omega⟩

theorem integerRoot_spec (n : Nat) :
    integerRoot n * integerRoot n ≤ n ∧ n < (integerRoot n + 1) * (integerRoot n + 1) := by
  apply rootDigits_spec
  by_cases h0 : n = 0
  · subst h0; decide
  · rw [show (4 : Nat) = 2 ^ (2 : Nat) from rfl, ← Nat.pow_mul]
    exact (Nat.log2_lt h0).1 (by omega)

/-- Twice the square root, an odd number standing for every irrational value between two even
ones. Each multiple of a half lies on the same side of it as of the root, so both round alike. -/
def rootHalves (n : Nat) : Nat :=
  2 * integerRoot n + if integerRoot n * integerRoot n = n then 0 else 1

end Datum

namespace Binary32

/-! ## Operations -/

/-- The quanta in the number one. -/
def quantaPerOne : Nat := 2 ^ (149 : Nat)

/-- The number with the other sign; of a NaN too. -/
def neg (x : Binary32) : Binary32 := ⟨x.bits ^^^ 0x80000000⟩

instance : Neg Binary32 := ⟨neg⟩

def add (x y : Binary32) : Binary32 := (x.datum.plus y.datum).round 1

instance : Add Binary32 := ⟨add⟩

def sub (x y : Binary32) : Binary32 := x + -y

instance : Sub Binary32 := ⟨sub⟩

def mul (x y : Binary32) : Binary32 := (x.datum.times y.datum).round quantaPerOne

instance : Mul Binary32 := ⟨mul⟩

/-- The product of the first two plus the third, rounded once. -/
def fusedMulAdd (x y z : Binary32) : Binary32 :=
  ((x.datum.times y.datum).plus (z.datum.refine quantaPerOne)).round quantaPerOne

def divNat (x : Binary32) (d : Nat) : Binary32 := x.datum.round d

/-- The rounded square root. A zero is its own root, a smaller number has none. -/
def sqrt (x : Binary32) : Binary32 :=
  match x.datum with
  | .nan => nan
  | .infinite negative => if negative then nan else infinity false
  | .finite negative steps =>
    if steps = 0 then x
    else if negative then nan
    else ofQuanta false (Datum.rootHalves (steps * quantaPerOne)) 2

def lt (x y : Binary32) : Bool :=
  match x.datum.place, y.datum.place with
  | some a, some b => a < b
  | _, _ => false

/-- Whether a number lies below zero; a negative zero does not. -/
def isBelowZero (x : Binary32) : Bool := x.lt zero

/-- The bits of a number where the mask has ones, zeros elsewhere. -/
def masked (x : Binary32) (mask : BitVec 32) : Binary32 := ⟨x.bits &&& mask⟩

@[simp] theorem masked_allOnes (x : Binary32) : x.masked (BitVec.allOnes 32) = x := by
  rw [masked, BitVec.and_allOnes]

@[simp] theorem masked_zero (x : Binary32) : x.masked 0 = zero := by
  simp [masked, zero]

end Binary32

end VectorSine
