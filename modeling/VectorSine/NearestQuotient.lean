/-! # The nearest integer to a quotient

`nearestQuotient n d` is the integer nearest to `n / d`; of two equally near it is the even one.
Every rounding of the library, binary or decimal, goes through it.

* `le_nearestQuotient` and `nearestQuotient_le`: the result is within one half of the quotient.
* `nearestQuotient_mul`: a multiple of the divisor is divided exactly.
-/

namespace VectorSine
set_option autoImplicit false

/-- The integer nearest to `n / d`, the even one of two equally near. -/
def nearestQuotient (n d : Nat) : Nat :=
  if d < 2 * (n % d) ∨ (2 * (n % d) = d ∧ n / d % 2 = 1) then n / d + 1 else n / d

theorem nearestQuotient_le (n d : Nat) (hd : 0 < d) :
    2 * (d * nearestQuotient n d) ≤ 2 * n + d := by
  have hdiv := Nat.div_add_mod n d
  have hmod := Nat.mod_lt n hd
  unfold nearestQuotient
  split
  · rw [Nat.mul_add, Nat.mul_one]; omega
  · omega

theorem le_nearestQuotient (n d : Nat) (hd : 0 < d) :
    2 * n ≤ 2 * (d * nearestQuotient n d) + d := by
  have hdiv := Nat.div_add_mod n d
  have hmod := Nat.mod_lt n hd
  unfold nearestQuotient
  split
  · rw [Nat.mul_add, Nat.mul_one]; omega
  · omega

theorem nearestQuotient_mul (q d : Nat) (hd : 0 < d) : nearestQuotient (q * d) d = q := by
  unfold nearestQuotient
  rw [Nat.mul_mod_left, Nat.mul_div_cancel q hd]
  rw [if_neg (by omega)]

@[simp] theorem nearestQuotient_one (n : Nat) : nearestQuotient n 1 = n := by
  simpa using nearestQuotient_mul n 1 Nat.one_pos

end VectorSine
