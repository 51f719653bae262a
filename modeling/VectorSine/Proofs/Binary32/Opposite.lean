import VectorSine.Proofs.Binary32.Special

/-! # Opposite numbers

The opposite of a product or a quotient is that of one of its terms, and the opposite of a
difference is the difference the other way round, but for the sign of a zero. So the lower bounds of
`AtLeast` serve for negative numbers too, the negative infinity among them: `(-x).AtLeast r` says
that `x` is at most `-r`.

* `AtLeast.neg_mul`, `AtLeast.neg_divNat`, `AtLeast.neg_sub`: bounds of opposites.
* `HasValue.lt_cases`, `HasValue.gt_cases`: what is above and below a number.
* `sqrt_nan_of_below`: no negative number has a root.
* `HasValue.eq_of_ne_zero`: a value other than zero determines the number.
-/

namespace VectorSine
set_option autoImplicit false

namespace Datum

theorem times_comm (d e : Datum) : d.times e = e.times d := by
  cases d with
  | nan => rw [nan_times, times_nan]
  | infinite a =>
    cases e with
    | nan => rfl
    | infinite b => simp only [times, Bool.xor_comm]
    | finite b n => simp only [times, Bool.xor_comm]
  | finite a m =>
    cases e with
    | nan => rfl
    | infinite b => simp only [times, Bool.xor_comm]
    | finite b n => simp only [times, Bool.xor_comm, Nat.mul_comm]

@[simp] theorem opposite_opposite (d : Datum) : d.opposite.opposite = d := by
  cases d <;> simp [opposite]

theorem signed_true (n : ℕ) : signed true n = -n := rfl

theorem signed_false (n : ℕ) : signed false n = n := rfl

theorem signed_not (negative : Bool) (n : ℕ) : signed (!negative) n = -signed negative n := by
  cases negative <;> simp [signed]

/-- A sum of zero is negative only if both terms are, so that it need not have an opposite. -/
theorem opposite_plus (d e : Datum) : d.opposite.plus e.opposite = (d.plus e).opposite ∨
    (∃ a, d.plus e = finite a 0) ∧ ∃ b, d.opposite.plus e.opposite = finite b 0 := by
  cases d with
  | nan => exact Or.inl rfl
  | infinite a =>
    left
    cases e with
    | nan => rfl
    | infinite b => cases a <;> cases b <;> rfl
    | finite b n => rfl
  | finite a m =>
    cases e with
    | nan => exact Or.inl rfl
    | infinite b => exact Or.inl rfl
    | finite b n =>
      have hneg : signed (!a) m + signed (!b) n = -(signed a m + signed b n) := by
        rw [signed_not, signed_not]
        omega
      by_cases hzero : signed a m + signed b n = 0
      · right
        rw [hzero, neg_zero] at hneg
        exact ⟨⟨a && b, by simp only [plus, if_pos hzero]⟩,
          ⟨!a && !b, by simp only [opposite, plus, if_pos hneg]⟩⟩
      · left
        have hne : -(signed a m + signed b n) ≠ 0 := neg_ne_zero.2 hzero
        simp only [opposite, plus, hneg, if_neg hzero, if_neg hne, Int.natAbs_neg]
        congr 1
        rw [← decide_not, decide_eq_decide]
        omega

end Datum

namespace Binary32

variable {x y : Binary32}

theorem mul_comm_binary32 (x y : Binary32) : x * y = y * x := by
  change (x.datum.times y.datum).round quantaPerOne = (y.datum.times x.datum).round quantaPerOne
  rw [Datum.times_comm]

theorem datum_neg_divNat (x : Binary32) (d : ℕ) (hd : 0 < d) :
    ((-x).divNat d).datum = (-(x.divNat d)).datum := by
  unfold divNat
  rw [datum_neg, datum_neg, Datum.datum_round_opposite _ d hd]

theorem datum_round_zero (negative : Bool) (d : ℕ) (hd : 0 < d) :
    ((Datum.finite negative 0).round d).datum = .finite negative 0 := by
  have hzero : nearestQuanta 0 d = 0 := by simp [nearestQuanta, nearestQuotient]
  change (ofQuanta negative 0 d).datum = _
  rw [datum_ofQuanta negative 0 d hd, hzero, if_pos (by decide)]

/-- A number is determined by its datum, as long as it is one. -/
theorem eq_of_datum (h : x.datum = y.datum) (hx : x.datum ≠ .nan) : x = y := by
  have hx' : x.isNaN = false := by
    rw [← Bool.not_eq_true, ← datum_eq_nan_iff]
    exact hx
  have hy' : y.isNaN = false := by
    rw [← Bool.not_eq_true, ← datum_eq_nan_iff, ← h]
    exact hx
  have hround := round_datum x
  rw [h, round_datum y, hx', hy'] at hround
  simpa using hround.symm

noncomputable section

variable {a b r t : ℝ}

/-- Two zeros may differ in sign, two other numbers of one value cannot. -/
theorem HasValue.eq_of_ne_zero (hx : x.HasValue a) (hy : y.HasValue a) (ha : a ≠ 0) : x = y := by
  wlog hpos : 0 < a generalizing x y a
  · have hneg := this (hasValue_neg hx) (hasValue_neg hy) (neg_ne_zero.2 ha)
      (neg_pos.2 (lt_of_le_of_ne (not_lt.1 hpos) ha))
    have hdatum := congrArg Binary32.datum hneg
    rw [datum_neg, datum_neg] at hdatum
    apply eq_of_datum
    · rw [← Datum.opposite_opposite x.datum, hdatum, Datum.opposite_opposite]
    · obtain ⟨s, m, hm, -⟩ := hx.datum
      rw [hm]
      exact Datum.noConfusion
  obtain ⟨m, -, hm, hma⟩ := hx.datum_of_pos hpos
  obtain ⟨n, -, hn, hna⟩ := hy.datum_of_pos hpos
  have hquantum : (2 : ℝ) ^ (-149 : ℤ) ≠ 0 := (zpow_pos two_pos _).ne'
  have hmn : m = n := by exact_mod_cast mul_right_cancel₀ hquantum (hma.trans hna.symm)
  apply eq_of_datum
  · rw [hm, hn, hmn]
  · rw [hm]
    exact Datum.noConfusion

/-! ## Bounds of opposites -/

theorem AtLeast.neg_mul (hx : (-x).AtLeast r) (hy : y.AtLeast t) (hr : 0 < r) (ht : 0 < t) :
    (-(x * y)).AtLeast (roundReal (r * t)) :=
  (hx.mul hy hr ht).congr (datum_neg_mul x y)

theorem AtLeast.neg_divNat (hx : (-x).AtLeast r) (hr : 0 < r) (d : ℕ) (hd : 0 < d) :
    (-(x.divNat d)).AtLeast (roundReal (r / d)) :=
  (hx.divNat hr d hd).congr (datum_neg_divNat x d hd)

theorem not_atLeast_of_zero {negative : Bool} (h : x.datum = .finite negative 0) (hr : 0 < r) :
    ¬ x.AtLeast r := by
  have hvalue := hasValue_of_datum h
  rw [Datum.signed_zero, Int.cast_zero, zero_mul] at hvalue
  rintro (hinf | ⟨a, ha, hle⟩)
  · rw [h] at hinf
    contradiction
  · have hzero : a = 0 := ha.unique hvalue
    linarith

theorem AtLeast.neg_sub (h : (y - x).AtLeast r) (hr : 0 < r) : (-(x - y)).AtLeast r := by
  have hother : y - x = ((x.datum.opposite).plus (y.datum.opposite).opposite).round 1 := by
    change (y.datum.plus (-x).datum).round 1 = _
    rw [datum_neg, Datum.plus_comm, Datum.opposite_opposite]
  have hneg : (-(x - y)).datum = ((x.datum.plus y.datum.opposite).opposite.round 1).datum := by
    rw [Datum.datum_round_opposite _ 1 one_pos, datum_neg]
    change ((x.datum.plus (-y).datum).round 1).datum.opposite = _
    rw [datum_neg]
  rcases Datum.opposite_plus x.datum y.datum.opposite with hsum | ⟨-, s, hzero⟩
  · rw [hother, hsum] at h
    exact h.congr hneg.symm
  · rw [hother, hzero] at h
    exact absurd h (not_atLeast_of_zero (datum_round_zero s 1 one_pos) hr)

/-! ## Comparisons with a number -/

theorem abs_count_lt {negative : Bool} {m : ℕ} (h : x.datum = .finite negative m) :
    |Datum.signed negative m| < infinityQuanta := by
  rw [Datum.abs_signed]
  exact_mod_cast (datum_finite h).2

/-- Above a number there are the positive infinity and the numbers of larger value. -/
theorem HasValue.lt_cases (hx : x.HasValue a) :
    x.lt y = true ↔ y.datum = .infinite false ∨ (y.IsFinite ∧ a < y.toReal) := by
  obtain ⟨s, m, hm, -⟩ := hx.datum
  have hcount := abs_lt.1 (abs_count_lt hm)
  cases hy : y.datum with
  | nan => simp [Binary32.lt, hm, hy, Datum.place, isFinite_iff]
  | infinite negative =>
    cases negative <;>
      simp [Binary32.lt, hm, hy, Datum.place, isFinite_iff, Datum.signed_true,
        Datum.signed_false] <;>
      omega
  | finite t n =>
    have hfinite : y.IsFinite := (isFinite_iff y).2 ⟨t, n, hy⟩
    simp [hx.lt_iff hfinite.hasValue, hfinite]

/-- Below a number there are the negative infinity and the numbers of smaller value. -/
theorem HasValue.gt_cases (hx : x.HasValue a) :
    y.lt x = true ↔ y.datum = .infinite true ∨ (y.IsFinite ∧ y.toReal < a) := by
  obtain ⟨s, m, hm, -⟩ := hx.datum
  have hcount := abs_lt.1 (abs_count_lt hm)
  cases hy : y.datum with
  | nan => simp [Binary32.lt, hm, hy, Datum.place, isFinite_iff]
  | infinite negative =>
    cases negative <;>
      simp [Binary32.lt, hm, hy, Datum.place, isFinite_iff, Datum.signed_true,
        Datum.signed_false] <;>
      omega
  | finite t n =>
    have hfinite : y.IsFinite := (isFinite_iff y).2 ⟨t, n, hy⟩
    simp [hfinite.hasValue.lt_iff hx, hfinite]

/-- What is at most a negative number has no root, the negative infinity included. -/
theorem sqrt_nan_of_below (h : (-x).AtLeast r) (hr : 0 < r) : x.sqrt = nan := by
  have hdatum : ∃ d : Datum, x.datum = d ∧
      (d = .infinite true ∨ ∃ m, 0 < m ∧ d = .finite true m) := by
    refine ⟨x.datum, rfl, ?_⟩
    rcases h with hinf | ⟨a, ha, hle⟩
    · left
      rw [← Datum.opposite_opposite x.datum, ← datum_neg, hinf]
      rfl
    · right
      obtain ⟨m, hm, hdatum, -⟩ := ha.datum_of_pos (hr.trans_le hle)
      refine ⟨m, hm, ?_⟩
      rw [← Datum.opposite_opposite x.datum, ← datum_neg, hdatum]
      rfl
  obtain ⟨d, hx, rfl | ⟨m, hm, rfl⟩⟩ := hdatum
  · simp [sqrt, hx]
  · simp [sqrt, hx, hm.ne']

end
end Binary32

end VectorSine
