import VectorSine.Proofs.Binary32.RealValue

/-! # Special values in arithmetic

A NaN passes through every operation. An infinity does not stop a lower bound: `x.AtLeast r` says
that `x` is positive infinity or a finite number not below `r`, and sums and products of such
numbers keep a bound, rounded like any other result. From `2¹²⁸` on only infinity is left
(`AtLeast.infinite`).
-/

namespace VectorSine
set_option autoImplicit false

namespace Datum

@[simp] theorem plus_nan (d : Datum) : d.plus nan = nan := by cases d <;> rfl

@[simp] theorem nan_plus (d : Datum) : nan.plus d = nan := by cases d <;> rfl

@[simp] theorem times_nan (d : Datum) : d.times nan = nan := by cases d <;> rfl

@[simp] theorem nan_times (d : Datum) : nan.times d = nan := by cases d <;> rfl

theorem plus_comm (d e : Datum) : d.plus e = e.plus d := by
  cases d with
  | nan => rw [nan_plus, plus_nan]
  | infinite a =>
    cases e with
    | nan => rfl
    | infinite b => cases a <;> cases b <;> rfl
    | finite b n => rfl
  | finite a m =>
    cases e with
    | nan => rfl
    | infinite b => rfl
    | finite b n =>
      simp only [plus]
      rw [Int.add_comm, Bool.and_comm]

theorem opposite_times (d e : Datum) : d.opposite.times e = (d.times e).opposite := by
  cases d with
  | nan => rfl
  | infinite a =>
    cases e with
    | nan => rfl
    | infinite b => cases a <;> cases b <;> rfl
    | finite b n => by_cases h : n = 0 <;> simp [opposite, times, h]
  | finite a m =>
    cases e with
    | nan => rfl
    | infinite b => by_cases h : m = 0 <;> simp [opposite, times, h]
    | finite b n => cases a <;> cases b <;> rfl

theorem datum_round_opposite (d : Datum) (k : ℕ) (hk : 0 < k) :
    (d.opposite.round k).datum = (d.round k).datum.opposite := by
  cases d with
  | nan =>
    change Binary32.nan.datum = Binary32.nan.datum.opposite
    rw [Binary32.datum_nan, opposite]
  | infinite a =>
    change (Binary32.infinity (!a)).datum = (Binary32.infinity a).datum.opposite
    rw [Binary32.datum_infinity, Binary32.datum_infinity, opposite]
  | finite a m =>
    change (Binary32.ofQuanta (!a) m k).datum = (Binary32.ofQuanta a m k).datum.opposite
    rw [Binary32.datum_ofQuanta _ m k hk, Binary32.datum_ofQuanta _ m k hk]
    by_cases h : Binary32.nearestQuanta m k < Binary32.infinityQuanta
    · rw [if_pos h, if_pos h, opposite]
    · rw [if_neg h, if_neg h, opposite]

end Datum

namespace Binary32

variable {x y z : Binary32}

theorem datum_neg_mul (x y : Binary32) : (-x * y).datum = (-(x * y)).datum := by
  change (((-x).datum.times y.datum).round quantaPerOne).datum = _
  rw [datum_neg, datum_neg, Datum.opposite_times]
  exact Datum.datum_round_opposite _ _ (by decide)

/-! ## NaNs -/

theorem add_comm_binary32 (x y : Binary32) : x + y = y + x := by
  change (x.datum.plus y.datum).round 1 = (y.datum.plus x.datum).round 1
  rw [Datum.plus_comm]

theorem nan_add (h : x.datum = .nan) (y : Binary32) : x + y = nan := by
  change (x.datum.plus y.datum).round 1 = nan
  rw [h, Datum.nan_plus]
  rfl

theorem nan_sub (h : x.datum = .nan) (y : Binary32) : x - y = nan := nan_add h (-y)

theorem nan_mul (h : x.datum = .nan) (y : Binary32) : x * y = nan := by
  change (x.datum.times y.datum).round quantaPerOne = nan
  rw [h, Datum.nan_times]
  rfl

theorem mul_nan (x : Binary32) (h : y.datum = .nan) : x * y = nan := by
  change (x.datum.times y.datum).round quantaPerOne = nan
  rw [h, Datum.times_nan]
  rfl

theorem divNat_nan (h : x.datum = .nan) (d : ℕ) : x.divNat d = nan := by
  unfold divNat
  rw [h]
  rfl

theorem sqrt_nan (h : x.datum = .nan) : x.sqrt = nan := by simp [sqrt, h]

theorem fusedMulAdd_nan_right (x y : Binary32) (h : z.datum = .nan) : fusedMulAdd x y z = nan := by
  unfold fusedMulAdd
  rw [h]
  change ((x.datum.times y.datum).plus Datum.nan).round quantaPerOne = nan
  rw [Datum.plus_nan]
  rfl

theorem negMulAdd_nan (fused : Bool) (x y : Binary32) (h : z.datum = .nan) :
    negMulAdd fused z x y = nan := by
  unfold negMulAdd
  split
  · exact fusedMulAdd_nan_right (-x) y h
  · rw [nan_sub h]

/-! ## Lower bounds -/

noncomputable section

/-- Positive infinity, or a finite number that is not below `r`. -/
def AtLeast (x : Binary32) (r : ℝ) : Prop :=
  x.datum = .infinite false ∨ ∃ a, x.HasValue a ∧ r ≤ a

variable {a b r t : ℝ}

theorem AtLeast.mono (h : x.AtLeast r) (ht : t ≤ r) : x.AtLeast t := by
  rcases h with hinf | ⟨a, ha, hle⟩
  · exact Or.inl hinf
  · exact Or.inr ⟨a, ha, ht.trans hle⟩

theorem AtLeast.congr (h : x.AtLeast r) (hxy : x.datum = y.datum) : y.AtLeast r := by
  rcases h with hinf | ⟨a, ha, hle⟩
  · exact Or.inl (hxy.symm.trans hinf)
  · exact Or.inr ⟨a, ha.congr hxy, hle⟩

theorem HasValue.atLeast (h : x.HasValue a) : x.AtLeast a := Or.inr ⟨a, h, le_rfl⟩

theorem HasValue.lt (hx : x.HasValue a) : a < 2 ^ (128 : ℤ) := by
  obtain ⟨s, m, hm, rfl⟩ := hx.datum
  have hquantum : (0 : ℝ) < 2 ^ (-149 : ℤ) := zpow_pos two_pos _
  have hlt : (m : ℝ) < infinityQuanta := by exact_mod_cast (datum_finite hm).2
  have hsigned : ((Datum.signed s m : ℤ) : ℝ) ≤ m := by
    have h := le_abs_self (Datum.signed s m)
    rw [Datum.abs_signed] at h
    exact_mod_cast h
  calc ((Datum.signed s m : ℤ) : ℝ) * 2 ^ (-149 : ℤ) < infinityQuanta * 2 ^ (-149 : ℤ) :=
        mul_lt_mul_of_pos_right (hsigned.trans_lt hlt) hquantum
    _ = 2 ^ (128 : ℤ) := by norm_num [infinityQuanta]

theorem AtLeast.infinite (h : x.AtLeast (2 ^ (128 : ℤ))) : x.datum = .infinite false := by
  rcases h with hinf | ⟨a, ha, hle⟩
  · exact hinf
  · exact absurd ha.lt (not_lt.2 hle)

theorem round_atLeast (n d : ℕ) (hd : 0 < d) (h : r ≤ (n : ℝ) / d * 2 ^ (-149 : ℤ)) :
    ((Datum.finite false n).round d).AtLeast (roundReal r) := by
  have hround := roundReal_mono h
  rw [← nearestQuanta_eq_roundReal n d hd] at hround
  have hdatum := datum_ofQuanta false n d hd
  change (ofQuanta false n d).AtLeast (roundReal r)
  split at hdatum
  · refine Or.inr ⟨_, hasValue_of_datum hdatum, ?_⟩
    simpa [Datum.signed] using hround
  · exact Or.inl hdatum

/-- A finite number is rounded like the exact result, if that is positive. -/
theorem round_plus_atLeast (s t : Bool) (m n d : ℕ) (hd : 0 < d) (hr : 0 < r)
    (h : r ≤ ((Datum.signed s m + Datum.signed t n : ℤ) : ℝ) / d * 2 ^ (-149 : ℤ)) :
    (((Datum.finite s m).plus (Datum.finite t n)).round d).AtLeast (roundReal r) := by
  obtain ⟨u, k, hk, hcount⟩ := Datum.plus_finite s t m n
  have hquantum : (0 : ℝ) < 2 ^ (-149 : ℤ) := zpow_pos two_pos _
  have hd' : (0 : ℝ) < d := Nat.cast_pos.2 hd
  rw [← hcount] at h
  have hu : u = false := by
    cases u
    · rfl
    · have hneg : ((Datum.signed true k : ℤ) : ℝ) / d * 2 ^ (-149 : ℤ) ≤ 0 := by
        apply mul_nonpos_of_nonpos_of_nonneg _ hquantum.le
        apply div_nonpos_of_nonpos_of_nonneg _ hd'.le
        simp [Datum.signed]
      linarith
  rw [hk, hu]
  apply round_atLeast k d hd
  simpa [hu, Datum.signed] using h

theorem AtLeast.add (hx : x.AtLeast r) (hy : y.HasValue b) (h : 0 < r + b) :
    (x + y).AtLeast (roundReal (r + b)) := by
  obtain ⟨t, n, hn, rfl⟩ := hy.datum
  change ((x.datum.plus y.datum).round 1).AtLeast _
  rcases hx with hinf | ⟨a, ha, hle⟩
  · rw [hinf, hn]
    exact Or.inl (datum_infinity false)
  · obtain ⟨s, m, hm, rfl⟩ := ha.datum
    rw [hm, hn]
    apply round_plus_atLeast s t m n 1 one_pos h
    rw [Nat.cast_one, div_one, Int.cast_add, add_mul]
    exact add_le_add_left hle _

theorem HasValue.datum_of_pos (hx : x.HasValue a) (ha : 0 < a) :
    ∃ m : ℕ, 0 < m ∧ x.datum = .finite false m ∧ (m : ℝ) * 2 ^ (-149 : ℤ) = a := by
  have hquantum : (0 : ℝ) < 2 ^ (-149 : ℤ) := zpow_pos two_pos _
  obtain ⟨s, m, hm, rfl⟩ := hx.datum
  have hcount : (0 : ℝ) < (Datum.signed s m : ℤ) := pos_of_mul_pos_left ha hquantum.le
  cases s
  · refine ⟨m, ?_, hm, by simp [Datum.signed]⟩
    simpa [Datum.signed] using hcount
  · simp only [Datum.signed, if_true, Int.cast_neg, Int.cast_natCast, Left.neg_pos_iff] at hcount
    exact absurd hcount (not_lt.2 (Nat.cast_nonneg m))

theorem AtLeast.times (hx : x.AtLeast r) (hy : y.AtLeast t) (hr : 0 < r) (ht : 0 < t) :
    x.datum.times y.datum = .infinite false ∨
      ∃ n : ℕ, x.datum.times y.datum = .finite false n ∧
        r * t ≤ (n : ℝ) / quantaPerOne * 2 ^ (-149 : ℤ) := by
  rcases hx with hx | ⟨a, ha, hra⟩ <;> rcases hy with hy | ⟨b, hb, htb⟩
  · left
    rw [hx, hy]
    rfl
  · left
    obtain ⟨n, hn, hy, -⟩ := hb.datum_of_pos (ht.trans_le htb)
    rw [hx, hy]
    simp [Datum.times, hn.ne']
  · left
    obtain ⟨m, hm, hx, -⟩ := ha.datum_of_pos (hr.trans_le hra)
    rw [hx, hy]
    simp [Datum.times, hm.ne']
  · right
    obtain ⟨m, hm, hx, rfl⟩ := ha.datum_of_pos (hr.trans_le hra)
    obtain ⟨n, hn, hy, rfl⟩ := hb.datum_of_pos (ht.trans_le htb)
    refine ⟨m * n, by rw [hx, hy]; rfl, ?_⟩
    calc r * t ≤ (m : ℝ) * 2 ^ (-149 : ℤ) * (n * 2 ^ (-149 : ℤ)) :=
          mul_le_mul hra htb ht.le (hr.le.trans hra)
      _ = ((m * n : ℕ) : ℝ) / quantaPerOne * 2 ^ (-149 : ℤ) := by
        rw [quantum_eq_inv]
        push_cast
        ring

theorem AtLeast.mul (hx : x.AtLeast r) (hy : y.AtLeast t) (hr : 0 < r) (ht : 0 < t) :
    (x * y).AtLeast (roundReal (r * t)) := by
  change ((x.datum.times y.datum).round quantaPerOne).AtLeast _
  rcases hx.times hy hr ht with hinf | ⟨n, hn, hle⟩
  · rw [hinf]
    exact Or.inl (datum_infinity false)
  · rw [hn]
    exact round_atLeast n quantaPerOne (by decide) hle

theorem AtLeast.divNat (hx : x.AtLeast r) (hr : 0 < r) (d : ℕ) (hd : 0 < d) :
    (x.divNat d).AtLeast (roundReal (r / d)) := by
  unfold Binary32.divNat
  rcases hx with hinf | ⟨a, ha, hle⟩
  · rw [hinf]
    exact Or.inl (datum_infinity false)
  · obtain ⟨m, -, hm, rfl⟩ := ha.datum_of_pos (hr.trans_le hle)
    rw [hm]
    apply round_atLeast m d hd
    have hd' : (0 : ℝ) < d := Nat.cast_pos.2 hd
    calc r / d ≤ (m : ℝ) * 2 ^ (-149 : ℤ) / d := div_le_div_of_nonneg_right hle hd'.le
      _ = (m : ℝ) / d * 2 ^ (-149 : ℤ) := by ring

theorem AtLeast.fusedMulAdd (hx : x.AtLeast r) (hy : y.AtLeast t) (hz : z.HasValue b) (hr : 0 < r)
    (ht : 0 < t) (h : 0 < r * t + b) : (fusedMulAdd x y z).AtLeast (roundReal (r * t + b)) := by
  obtain ⟨u, k, hk, rfl⟩ := hz.datum
  unfold Binary32.fusedMulAdd
  rcases hx.times hy hr ht with hinf | ⟨n, hn, hle⟩
  · rw [hinf, hk]
    exact Or.inl (datum_infinity false)
  · rw [hn, hk]
    apply round_plus_atLeast false u n (k * quantaPerOne) quantaPerOne (by decide) h
    rw [Datum.signed_mul_natCast, Int.cast_add, Int.cast_mul, Int.cast_natCast, add_div, add_mul,
      mul_div_cancel_right₀ _ quantaPerOne_ne_zero]
    exact add_le_add_left (by simpa [Datum.signed] using hle) _

theorem AtLeast.fusedMulAdd_addend (hx : x.HasValue a) (hy : y.HasValue b) (hz : z.AtLeast r)
    (h : 0 < a * b + r) : (Binary32.fusedMulAdd x y z).AtLeast (roundReal (a * b + r)) := by
  obtain ⟨s, m, hm, rfl⟩ := hx.datum
  obtain ⟨t, n, hn, rfl⟩ := hy.datum
  unfold Binary32.fusedMulAdd
  rw [hm, hn]
  rcases hz with hinf | ⟨c, hc, hle⟩
  · rw [hinf]
    exact Or.inl (datum_infinity false)
  · obtain ⟨u, k, hk, rfl⟩ := hc.datum
    rw [hk]
    apply round_plus_atLeast (s ^^ t) u (m * n) (k * quantaPerOne) quantaPerOne (by decide) h
    have hproduct : (Datum.signed s m : ℝ) * 2 ^ (-149 : ℤ) * (Datum.signed t n * 2 ^ (-149 : ℤ)) =
        (Datum.signed (s ^^ t) (m * n) : ℝ) / quantaPerOne * 2 ^ (-149 : ℤ) := by
      rw [Datum.signed_mul, quantum_eq_inv]
      push_cast
      ring
    rw [Datum.signed_mul_natCast u, Int.cast_add, Int.cast_mul (Datum.signed u k), Int.cast_natCast,
      add_div, add_mul, mul_div_cancel_right₀ _ quantaPerOne_ne_zero, hproduct]
    exact add_le_add_right hle _

theorem AtLeast.mulAdd (fused : Bool) (hx : x.AtLeast r) (hy : y.AtLeast t) (hz : z.HasValue b)
    (hr : 0 < r) (ht : 0 < t) (hkeep : roundReal (r * t) = r * t) (h : 0 < r * t + b) :
    (mulAdd fused z x y).AtLeast (roundReal (r * t + b)) := by
  cases fused
  · have hproduct := hx.mul hy hr ht
    rw [hkeep] at hproduct
    change (z + x * y).AtLeast _
    rw [add_comm_binary32]
    exact hproduct.add hz h
  · exact hx.fusedMulAdd hy hz hr ht h

theorem AtLeast.mulSub (fused : Bool) (hx : x.AtLeast r) (hy : y.AtLeast t) (hz : z.HasValue b)
    (hr : 0 < r) (ht : 0 < t) (hkeep : roundReal (r * t) = r * t) (h : 0 < r * t - b) :
    (mulSub fused z x y).AtLeast (roundReal (r * t - b)) := by
  rw [sub_eq_add_neg] at h ⊢
  cases fused
  · have hproduct := hx.mul hy hr ht
    rw [hkeep] at hproduct
    exact hproduct.add (hasValue_neg hz) h
  · exact hx.fusedMulAdd hy (hasValue_neg hz) hr ht h

end
end Binary32

end VectorSine
