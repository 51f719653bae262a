import VectorSine.Binary32.Conversion
import VectorSine.Proofs.Binary32.Special

/-! # Integral numbers

The greatest integer of a nonnegative number is its value after `floor`, without a rounding error.
On integral numbers in the range of 32 bits the two conversions to integers agree
(`truncateToInt32_of_integer`, `nearestInt32_of_integer`); from `2³¹` on one stops at the greatest
integer and the other answers with the least.
-/

namespace VectorSine
set_option autoImplicit false

namespace Binary32
noncomputable section

variable {x : Binary32} {a : ℝ}

/-! ## The greatest integer -/

theorem HasValue.roundReal_floor (hx : x.HasValue a) (ha : 0 ≤ a) :
    roundReal (⌊a⌋ : ℝ) = (⌊a⌋ : ℝ) := by
  have hfloor : 0 ≤ ⌊a⌋ := Int.floor_nonneg.2 ha
  by_cases hsmall : a < 2 ^ 24
  · refine VectorSine.roundReal_eq (m := ⌊a⌋) (e := 0) (by simp) ?_ (by norm_num)
    rw [abs_of_nonneg hfloor]
    have hlt : (⌊a⌋ : ℝ) < 2 ^ 24 := (Int.floor_le a).trans_lt hsmall
    exact_mod_cast hlt.le
  · obtain ⟨m, e, hm, he, rfl⟩ := hx.significand
    have he0 : 0 ≤ e := by
      apply le_of_not_gt
      intro hneg
      have hpow : (2 : ℝ) ^ e ≤ 1 := zpow_le_one_of_nonpos₀ one_le_two hneg.le
      have hm' : (m : ℝ) ≤ 2 ^ 24 := by exact_mod_cast (le_abs_self m).trans hm.le
      have hle : (m : ℝ) * 2 ^ e ≤ 2 ^ 24 * 1 :=
        mul_le_mul hm' hpow (zpow_pos two_pos e).le (by norm_num)
      have hlt : (m : ℝ) * 2 ^ e < 2 ^ 24 := by
        rcases hm'.lt_or_eq with hlt | heq
        · calc (m : ℝ) * 2 ^ e < 2 ^ 24 * 2 ^ e := mul_lt_mul_of_pos_right hlt (zpow_pos two_pos e)
            _ ≤ 2 ^ 24 * 1 := mul_le_mul_of_nonneg_left hpow (by norm_num)
            _ = 2 ^ 24 := mul_one _
        · exact absurd (by exact_mod_cast heq : m = 2 ^ 24)
            (by have := (le_abs_self m).trans_lt hm; omega)
      exact hsmall hlt
    obtain ⟨k, rfl⟩ := Int.eq_ofNat_of_zero_le he0
    have hint : (m : ℝ) * 2 ^ (k : ℤ) = ((m * 2 ^ k : ℤ) : ℝ) := by
      push_cast
      rw [zpow_natCast]
    have heq : ((⌊(m : ℝ) * 2 ^ (k : ℤ)⌋ : ℤ) : ℝ) = (m : ℝ) * 2 ^ (k : ℤ) := by
      rw [hint, Int.floor_intCast]
    rw [heq]
    exact hx.roundReal_eq

theorem hasValue_floor (hx : x.HasValue a) (ha : 0 ≤ a) : x.floor.HasValue (⌊a⌋ : ℝ) := by
  have hquantum : (0 : ℝ) < 2 ^ (-149 : ℤ) := zpow_pos two_pos _
  have hkeep := hx.roundReal_floor ha
  have hlt : |(⌊a⌋ : ℝ)| < 2 ^ (128 : ℤ) := by
    rw [abs_of_nonneg (by exact_mod_cast Int.floor_nonneg.2 ha)]
    exact (Int.floor_le a).trans_lt hx.lt
  obtain ⟨s, m, hm, hma⟩ := hx.datum
  obtain ⟨units, hfloor, hunits⟩ : ∃ units : ℕ,
      x.floor = (Datum.finite s (units * quantaPerOne)).round 1 ∧
      ((Datum.signed s units : ℤ) : ℝ) = (⌊a⌋ : ℝ) := by
    rcases ha.eq_or_lt with rfl | hpos
    · have hm0 : m = 0 := by
        have hsigned := (mul_eq_zero.1 hma).resolve_right hquantum.ne'
        have habs := Datum.abs_signed s m
        rw [Int.cast_eq_zero.1 hsigned, abs_zero] at habs
        exact_mod_cast habs.symm
      subst hm0
      refine ⟨0, ?_, by simp [Datum.signed_zero]⟩
      cases s <;> simp [Binary32.floor, hm, Datum.round, quantaPerOne]
    · obtain ⟨n, hn, hdatum, hvalue⟩ := hx.datum_of_pos hpos
      rw [hm] at hdatum
      injection hdatum with hs hmn
      subst hs hmn
      refine ⟨m / quantaPerOne, by simp [Binary32.floor, hm, Datum.round], ?_⟩
      have hdiv : a = (m : ℝ) / (quantaPerOne : ℕ) := by
        rw [← hvalue, quantum_eq_inv, div_eq_mul_inv]
      rw [hdiv, ← Rat.cast_natCast m, ← Rat.cast_natCast quantaPerOne, ← Rat.cast_div,
        Rat.floor_cast, Rat.floor_natCast_div_natCast]
      simp [Datum.signed]
  have hexact : (Datum.signed s (units * quantaPerOne) : ℝ) / (1 : ℕ) * 2 ^ (-149 : ℤ) =
      (⌊a⌋ : ℝ) := by
    rw [Datum.signed_mul_natCast, Int.cast_mul, hunits, Int.cast_natCast, Nat.cast_one, div_one,
      quantum_eq_inv, mul_assoc, mul_inv_cancel₀ quantaPerOne_ne_zero, mul_one]
  have hround := hasValue_round s (units * quantaPerOne) 1 one_pos
  rw [hexact, hkeep] at hround
  rw [hfloor]
  exact hround hlt

/-! ## Integers of 32 bits -/

theorem HasValue.datum_of_integer {z : ℤ} (hx : x.HasValue (z : ℝ)) :
    ∃ s k, x.datum = .finite s (k * quantaPerOne) ∧ Datum.signed s k = z := by
  obtain ⟨s, m, hm, hmz⟩ := hx.datum
  have hcount : Datum.signed s m = z * quantaPerOne := by
    rw [quantum_eq_inv] at hmz
    have hreal := (mul_inv_eq_iff_eq_mul₀ quantaPerOne_ne_zero).1 hmz
    exact_mod_cast hreal
  have hsteps : m = z.natAbs * quantaPerOne := by
    have habs := Datum.abs_signed s m
    rw [hcount, abs_mul, Nat.abs_cast, Int.abs_eq_natAbs] at habs
    exact_mod_cast habs.symm
  refine ⟨s, z.natAbs, by rw [hm, hsteps], ?_⟩
  rw [hsteps, Datum.signed_mul_natCast] at hcount
  exact mul_right_cancel₀ (by decide) hcount

variable {z : ℤ}

theorem truncateToInt32_of_integer (hx : x.HasValue (z : ℝ)) (hlow : minInt32 ≤ z)
    (hhigh : z ≤ maxInt32) : x.truncateToInt32 = BitVec.ofInt 32 z := by
  obtain ⟨s, k, hdatum, rfl⟩ := hx.datum_of_integer
  unfold truncateToInt32
  rw [hdatum]
  change BitVec.ofInt 32 (max minInt32 (min maxInt32
    (Datum.signed s (k * quantaPerOne / quantaPerOne)))) = _
  rw [Nat.mul_div_cancel k (by decide), min_eq_right hhigh, max_eq_right hlow]

theorem nearestInt32_of_integer (hx : x.HasValue (z : ℝ)) (hlow : minInt32 ≤ z)
    (hhigh : z ≤ maxInt32) : x.nearestInt32 = BitVec.ofInt 32 z := by
  obtain ⟨s, k, hdatum, rfl⟩ := hx.datum_of_integer
  unfold nearestInt32
  rw [hdatum]
  simp only [nearestQuotient_mul k quantaPerOne (by decide), if_pos (And.intro hlow hhigh)]

/-- Beyond the range a finite count is a multiple of one by more than the greatest integer. -/
theorem AtLeast.datum_beyond (hx : x.AtLeast (2 ^ (31 : ℤ))) :
    x.datum = .infinite false ∨
      ∃ m : ℕ, x.datum = .finite false m ∧ 2 ^ 31 ≤ m / quantaPerOne := by
  rcases hx with hinf | ⟨a, ha, hle⟩
  · exact Or.inl hinf
  · right
    have hpos : 0 < a := (zpow_pos two_pos _).trans_le hle
    obtain ⟨m, -, hdatum, hvalue⟩ := ha.datum_of_pos hpos
    refine ⟨m, hdatum, (Nat.le_div_iff_mul_le (by decide)).2 ?_⟩
    rw [← hvalue, quantum_eq_inv, ← div_eq_mul_inv,
      le_div_iff₀ (lt_of_le_of_ne (Nat.cast_nonneg _) quantaPerOne_ne_zero.symm)] at hle
    have hnat : (2 : ℝ) ^ (31 : ℤ) = ((2 ^ 31 : ℕ) : ℝ) := by norm_num
    rw [hnat] at hle
    exact_mod_cast hle

theorem truncateToInt32_of_atLeast (hx : x.AtLeast (2 ^ (31 : ℤ))) :
    x.truncateToInt32 = BitVec.ofInt 32 maxInt32 := by
  unfold truncateToInt32
  rcases hx.datum_beyond with hinf | ⟨m, hdatum, hunits⟩
  · rw [hinf]
    rfl
  · rw [hdatum]
    have hmin : min maxInt32 (Datum.signed false (m / quantaPerOne)) = maxInt32 := by
      apply min_eq_left
      unfold maxInt32 Datum.signed
      rw [if_neg Bool.false_ne_true]
      omega
    simp only [hmin]
    rfl

theorem nearestInt32_of_atLeast (hx : x.AtLeast (2 ^ (31 : ℤ))) :
    x.nearestInt32 = indefiniteInt32 := by
  unfold nearestInt32
  rcases hx.datum_beyond with hinf | ⟨m, hdatum, hunits⟩
  · rw [hinf]
  · rw [hdatum]
    have hnearest : m / quantaPerOne ≤ nearestQuotient m quantaPerOne := by
      unfold nearestQuotient
      split
      · exact Nat.le_succ _
      · exact le_rfl
    apply if_neg
    unfold maxInt32 Datum.signed
    rw [if_neg Bool.false_ne_true]
    omega

/-! ## Both conversions after `floor` -/

theorem HasValue.floor_conversions (hx : x.HasValue a) (ha : 0 ≤ a) (h : a < 2 ^ (31 : ℤ)) :
    x.floor.truncateToInt32 = BitVec.ofInt 32 ⌊a⌋ ∧ x.floor.nearestInt32 = BitVec.ofInt 32 ⌊a⌋ := by
  have hfloor := hasValue_floor hx ha
  have hlow : minInt32 ≤ ⌊a⌋ := by
    have hnonneg : 0 ≤ ⌊a⌋ := Int.floor_nonneg.2 ha
    unfold minInt32
    omega
  have hhigh : ⌊a⌋ ≤ maxInt32 := by
    have hlt : (⌊a⌋ : ℝ) < 2 ^ (31 : ℤ) := (Int.floor_le a).trans_lt h
    have hint : ⌊a⌋ < 2 ^ 31 := by exact_mod_cast hlt
    unfold maxInt32
    omega
  exact ⟨truncateToInt32_of_integer hfloor hlow hhigh, nearestInt32_of_integer hfloor hlow hhigh⟩

theorem AtLeast.floor_beyond (hx : x.AtLeast (2 ^ (31 : ℤ))) :
    x.floor.truncateToInt32 = BitVec.ofInt 32 maxInt32 ∧
      x.floor.nearestInt32 = indefiniteInt32 := by
  have hfloor : x.floor.AtLeast (2 ^ (31 : ℤ)) := by
    rcases hx with hinf | ⟨a, ha, hle⟩
    · left
      simp [Binary32.floor, hinf]
    · have hpos : 0 ≤ a := (zpow_pos two_pos _).le.trans hle
      refine Or.inr ⟨_, hasValue_floor ha hpos, ?_⟩
      have hint : (2 : ℝ) ^ (31 : ℤ) = ((2 ^ 31 : ℤ) : ℝ) := by norm_num
      rw [hint] at hle ⊢
      exact_mod_cast Int.le_floor.2 hle
  exact ⟨truncateToInt32_of_atLeast hfloor, nearestInt32_of_atLeast hfloor⟩

/-! ## From integers -/

theorem hasValue_ofInt32 (n : BitVec 32) : (ofInt32 n).HasValue (roundReal (n.toInt : ℝ)) := by
  have hlow := n.le_toInt
  have hhigh := n.toInt_lt
  have hexact : (Datum.signed (decide (n.toInt < 0)) (n.toInt.natAbs * quantaPerOne) : ℝ) /
      (1 : ℕ) * 2 ^ (-149 : ℤ) = (n.toInt : ℝ) := by
    rw [Datum.signed_mul_natCast, Datum.signed_natAbs, Int.cast_mul, Int.cast_natCast, Nat.cast_one,
      div_one, quantum_eq_inv, mul_assoc, mul_inv_cancel₀ quantaPerOne_ne_zero, mul_one]
  have hbound : |(n.toInt : ℝ)| ≤ 2 ^ (127 : ℤ) := by
    have hint : |n.toInt| ≤ 2 ^ 31 := by
      rw [abs_le]
      omega
    have hreal : |(n.toInt : ℝ)| ≤ 2 ^ 31 := by exact_mod_cast hint
    exact hreal.trans (by norm_num)
  have hround := hasValue_round (decide (n.toInt < 0)) (n.toInt.natAbs * quantaPerOne) 1 one_pos
  rw [hexact] at hround
  exact hround (abs_roundReal_lt hbound)

end
end Binary32

end VectorSine
