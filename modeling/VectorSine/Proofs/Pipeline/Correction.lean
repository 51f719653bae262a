import VectorSine.Proofs.Pipeline.Quadrant

/-! # The correction of any pair

The octant is a word of 32 bits, and counting up or masking it may wrap around at the ends of the
range. The masks look at its last three bits only, which are its remainder in a turn of eight
octants for negative words too. So both masks are all ones or all zeros for every word, and the
correction depends on the place in the turn alone.

Of a pair in `[0, 1]` it gives the sine without a rounding error. The cosine comes from a difference
and a sum, each rounded, which may lose a last digit and still does not leave the range.

* `toInt_emod_eight`: the place of a word in the turn.
* `correct_eq`: the correction by that place and the sign of the angle.
* `correct_pair`: its value.
-/

namespace VectorSine
set_option autoImplicit false
noncomputable section

open Binary32

namespace Quadrant

variable {sine cosine x : Binary32} {a b : ℝ}

/-! ## The turn of eight octants -/

theorem toInt_emod_eight (q : BitVec 32) : q.toInt % 8 = (q.toNat % 8 : ℕ) := by
  have hturns : (8 : ℤ) ∣ (2 ^ 32 : ℕ) := by norm_num
  rw [BitVec.toInt_eq_toNat_bmod, ← Int.emod_emod_of_dvd _ hturns, Int.bmod_emod,
    Int.emod_emod_of_dvd _ hturns]
  rfl

/-- The octants of a turn whose sine is the sine of the reduced angle. -/
def keptOctants : Finset ℤ := {0, 3, 4, 7}

theorem swapMask_eq (q : BitVec 32) :
    swapMask q = laneMask (decide (q.toInt % 8 ∉ keptOctants)) := by
  have hmask := swapMask_ofNat q.toNat
  rw [BitVec.ofNat_toNat, BitVec.setWidth_eq] at hmask
  rw [hmask, toInt_emod_eight]
  congr 1
  rw [decide_eq_decide]
  simp only [keptOctants, Finset.mem_insert, Finset.mem_singleton]
  omega

theorem lowerHalf_eq (q : BitVec 32) : lowerHalf q = decide (4 ≤ q.toInt % 8) := by
  have hhalf := lowerHalf_ofNat q.toNat
  rw [BitVec.ofNat_toNat, BitVec.setWidth_eq] at hhalf
  rw [hhalf, toInt_emod_eight, decide_eq_decide]
  omega

theorem flipMask_eq (q : BitVec 32) (x : Binary32) :
    flipMask q x = laneMask (decide (4 ≤ q.toInt % 8) ^^ x.isBelowZero) := by
  rw [flipMask_eq_laneMask, ← lowerHalf_eq]
  rfl

theorem correct_eq (sine cosine : Binary32) (q : BitVec 32) (x : Binary32) :
    correct sine cosine q x =
      flip (select sine cosine (laneMask (decide (q.toInt % 8 ∉ keptOctants))))
        (laneMask (decide (4 ≤ q.toInt % 8) ^^ x.isBelowZero)) := by
  rw [correct, swapMask_eq, flipMask_eq]

/-! ## A pair in the range -/

/-- The chosen function before its sign: not negative, the sine itself or near the cosine. -/
theorem hasValue_select_pair (swapped : Bool) (hs : sine.HasValue a) (hc : cosine.HasValue b)
    (ha0 : 0 ≤ a) (ha1 : a ≤ 1) (hb0 : 0 ≤ b) (hb1 : b ≤ 1) :
    ∃ c, (select sine cosine (laneMask swapped)).HasValue c ∧ 0 ≤ c ∧ c ≤ 1 ∧
      (swapped = false → c = a) ∧ (swapped = true → |c - b| ≤ 2 ^ (-24 : ℤ)) := by
  obtain ⟨c, hvalue, hsize, hnonneg⟩ :=
    hasValue_select swapped hs hc ha0 ha1 (by rwa [abs_of_nonneg hb0])
  refine ⟨c, hvalue, hnonneg hb0, (abs_le.1 hsize).2, ?_, ?_⟩
  · rintro rfl
    have hkept : (select sine cosine (laneMask false)).HasValue a :=
      hasValue_select_sine hs (by rwa [abs_of_nonneg ha0])
    exact hvalue.unique hkept
  · rintro rfl
    obtain ⟨d, hd, hnear⟩ := select_cosine_near hs hc ha0 ha1 hb0 hb1
    rwa [hvalue.unique hd]

/-- A number that is not negative, with the other sign where that is asked for. -/
theorem signed_cases {c : ℝ} (turned : Bool) (hc : 0 ≤ c) :
    |if turned then -c else c| = c ∧
      ((if turned then -c else c) ≠ 0 → ((if turned then -c else c) < 0 ↔ turned = true)) := by
  cases turned with
  | true =>
    simp only [if_true, abs_neg, abs_of_nonneg hc, true_and, iff_true]
    intro hne
    exact lt_of_le_of_ne (neg_nonpos.2 hc) hne
  | false =>
    simp only [Bool.false_eq_true, if_false, abs_of_nonneg hc, true_and, iff_false, not_lt]
    exact fun _ => hc

/-- The correction of a pair in `[0, 1]`, for every word as the octant and every angle. -/
theorem correct_pair (hs : sine.IsFinite) (hs0 : 0 ≤ sine.toReal) (hs1 : sine.toReal ≤ 1)
    (hc : cosine.IsFinite) (hc0 : 0 ≤ cosine.toReal) (hc1 : cosine.toReal ≤ 1) (q : BitVec 32)
    (x : Binary32) :
    (∀ p : BitVec 32, p.toInt % 8 = q.toInt % 8 →
      correct sine cosine p x = correct sine cosine q x) ∧
    ∃ z, (correct sine cosine q x).HasValue z ∧
      (q.toInt % 8 ∈ keptOctants → |z| = sine.toReal) ∧
      (q.toInt % 8 ∉ keptOctants → |(|z|) - cosine.toReal| ≤ 2 ^ (-24 : ℤ)) ∧ |z| ≤ 1 ∧
      (z ≠ 0 → (z < 0 ↔ Xor (4 ≤ q.toInt % 8) (x.isBelowZero = true))) := by
  refine ⟨fun p hp => by rw [correct_eq, correct_eq, hp], ?_⟩
  obtain ⟨c, hvalue, hnonneg, hone, hkept, hswapped⟩ :=
    hasValue_select_pair (decide (q.toInt % 8 ∉ keptOctants)) hs.hasValue hc.hasValue
      hs0 hs1 hc0 hc1
  have hflip := hasValue_flip (decide (4 ≤ q.toInt % 8) ^^ x.isBelowZero) hvalue (by
    rw [abs_of_nonneg hnonneg]
    exact hone.trans (by norm_num))
  obtain ⟨habs, hsign⟩ := signed_cases (decide (4 ≤ q.toInt % 8) ^^ x.isBelowZero) hnonneg
  rw [← correct_eq] at hflip
  refine ⟨_, hflip, ?_, ?_, ?_, ?_⟩
  · intro hmem
    rw [habs]
    exact hkept (by simpa using hmem)
  · intro hmem
    rw [habs]
    exact hswapped (by simpa using hmem)
  · rw [habs]
    exact hone
  · intro hne
    rw [hsign hne]
    cases x.isBelowZero <;> by_cases hhalf : 4 ≤ q.toInt % 8 <;> simp [hhalf]

/-- The cosine of a pair far apart, for the least odd word, which is one octant from the start of a
turn, and a negative angle. -/
theorem correct_pair_least :
    (BitVec.ofNat 32 0x80000001).toInt % 8 ∉ keptOctants ∧
    ∃ z, (correct ⟨0x3F7FFFFF⟩ ⟨0x33000001⟩ 0x80000001 ⟨0xBF800000⟩).HasValue z ∧
      |(|z|) - (⟨0x33000001⟩ : Binary32).toReal| ≤ 2 ^ (-24 : ℤ) ∧ (z ≠ 0 → z < 0) := by
  have hsine : (⟨0x3F7FFFFF⟩ : Binary32).HasValue (16777215 / 2 ^ 24) :=
    hasValue_of_dyadic 16777215 125 (by decide) (by norm_num)
  have hcosine : (⟨0x33000001⟩ : Binary32).HasValue (8388609 / 2 ^ 48) :=
    hasValue_of_dyadic 8388609 101 (by decide) (by norm_num)
  have hplace : (0x80000001 : BitVec 32).toInt % 8 ∉ keptOctants := by decide
  obtain ⟨-, z, hz, -, hnear, -, hsign⟩ :=
    correct_pair hsine.finite (by rw [hsine.toReal_eq]; norm_num)
      (by rw [hsine.toReal_eq]; norm_num) hcosine.finite (by rw [hcosine.toReal_eq]; norm_num)
      (by rw [hcosine.toReal_eq]; norm_num) 0x80000001 ⟨0xBF800000⟩
  exact ⟨hplace, z, hz, hnear hplace, fun hne => (hsign hne).2 (Or.inr ⟨by decide, by decide⟩)⟩

end Quadrant

end
end VectorSine
