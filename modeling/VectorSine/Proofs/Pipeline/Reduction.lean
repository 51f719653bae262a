import VectorSine.Proofs.Pipeline.HalfAngle

/-! # The error of the reduction

The larger part of a quarter of `π` has so few digits that taking an even number of it away from an
angle is exact, fused or not. So the reduced angle is off by what the two parts together lack of a
quarter of `π`, for every octant, and by the rounding of the second step.

Near a multiple of `π` the count of octants decides the sign of the sine, and it is the right one:
the last number below a multiple of `π` has a product that stays below the multiple of four, and the
first one above has a product that is rounded up to it.

* `hasValue_subtract_high`: the first step is exact.
* `subtract_near`: the error of the reduced angle.
* `Boundary.octants_iff`: the octants reach a multiple of four where the angle reaches one of `π`.
-/

namespace VectorSine
set_option autoImplicit false
noncomputable section

open Binary32

namespace Octant

variable {x s r : Binary32} {a X : ℝ} {n : ℕ}

/-! ## Taking octants away -/

theorem hasValue_negMulAdd_exact (fused : Bool) {part : Binary32} {b d : ℝ} (hs : s.HasValue a)
    (hr : r.HasValue b) (hpart : part.HasValue d) (hproduct : roundReal (b * d) = b * d)
    (hdifference : roundReal (a - b * d) = a - b * d) (hb : |b * d| ≤ 2 ^ (127 : ℤ))
    (hd : |a - b * d| ≤ 2 ^ (127 : ℤ)) : (negMulAdd fused s r part).HasValue (a - b * d) := by
  cases fused with
  | true =>
    have hsum : -b * d + a = a - b * d := by ring
    have hvalue := hasValue_fusedMulAdd (hasValue_neg hr) hpart hs (by rw [hsum]; exact hd)
    rw [hsum, hdifference] at hvalue
    exact hvalue
  | false =>
    have hrounded := hasValue_mul hr hpart hb
    rw [hproduct] at hrounded
    have hvalue := hasValue_sub hs hrounded hd
    rw [hdifference] at hvalue
    exact hvalue

/-- An even number of octants has a multiple of `2⁻⁷` for its larger part. -/
theorem octantHigh_product (j : ℕ) :
    ((2 * j : ℕ) : ℝ) * (201 / 2 ^ 8) = ((j * 201 : ℤ) : ℝ) * 2 ^ (-7 : ℤ) := by
  push_cast
  norm_num
  ring

theorem roundReal_octantHigh_product (heven : n % 2 = 0) (hn : n ≤ 2 ^ 17) :
    roundReal (n * (201 / 2 ^ 8)) = n * (201 / 2 ^ 8) := by
  obtain ⟨j, rfl⟩ := Nat.dvd_of_mod_eq_zero heven
  apply roundReal_eq (octantHigh_product j)
  · rw [abs_of_nonneg (by positivity)]
    exact_mod_cast (by omega : j * 201 ≤ 2 ^ 24)
  · norm_num

/-- Both terms are multiples of the step of the angle, and the difference is not larger. -/
theorem hasValue_subtract_high (fused : Bool) (hs : s.HasValue a) (ha : a < 2 ^ (17 : ℤ))
    (hr : r.HasValue n) (heven : n % 2 = 0) (hn : n ≤ 2 ^ 17) (hhalf : n * (201 / 2 ^ 8) ≤ 2 * a) :
    (negMulAdd fused s r Coefficients.octantHigh).HasValue (a - n * (201 / 2 ^ 8)) := by
  have hproduct := roundReal_octantHigh_product heven hn
  obtain ⟨j, rfl⟩ := Nat.dvd_of_mod_eq_zero heven
  have hn' : ((2 * j : ℕ) : ℝ) ≤ 2 ^ 17 := by exact_mod_cast hn
  have hn0 : (0 : ℝ) ≤ ((2 * j : ℕ) : ℝ) := Nat.cast_nonneg _
  have ha' : a < 131072 := by norm_num at ha; exact ha
  have hsmall : |((2 * j : ℕ) : ℝ) * (201 / 2 ^ 8)| ≤ 2 ^ (127 : ℤ) := by
    rw [abs_of_nonneg (by positivity)]
    have hbound : ((2 * j : ℕ) : ℝ) * (201 / 2 ^ 8) ≤ 2 ^ 17 := by linarith
    exact hbound.trans (by norm_num)
  have habs : |a - ((2 * j : ℕ) : ℝ) * (201 / 2 ^ 8)| ≤ a := by
    rw [abs_le]
    constructor <;> linarith
  apply hasValue_negMulAdd_exact fused hs hr Coefficients.hasValue_octantHigh hproduct _ hsmall
    (habs.trans (ha'.le.trans (by norm_num)))
  -- with at least two octants the angle has a step no coarser than the product's
  rcases Nat.eq_zero_or_pos j with rfl | hj
  · rw [Nat.mul_zero, Nat.cast_zero, zero_mul, sub_zero]
    exact hs.roundReal_eq
  · have hone : (1 : ℝ) ≤ j := by exact_mod_cast hj
    have hlow : 1 / 2 ≤ a := by
      push_cast at hhalf
      linarith
    have hpos : 0 < a := by linarith
    have hge : -1 ≤ Int.log 2 a := by
      apply (Int.zpow_le_iff_le_log one_lt_two hpos).1
      norm_num
      linarith
    have hle : Int.log 2 a ≤ 16 := by
      have h := (Int.lt_zpow_iff_log_lt (x := 17) one_lt_two hpos).1 (by push_cast; exact ha)
      omega
    rw [octantHigh_product] at habs ⊢
    exact hs.roundReal_sub_multiple hpos (by omega) (by omega) habs

theorem quarter_pi_parts :
    |Real.pi / 4 - (201 / 2 ^ 8 + 2077699 / 2 ^ 33)| ≤ 3741 / 10 ^ 11 := by
  have hlow := Real.pi_gt_d20
  have hhigh := Real.pi_lt_d20
  rw [abs_le]
  constructor <;> norm_num at hlow hhigh ⊢ <;> linarith

theorem subtract_near (fused : Bool) (hs : s.HasValue a) (ha : a < 2 ^ (17 : ℤ))
    (hr : r.HasValue n) (heven : n % 2 = 0) (hn : n ≤ 2 ^ 17) (hhalf : n * (201 / 2 ^ 8) ≤ 2 * a)
    (hrest : |a - n * (Real.pi / 4)| ≤ 4 / 5) :
    ∃ b, (subtract fused s r).HasValue b ∧
      |b - (a - n * (Real.pi / 4))| ≤ 376 / 10 ^ 10 * n + 299 / 10 ^ 10 := by
  have hfirst := hasValue_subtract_high fused hs ha hr heven hn hhalf
  have hn0 : (0 : ℝ) ≤ n := Nat.cast_nonneg n
  have hn' : (n : ℝ) ≤ 2 ^ 17 := by exact_mod_cast hn
  have hparts := quarter_pi_parts
  have hmissing : |(n : ℝ) * (Real.pi / 4 - (201 / 2 ^ 8 + 2077699 / 2 ^ 33))| ≤
      (n : ℝ) * (3741 / 10 ^ 11) := by
    rw [abs_mul, abs_of_nonneg hn0]
    exact mul_le_mul_of_nonneg_left hparts hn0
  have hmissing' := abs_le.1 hmissing
  have hrest' := abs_le.1 hrest
  have hlow0 : 0 ≤ (n : ℝ) * (2077699 / 2 ^ 33) := by positivity
  have hexact : |a - n * (201 / 2 ^ 8) - n * (2077699 / 2 ^ 33)| ≤ 9 / 10 := by
    rw [abs_le]
    constructor <;> linarith
  have hexact' := abs_le.1 hexact
  unfold subtract
  cases fused with
  | true =>
    have hsum : -(n : ℝ) * (2077699 / 2 ^ 33) + (a - n * (201 / 2 ^ 8)) =
        a - n * (201 / 2 ^ 8) - n * (2077699 / 2 ^ 33) := by ring
    have hvalue := hasValue_fusedMulAdd (hasValue_neg hr) Coefficients.hasValue_octantLow hfirst
      (by rw [hsum]; exact abs_le_two_zpow_127 (hexact.trans (by norm_num)))
    rw [hsum] at hvalue
    have hround := abs_le.1 (roundReal_near_of_le_one (hexact.trans (by norm_num)))
    refine ⟨_, hvalue, ?_⟩
    rw [abs_le]
    constructor <;> linarith
  | false =>
    have hproduct := roundReal_near ((n : ℝ) * (2077699 / 2 ^ 33))
    rw [abs_of_nonneg hlow0] at hproduct
    have hproduct' := abs_le.1 hproduct
    have hsize : |(n : ℝ) * (2077699 / 2 ^ 33)| ≤ 2 ^ (127 : ℤ) := by
      rw [abs_of_nonneg hlow0]
      have hbound : (n : ℝ) * (2077699 / 2 ^ 33) ≤ 2 ^ 17 := by linarith
      exact hbound.trans (by norm_num)
    have hrounded : |a - n * (201 / 2 ^ 8) - roundReal (n * (2077699 / 2 ^ 33))| ≤ 1 := by
      rw [abs_le]
      constructor <;> linarith
    have hvalue := hasValue_sub hfirst
      (hasValue_mul hr Coefficients.hasValue_octantLow hsize)
      (abs_le_two_zpow_127 (hrounded.trans (by norm_num)))
    have hround := abs_le.1 (roundReal_near_of_le_one hrounded)
    refine ⟨_, hvalue, ?_⟩
    rw [abs_le]
    constructor <;> linarith

/-! ## Counting octants -/

/-- The whole octants in a number, as a natural number. -/
def octants (s : Binary32) : ℕ := ⌊(s * Coefficients.octantsPerUnit).toReal⌋₊

/-- The even number of octants that is taken away. -/
def evenOctants (s : Binary32) : ℕ := octants s + octants s % 2

theorem evenOctants_bounds (s : Binary32) :
    (octants s : ℝ) ≤ evenOctants s ∧ (evenOctants s : ℝ) ≤ octants s + 1 := by
  have hrest : octants s % 2 < 2 := Nat.mod_lt _ two_pos
  unfold evenOctants
  constructor
  · exact_mod_cast Nat.le_add_right _ _
  · exact_mod_cast Nat.add_le_add_left (Nat.le_of_lt_succ hrest) _

theorem hasValue_product (hs : s.HasValue a) (ha0 : 0 ≤ a) (ha : a < 2 ^ (27 : ℤ)) :
    (s * Coefficients.octantsPerUnit).HasValue (roundReal (a * (10680707 / 2 ^ 23))) := by
  apply hasValue_mul hs Coefficients.hasValue_octantsPerUnit
  have ha' : a ≤ 134217728 := by norm_num at ha; exact ha.le
  rw [abs_of_nonneg (by positivity)]
  have hbound : a * (10680707 / 2 ^ 23) ≤ 2 ^ 28 := by linarith
  exact hbound.trans (by norm_num)

theorem octants_eq (hs : s.HasValue a) (ha0 : 0 ≤ a) (ha : a < 2 ^ (27 : ℤ)) :
    octants s = ⌊roundReal (a * (10680707 / 2 ^ 23))⌋₊ := by
  unfold octants
  rw [(hasValue_product hs ha0 ha).toReal_eq]

theorem octants_bounds (hs : s.HasValue a) (ha0 : 0 ≤ a) (ha : a < 2 ^ (27 : ℤ)) :
    (octants s : ℝ) ≤ roundReal (a * (10680707 / 2 ^ 23)) ∧
      roundReal (a * (10680707 / 2 ^ 23)) < octants s + 1 := by
  rw [octants_eq hs ha0 ha]
  have hnonneg : 0 ≤ roundReal (a * (10680707 / 2 ^ 23)) := roundReal_nonneg (by positivity)
  exact ⟨Nat.floor_le hnonneg, Nat.lt_floor_add_one _⟩

theorem octants_le (hs : s.HasValue a) (ha0 : 0 ≤ a) (ha : a < 2 ^ (27 : ℤ)) :
    octants s ≤ 2 ^ 28 := by
  have ha' : a ≤ 134217728 := by norm_num at ha; exact ha.le
  have hproduct : a * (10680707 / 2 ^ 23) ≤ 2 ^ (28 : ℤ) := by
    norm_num
    linarith
  have hround := roundReal_mono hproduct
  rw [roundReal_two_zpow (by norm_num)] at hround
  have hle := (octants_bounds hs ha0 ha).1.trans hround
  exact_mod_cast hle

theorem count_eq (hs : s.HasValue a) (ha0 : 0 ≤ a) (ha : a < 2 ^ (27 : ℤ)) :
    count s = BitVec.ofNat 32 (octants s) := by
  have hnonneg : 0 ≤ roundReal (a * (10680707 / 2 ^ 23)) := roundReal_nonneg (by positivity)
  have hlt : roundReal (a * (10680707 / 2 ^ 23)) < 2 ^ (31 : ℤ) := by
    have hoctants : (octants s : ℝ) ≤ ((2 ^ 28 : ℕ) : ℝ) := by exact_mod_cast octants_le hs ha0 ha
    have hbound := (octants_bounds hs ha0 ha).2
    have hroom : ((2 ^ 28 : ℕ) : ℝ) + 1 ≤ 2 ^ (31 : ℤ) := by norm_num
    linarith
  unfold count
  rw [((hasValue_product hs ha0 ha).floor_conversions hnonneg hlt).1, octants_eq hs ha0 ha,
    ← Int.natCast_floor_eq_floor hnonneg, BitVec.ofInt_natCast]

/-- An even count is a number of the format: a small one is an integer of 24 digits, and from `2²⁴`
on the rounded product is an even integer itself. -/
theorem roundReal_evenOctants (hs : s.HasValue a) (ha0 : 0 ≤ a) (ha : a < 2 ^ (27 : ℤ)) :
    roundReal (evenOctants s : ℝ) = evenOctants s := by
  have hproduct := hasValue_product hs ha0 ha
  have hnonneg : 0 ≤ roundReal (a * (10680707 / 2 ^ 23)) := roundReal_nonneg (by positivity)
  rcases lt_or_ge (roundReal (a * (10680707 / 2 ^ 23))) (2 ^ (24 : ℤ)) with hlt | hge
  · have hcount : octants s < 2 ^ 24 := by
      have hreal := (octants_bounds hs ha0 ha).1.trans_lt hlt
      exact_mod_cast hreal
    apply roundReal_eq (m := evenOctants s) (e := 0) (by simp) _ (by norm_num)
    rw [Nat.abs_cast]
    unfold evenOctants
    exact_mod_cast (by omega : octants s + octants s % 2 ≤ 2 ^ 24)
  · obtain ⟨m, hm⟩ := hproduct.multiple 24 (by rw [abs_of_nonneg hnonneg]; exact hge)
    have hinteger : roundReal (a * (10680707 / 2 ^ 23)) = ((m * 2 : ℤ) : ℝ) := by
      rw [hm]
      norm_num
    have hcount : ((octants s : ℕ) : ℤ) = m * 2 := by
      rw [octants_eq hs ha0 ha, Int.natCast_floor_eq_floor hnonneg, hinteger, Int.floor_intCast]
    have heven : evenOctants s = octants s := by
      unfold evenOctants
      omega
    have hreal : (evenOctants s : ℝ) = roundReal (a * (10680707 / 2 ^ 23)) := by
      rw [heven, hinteger, ← hcount, Int.cast_natCast]
    rw [hreal]
    exact hproduct.roundReal_eq

theorem toNat_count (hs : s.HasValue a) (ha0 : 0 ≤ a) (ha : a < 2 ^ (27 : ℤ)) :
    (count s).toNat = octants s := by
  have hle := octants_le hs ha0 ha
  rw [count_eq hs ha0 ha, BitVec.toNat_ofNat, Nat.mod_eq_of_lt (by omega)]

theorem toInt_count (hs : s.HasValue a) (ha0 : 0 ≤ a) (ha : a < 2 ^ (27 : ℤ)) :
    (count s).toInt = octants s := by
  have hle := octants_le hs ha0 ha
  rw [← toNat_count hs ha0 ha]
  apply BitVec.toInt_eq_toNat_of_lt
  rw [toNat_count hs ha0 ha]
  omega

theorem toInt_evenCount (hs : s.HasValue a) (ha0 : 0 ≤ a) (ha : a < 2 ^ (27 : ℤ)) :
    (evenCount (count s)).toInt = evenOctants s := by
  have hle := octants_le hs ha0 ha
  have hcount := toNat_count hs ha0 ha
  have hnat : (evenCount (count s)).toNat = evenOctants s := by
    unfold evenCount evenOctants
    rw [BitVec.toNat_add, BitVec.toNat_and, hcount]
    rw [show (1 : BitVec 32).toNat = 1 from rfl, Nat.and_one_is_mod]
    omega
  rw [← hnat]
  apply BitVec.toInt_eq_toNat_of_lt
  rw [hnat]
  unfold evenOctants
  omega

theorem hasValue_evenCount (hs : s.HasValue a) (ha0 : 0 ≤ a) (ha : a < 2 ^ (27 : ℤ)) :
    (Binary32.ofInt32 (evenCount (count s))).HasValue (evenOctants s) := by
  have hvalue := hasValue_ofInt32 (evenCount (count s))
  rw [toInt_evenCount hs ha0 ha, Int.cast_natCast, roundReal_evenOctants hs ha0 ha] at hvalue
  exact hvalue

theorem evenOctants_even (s : Binary32) : evenOctants s % 2 = 0 := by
  unfold evenOctants
  omega

theorem lt_two_zpow_of_le_four_pi {k : ℤ} (hk : 4 ≤ k) (ha : a ≤ 4 * Real.pi) : a < 2 ^ k := by
  have hpi := Real.pi_lt_four
  have hpow : (2 : ℝ) ^ (4 : ℤ) ≤ 2 ^ k := zpow_le_zpow_right₀ one_le_two hk
  norm_num at hpow
  linarith

/-- What is left after the even number of octants is little more than one octant, and that number
of octants is not far above the angle. -/
theorem rest_bounds (hs : s.HasValue a) (ha0 : 0 ≤ a) (ha : a < 2 ^ (16 : ℤ)) :
    |a - evenOctants s * (Real.pi / 4)| ≤ 796 / 1000 ∧
      evenOctants s * (201 / 2 ^ 8) ≤ 2 * a ∧ evenOctants s ≤ 2 ^ 17 := by
  have ha16 : a < 65536 := by norm_num at ha; exact ha
  obtain ⟨hlow, hhigh⟩ :=
    octants_bounds hs ha0 (ha.trans (zpow_lt_zpow_right₀ one_lt_two (by norm_num)))
  have hround := roundReal_near (a * (10680707 / 2 ^ 23))
  rw [abs_of_nonneg (by positivity : (0 : ℝ) ≤ a * (10680707 / 2 ^ 23))] at hround
  have hround' := abs_le.1 hround
  obtain ⟨heven0, heven1⟩ := evenOctants_bounds s
  have hnonneg : (0 : ℝ) ≤ evenOctants s := Nat.cast_nonneg _
  have hpiLow := mul_le_mul_of_nonneg_left Real.pi_gt_d20.le hnonneg
  have hpiHigh := mul_le_mul_of_nonneg_left Real.pi_lt_d20.le hnonneg
  refine ⟨?_, ?_, ?_⟩
  · rw [abs_le]
    norm_num at hpiLow hpiHigh
    constructor <;> linarith
  · rcases Nat.eq_zero_or_pos (evenOctants s) with hzero | hpos
    · rw [hzero, Nat.cast_zero, zero_mul]
      linarith
    · have htwo : (2 : ℝ) ≤ evenOctants s := by
        have h := evenOctants_even s
        exact_mod_cast (by omega : 2 ≤ evenOctants s)
      linarith
  · have hroom : (83500 : ℝ) ≤ ((2 ^ 17 : ℕ) : ℝ) := by norm_num
    have hreal : (evenOctants s : ℝ) ≤ ((2 ^ 17 : ℕ) : ℝ) := by linarith
    exact_mod_cast hreal

theorem reduce_near (fused : Bool) (hx : x.HasValue X) (hX : |X| < 2 ^ (16 : ℤ)) :
    (reduce fused x).octant = BitVec.ofNat 32 (octants (absolute x)) ∧
      ∃ b, (reduce fused x).angle.HasValue b ∧ |b| ≤ 4 / 5 ∧
        |b - (|X| - evenOctants (absolute x) * (Real.pi / 4))| ≤
          376 / 10 ^ 10 * evenOctants (absolute x) + 299 / 10 ^ 10 := by
  have hs : (absolute x).HasValue |X| :=
    hasValue_absolute_of_lt (by norm_num) hx hX
  have hX17 : |X| < 2 ^ (17 : ℤ) := hX.trans (zpow_lt_zpow_right₀ one_lt_two (by norm_num))
  have hX27 : |X| < 2 ^ (27 : ℤ) := hX.trans (zpow_lt_zpow_right₀ one_lt_two (by norm_num))
  obtain ⟨hrest, hhalf, hcount⟩ := rest_bounds hs (abs_nonneg X) hX
  refine ⟨count_eq hs (abs_nonneg X) hX27, ?_⟩
  obtain ⟨b, hb, hnear⟩ := subtract_near fused hs hX17
    (hasValue_evenCount hs (abs_nonneg X) hX27) (evenOctants_even _) hcount hhalf
    (hrest.trans (by norm_num))
  refine ⟨b, hb, ?_, hnear⟩
  have hcount' : (evenOctants (absolute x) : ℝ) ≤ 83500 := by
    have hlow := (abs_le.1 hrest).1
    have hX16 : |X| < 65536 := by norm_num at hX; exact hX
    have hpi := mul_le_mul_of_nonneg_left Real.pi_gt_d20.le
      (Nat.cast_nonneg (evenOctants (absolute x)) : (0 : ℝ) ≤ _)
    norm_num at hpi
    linarith
  rw [abs_le] at hrest hnear ⊢
  constructor <;> linarith

/-! ## Multiples of `π` -/

/-- Two neighbours of the format with a multiple of `π` between them, of which the product with the
octants of a unit stays below a multiple of four and is rounded up to it. The lower neighbour is
`m` steps of its binade, the multiple of four is `q` steps below its own. -/
structure Boundary (n : ℕ) (k m j q : ℤ) : Prop where
  binade : 2 ^ k ≤ (m : ℝ) * 2 ^ (k - 23)
  below : (m : ℝ) * 2 ^ (k - 23) < n * Real.pi
  above : n * Real.pi < ((m + 1 : ℤ) : ℝ) * 2 ^ (k - 23)
  whole : (q : ℝ) * 2 ^ (j - 23) = 4 * n
  count : |q - 1| ≤ 2 ^ 24
  step : -126 ≤ j
  low : (m : ℝ) * 2 ^ (k - 23) * (10680707 / 2 ^ 23) ≤ ((q - 1 : ℤ) : ℝ) * 2 ^ (j - 23)
  productBinade : 2 ^ j ≤ ((m + 1 : ℤ) : ℝ) * 2 ^ (k - 23) * (10680707 / 2 ^ 23)
  productNext : ((m + 1 : ℤ) : ℝ) * 2 ^ (k - 23) * (10680707 / 2 ^ 23) < 2 ^ (j + 1)
  high : ((q : ℝ) - 1 / 2) * 2 ^ (j - 23) <
    ((m + 1 : ℤ) : ℝ) * 2 ^ (k - 23) * (10680707 / 2 ^ 23)

variable {k m j q : ℤ}

theorem Boundary.gap (h : Boundary n k m j q) (hs : s.HasValue a)
    (ha : a < ((m + 1 : ℤ) : ℝ) * 2 ^ (k - 23)) : a ≤ (m : ℝ) * 2 ^ (k - 23) := by
  have hstep : (0 : ℝ) < 2 ^ (k - 23) := zpow_pos two_pos _
  rcases lt_or_ge a (2 ^ k) with hlt | hge
  · exact hlt.le.trans h.binade
  · have hpos : 0 < a := (zpow_pos two_pos k).trans_le hge
    obtain ⟨i, hi⟩ := hs.multiple k (by rw [abs_of_pos hpos]; exact hge)
    rw [hi] at ha ⊢
    have hint : i < m + 1 := by exact_mod_cast lt_of_mul_lt_mul_right ha hstep.le
    apply mul_le_mul_of_nonneg_right _ hstep.le
    exact_mod_cast (by omega : i ≤ m)

theorem Boundary.lt (h : Boundary n k m j q) (hs : s.HasValue a)
    (ha : a < ((m + 1 : ℤ) : ℝ) * 2 ^ (k - 23)) :
    roundReal (a * (10680707 / 2 ^ 23)) < 4 * n := by
  have hstep : (0 : ℝ) < 2 ^ (j - 23) := zpow_pos two_pos _
  have hproduct : a * (10680707 / 2 ^ 23) ≤ ((q - 1 : ℤ) : ℝ) * 2 ^ (j - 23) :=
    (mul_le_mul_of_nonneg_right (h.gap hs ha) (by norm_num)).trans h.low
  have hexponent := h.step
  have hround := roundReal_mono hproduct
  rw [roundReal_eq rfl h.count (by omega)] at hround
  rw [← h.whole]
  apply hround.trans_lt
  apply mul_lt_mul_of_pos_right _ hstep
  exact_mod_cast (by omega : q - 1 < q)

theorem Boundary.le (h : Boundary n k m j q) (ha : ((m + 1 : ℤ) : ℝ) * 2 ^ (k - 23) ≤ a) :
    4 * n ≤ roundReal (a * (10680707 / 2 ^ 23)) := by
  have hround := le_roundReal_of_half h.productBinade h.productNext h.step h.high
  rw [h.whole] at hround
  exact hround.trans (roundReal_mono (mul_le_mul_of_nonneg_right ha (by norm_num)))

theorem Boundary.octants_iff (h : Boundary n k m j q) (hs : s.HasValue a) (ha0 : 0 ≤ a)
    (ha : a < 2 ^ (27 : ℤ)) : 4 * n ≤ octants s ↔ n * Real.pi ≤ a := by
  rw [octants_eq hs ha0 ha, Nat.le_floor_iff (roundReal_nonneg (by positivity))]
  push_cast
  constructor
  · intro hle
    by_contra hlt
    exact absurd hle (not_le.2 (h.lt hs ((not_le.1 hlt).trans h.above)))
  · intro hle
    apply h.le
    by_contra hlt
    exact absurd (h.gap hs (not_le.1 hlt)) (not_le.2 (h.below.trans_le hle))

/-- Twice the multiple lies between twice the neighbours. -/
theorem Boundary.double (h : Boundary n k m j q) : Boundary (2 * n) (k + 1) m (j + 1) q := by
  have hk : (2 : ℝ) ^ (k + 1) = 2 * 2 ^ k := by rw [zpow_add_one₀ two_ne_zero, mul_comm]
  have hj : (2 : ℝ) ^ (j + 1) = 2 * 2 ^ j := by rw [zpow_add_one₀ two_ne_zero, mul_comm]
  have hjNext : (2 : ℝ) ^ (j + 1 + 1) = 2 * 2 ^ (j + 1) := by
    rw [zpow_add_one₀ two_ne_zero, mul_comm]
  have hkStep : (2 : ℝ) ^ (k + 1 - 23) = 2 * 2 ^ (k - 23) := by
    rw [show k + 1 - 23 = k - 23 + 1 by ring, zpow_add_one₀ two_ne_zero, mul_comm]
  have hjStep : (2 : ℝ) ^ (j + 1 - 23) = 2 * 2 ^ (j - 23) := by
    rw [show j + 1 - 23 = j - 23 + 1 by ring, zpow_add_one₀ two_ne_zero, mul_comm]
  obtain ⟨hbinade, hbelow, habove, hwhole, hcount, hstep, hlow, hproduct, hnext, hhigh⟩ := h
  refine ⟨?_, ?_, ?_, ?_, hcount, by omega, ?_, ?_, ?_, ?_⟩
  · rw [hk, hkStep]; linarith
  · rw [hkStep]; push_cast; linarith
  · rw [hkStep]; push_cast at habove ⊢; linarith
  · rw [hjStep]; push_cast; linarith
  · rw [hkStep, hjStep]; linarith
  · rw [hkStep, hj]; linarith
  · rw [hkStep, hjNext]; linarith
  · rw [hkStep, hjStep]; linarith

theorem boundary_one : Boundary 1 1 13176794 1 (2 ^ 24) := by
  have hlow := Real.pi_gt_d20
  have hhigh := Real.pi_lt_d20
  norm_num at hlow hhigh
  constructor <;> norm_num <;> linarith

theorem boundary_three : Boundary 3 3 9882595 3 12582912 := by
  have hlow := Real.pi_gt_d20
  have hhigh := Real.pi_lt_d20
  norm_num at hlow hhigh
  constructor <;> norm_num <;> linarith

theorem boundary_four : Boundary 4 3 13176794 3 (2 ^ 24) := boundary_one.double.double

theorem four_mul_le_octants_iff (hs : s.HasValue a) (ha0 : 0 ≤ a) (ha : a < 2 ^ (27 : ℤ))
    (hn : n ≤ 4) : 4 * n ≤ octants s ↔ n * Real.pi ≤ a := by
  rcases Nat.eq_zero_or_pos n with rfl | hpos
  · simp [ha0]
  · obtain rfl | rfl | rfl | rfl : n = 1 ∨ n = 2 ∨ n = 3 ∨ n = 4 := by omega
    · exact boundary_one.octants_iff hs ha0 ha
    · exact boundary_one.double.octants_iff hs ha0 ha
    · exact boundary_three.octants_iff hs ha0 ha
    · exact boundary_four.octants_iff hs ha0 ha

/-- No number of the format is `4 π`, so an angle up to there has fewer than sixteen octants. -/
theorem octants_lt_sixteen (hs : s.HasValue a) (ha0 : 0 ≤ a) (ha : a ≤ 4 * Real.pi) :
    octants s < 16 := by
  have hrange := lt_two_zpow_of_le_four_pi (k := 27) (by norm_num) ha
  have hbelow : a < 4 * Real.pi :=
    (boundary_four.gap hs (ha.trans_lt boundary_four.above)).trans_lt boundary_four.below
  by_contra hge
  have hle := (four_mul_le_octants_iff (n := 4) hs ha0 hrange le_rfl).1 (not_lt.1 hge)
  exact absurd hbelow (not_lt.2 hle)

/-- Up to `4 π` a quarter of the octants is the count of whole multiples of `π`. -/
theorem octants_div_four (hs : s.HasValue a) (ha0 : 0 ≤ a) (ha : a ≤ 4 * Real.pi) :
    (octants s / 4 : ℕ) * Real.pi ≤ a ∧ a < ((octants s / 4 + 1 : ℕ) : ℝ) * Real.pi := by
  have hrange := lt_two_zpow_of_le_four_pi (k := 27) (by norm_num) ha
  have hsixteen := octants_lt_sixteen hs ha0 ha
  constructor
  · exact (four_mul_le_octants_iff hs ha0 hrange (by omega)).1 (by omega)
  · by_contra hge
    have hle := (four_mul_le_octants_iff hs ha0 hrange (by omega)).2 (not_lt.1 hge)
    omega

end Octant

end
end VectorSine
