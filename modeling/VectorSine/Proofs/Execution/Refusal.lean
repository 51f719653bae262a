import VectorSine.Engine.Basic

/-! # Which requests are refused

A request has exactly one of four answers, in a fixed order: no kernel of the variant, too short a
destination, a start address that the variant does not admit, or success. `requestAnswer` lists them
with their conditions. Addresses are multiples of four bytes, so only the aligned variants of the
vector instruction sets refuse any.
-/

namespace VectorSine
set_option autoImplicit false

theorem checkBuffers_cases (dst src : Slice) (alignment : Nat) :
    (checkBuffers dst src alignment = some .shortDestination ∧ dst.count < src.count) ∨
    (checkBuffers dst src alignment = some (.misaligned alignment) ∧ src.count ≤ dst.count ∧
      0 < src.count ∧ (src.address 0 % alignment ≠ 0 ∨ dst.address 0 % alignment ≠ 0)) ∨
    (checkBuffers dst src alignment = none ∧ src.count ≤ dst.count ∧
      (src.count = 0 ∨ (src.address 0 % alignment = 0 ∧ dst.address 0 % alignment = 0))) := by
  unfold checkBuffers
  split
  · next hshort => exact Or.inl ⟨rfl, hshort⟩
  · next hlong =>
    have hlen : src.count ≤ dst.count := Nat.not_lt.1 hlong
    right
    split
    · next hempty => exact Or.inr ⟨rfl, hlen, Or.inl hempty⟩
    · next hnonempty =>
      split
      · next hmod => exact Or.inl ⟨rfl, hlen, Nat.pos_of_ne_zero hnonempty, hmod⟩
      · next hmod =>
        simp only [not_or, Decidable.not_not] at hmod
        exact Or.inr ⟨rfl, hlen, Or.inr hmod⟩

theorem checkBuffers_eq_none_iff (dst src : Slice) (alignment : Nat) :
    checkBuffers dst src alignment = none ↔ src.count ≤ dst.count ∧
      (src.count = 0 ∨ (src.address 0 % alignment = 0 ∧ dst.address 0 % alignment = 0)) := by
  rcases checkBuffers_cases dst src alignment with
    ⟨h, hshort⟩ | ⟨h, hlen, hpos, hmod⟩ | ⟨h, hfits⟩
  · simp [h, Nat.not_le.2 hshort]
  · simp only [h, reduceCtorEq, false_iff, not_and, not_or]
    exact fun _ => ⟨Nat.pos_iff_ne_zero.1 hpos, fun hsrc => hmod.elim (absurd hsrc) id⟩
  · exact iff_of_true h hfits

namespace Variant

theorem requiredAlignment_kernel {v : Variant} {k : Kernel} (h : v.kernel? = some k) :
    k.requiredAlignment = v.requiredAlignment := by
  obtain ⟨isa, fused, alignment⟩ := v
  cases isa <;> cases alignment <;> cases h <;> rfl

/-- Without aligned vector accesses four bytes are enough. -/
theorem requiredAlignment_of_single (v : Variant)
    (h : v.alignment = .unaligned ∨ v.isa = .scalar ∨ v.isa = .generic) :
    v.requiredAlignment = bytesPerNumber := by
  obtain ⟨isa, fused, alignment⟩ := v
  cases isa <;> cases alignment <;> first | rfl | simp at h

end Variant

theorem Slice.address_mod_bytesPerNumber (s : Slice) (i : Nat) :
    s.address i % bytesPerNumber = 0 := Nat.mul_mod_right _ _

namespace Kernel

theorem execute_failure (k : Kernel) (dst src : Slice) :
    (k.execute dst src).failure = checkBuffers dst src k.requiredAlignment := by
  unfold execute
  split
  · next error h => exact h.symm
  · next h => exact h.symm

theorem execute_dst_of_failure (k : Kernel) (dst src : Slice)
    (h : (k.execute dst src).failure ≠ none) : (k.execute dst src).dst = dst.buffer := by
  rw [execute_failure] at h
  obtain ⟨error, herror⟩ := Option.ne_none_iff_exists'.1 h
  rw [execute_of_failure k dst src error herror]

end Kernel

namespace Build

theorem execute_of_supports (b : Build) (v : Variant) (dst src : Slice)
    (h : b.supports v = true) :
    ∃ k, v.kernel? = some k ∧ k.requiredAlignment = v.requiredAlignment ∧
      b.execute v dst src = k.execute dst src := by
  obtain ⟨k, hk⟩ := exists_kernel? h
  have hvariant : v.kernel? = some k := by rw [← kernel?_of_supports h, hk]
  refine ⟨k, hvariant, Variant.requiredAlignment_kernel hvariant, ?_⟩
  unfold execute
  rw [hk]

theorem execute_of_not_supports (b : Build) (v : Variant) (dst src : Slice)
    (h : b.supports v = false) :
    b.execute v dst src = { failure := some (.unsupported v), dst := dst.buffer } := by
  unfold execute
  rw [kernel?_of_not_supports h]

/-- The answers to a request, each with its condition. -/
theorem requestAnswer (b : Build) (v : Variant) (dst src : Slice) :
    ((b.execute v dst src).failure = some (.unsupported v) ∧ b.supports v = false) ∨
    ((b.execute v dst src).failure = some .shortDestination ∧ b.supports v = true ∧
      dst.count < src.count) ∨
    ((b.execute v dst src).failure = some (.misaligned v.requiredAlignment) ∧
      b.supports v = true ∧ src.count ≤ dst.count ∧ 0 < src.count ∧
      (src.address 0 % v.requiredAlignment ≠ 0 ∨ dst.address 0 % v.requiredAlignment ≠ 0)) ∨
    ((b.execute v dst src).failure = none ∧ b.supports v = true ∧ src.count ≤ dst.count ∧
      (src.count = 0 ∨ (src.address 0 % v.requiredAlignment = 0 ∧
        dst.address 0 % v.requiredAlignment = 0))) := by
  cases hsupports : b.supports v with
  | false =>
    rw [execute_of_not_supports b v dst src hsupports]
    exact Or.inl ⟨rfl, rfl⟩
  | true =>
    obtain ⟨k, -, halignment, hexecute⟩ := execute_of_supports b v dst src hsupports
    rw [hexecute, Kernel.execute_failure, halignment]
    right
    rcases checkBuffers_cases dst src v.requiredAlignment with
      ⟨hcheck, hlen⟩ | ⟨hcheck, hmod⟩ | ⟨hcheck, hmod⟩
    · exact Or.inl ⟨hcheck, rfl, hlen⟩
    · exact Or.inr (Or.inl ⟨hcheck, rfl, hmod⟩)
    · exact Or.inr (Or.inr ⟨hcheck, rfl, hmod⟩)

theorem fits_of_execute (b : Build) (v : Variant) (dst src : Slice)
    (h : (b.execute v dst src).failure = none) :
    b.supports v = true ∧ src.count ≤ dst.count ∧
      (src.count = 0 ∨ (src.address 0 % v.requiredAlignment = 0 ∧
        dst.address 0 % v.requiredAlignment = 0)) := by
  rcases b.requestAnswer v dst src with ⟨h', -⟩ | ⟨h', -⟩ | ⟨h', -⟩ | ⟨-, hfits⟩
  · rw [h] at h'; contradiction
  · rw [h] at h'; contradiction
  · rw [h] at h'; contradiction
  · exact hfits

theorem execute_dst_of_failure (b : Build) (v : Variant) (dst src : Slice)
    (h : (b.execute v dst src).failure ≠ none) : (b.execute v dst src).dst = dst.buffer := by
  cases hsupports : b.supports v with
  | false => rw [execute_of_not_supports b v dst src hsupports]
  | true =>
    obtain ⟨k, -, -, hexecute⟩ := execute_of_supports b v dst src hsupports
    rw [hexecute] at h ⊢
    exact Kernel.execute_dst_of_failure k dst src h

end Build

namespace Engine

/-- Each failure has its exact condition, and leaves the destination's buffer as it was. -/
theorem execute_failure_iff (e : Engine) (v : Variant) (dst src : Slice) :
    (∀ w, (e.execute v dst src).1.failure = some (.unsupported w) ↔
      e.build.supports v = false ∧ w = v) ∧
    ((e.execute v dst src).1.failure = some .shortDestination ↔
      e.build.supports v = true ∧ dst.count < src.count) ∧
    (∀ required, (e.execute v dst src).1.failure = some (.misaligned required) ↔
      e.build.supports v = true ∧ src.count ≤ dst.count ∧ 0 < src.count ∧
      (src.address 0 % v.requiredAlignment ≠ 0 ∨ dst.address 0 % v.requiredAlignment ≠ 0) ∧
      required = v.requiredAlignment) ∧
    ((e.execute v dst src).1.failure = none ↔
      e.build.supports v = true ∧ src.count ≤ dst.count ∧
      (src.count = 0 ∨ (src.address 0 % v.requiredAlignment = 0 ∧
        dst.address 0 % v.requiredAlignment = 0))) ∧
    ((e.execute v dst src).1.failure ≠ none →
      (e.execute v dst src).1.dst = dst.buffer) ∧
    (v.alignment = .unaligned ∨ v.isa = .scalar ∨ v.isa = .generic →
      ∀ required, (e.execute v dst src).1.failure ≠ some (.misaligned required)) := by
  rw [execute_eq_build]
  refine ⟨?_, ?_, ?_, ?_, Build.execute_dst_of_failure e.build v dst src, ?_⟩
  · intro w
    rcases e.build.requestAnswer v dst src with
      ⟨h, hs⟩ | ⟨h, hs, -⟩ | ⟨h, hs, -⟩ | ⟨h, hs, -⟩ <;> simp [h, hs, eq_comm]
  · rcases e.build.requestAnswer v dst src with
      ⟨h, hs⟩ | ⟨h, hs, hlen⟩ | ⟨h, hs, hlen, -⟩ | ⟨h, hs, hlen, -⟩
    · simp [h, hs]
    · simp [h, hs, hlen]
    · simp [h, hs, hlen]
    · simp [h, hs, hlen]
  · intro required
    rcases e.build.requestAnswer v dst src with
      ⟨h, hs⟩ | ⟨h, hs, hlen⟩ | ⟨h, hs, hlen, hpos, hmod⟩ | ⟨h, hs, hlen, hmod⟩
    · simp [h, hs]
    · simp [h, hs, Nat.not_le.2 hlen]
    · simp only [h, hs, hlen, hpos, hmod, true_and, Option.some.injEq,
        ExecutionError.misaligned.injEq]
      exact eq_comm
    · simp only [h, hs, hlen, true_and, reduceCtorEq, false_iff]
      rintro ⟨hpos, hne, -⟩
      rcases hmod with hempty | ⟨hsrc, hdst⟩
      · omega
      · exact hne.elim (fun hne => hne hsrc) (fun hne => hne hdst)
  · rcases e.build.requestAnswer v dst src with
      ⟨h, hs⟩ | ⟨h, hs, hlen⟩ | ⟨h, hs, hlen, hpos, hmod⟩ | ⟨h, hs, hlen, hmod⟩
    · simp [h, hs]
    · simp [h, hs, Nat.not_le.2 hlen]
    · simp only [h, hs, hlen, true_and, reduceCtorEq, false_iff]
      rintro (hempty | ⟨hsrc, hdst⟩)
      · omega
      · exact hmod.elim (fun hne => hne hsrc) (fun hne => hne hdst)
    · simp only [h, hs, hlen, hmod, true_and]
  · intro hsingle required hfailure
    rcases e.build.requestAnswer v dst src with
      ⟨h, hs⟩ | ⟨h, hs, hlen⟩ | ⟨h, hs, hlen, hpos, hmod⟩ | ⟨h, hs, hlen, hmod⟩
    · simp [h] at hfailure
    · simp [h] at hfailure
    · rw [v.requiredAlignment_of_single hsingle] at hmod
      exact hmod.elim (fun hne => hne (src.address_mod_bytesPerNumber 0))
        (fun hne => hne (dst.address_mod_bytesPerNumber 0))
    · simp [h] at hfailure

end Engine

end VectorSine
