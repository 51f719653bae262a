import VectorSine.Proofs.Execution.Results

/-! # Slices by themselves

A request depends on nothing but the numbers and the addresses of its two slices: with each slice in
a buffer of its own, at the same address, it fails for the same reason and leaves the same numbers
(`Kernel.execute_alone`). Of the destination's buffer it changes no more than the positions that the
source covers (`Build.execute_unchanged`).
-/

namespace VectorSine
set_option autoImplicit false

namespace Slice

/-- A slice in a buffer that holds nothing else, at the same address. -/
def alone (s : Slice) : Slice :=
  Buffer.whole
    { offset := s.buffer.offset + s.first
      data := s.buffer.data.extract s.first (s.first + s.count) }

variable (s : Slice)

@[simp] theorem alone_first : s.alone.first = 0 := rfl

@[simp] theorem alone_count : s.alone.count = s.count := by
  have hinside := s.inside
  simp only [alone, Buffer.whole, Array.size_extract]
  omega

@[simp] theorem alone_address (i : Nat) : s.alone.address i = s.address i := by
  simp only [address, alone, Buffer.whole, Nat.add_zero]

theorem alone_get (i : Nat) (h : i < s.alone.count) (h' : i < s.count) :
    s.alone.get i h = s.get i h' := by
  simp [get, alone, Buffer.whole]

theorem alone_getElem? (i : Nat) (h : i < s.count) :
    s.alone.buffer.data[i]? = s.buffer.data[s.first + i]? := by
  have hinside := s.inside
  simp only [alone, Buffer.whole]
  rw [Array.getElem?_extract_of_lt (by omega)]
  exact (Array.getElem?_eq_getElem (by omega)).symm

end Slice

theorem checkBuffers_alone (dst src : Slice) (alignment : Nat) :
    checkBuffers dst.alone src.alone alignment = checkBuffers dst src alignment := by
  simp only [checkBuffers, Slice.alone_count, Slice.alone_address]

namespace Kernel

theorem values_alone (k : Kernel) (src : Slice) : k.values src.alone = k.values src := by
  funext i
  unfold values
  by_cases h : i < src.count
  · have h' : i < src.alone.count := by rw [src.alone_count]; exact h
    rw [dif_pos h, dif_pos h', src.alone_get i h' h, src.alone_count]
  · rw [dif_neg h, dif_neg (by rw [src.alone_count]; exact h)]

theorem execute_alone (k : Kernel) (dst src : Slice) :
    (k.execute dst.alone src.alone).failure = (k.execute dst src).failure ∧
      ∀ i, i < dst.count → (k.execute dst src).dst.data[dst.first + i]? =
        (k.execute dst.alone src.alone).dst.data[i]? := by
  have hfailure : (k.execute dst.alone src.alone).failure = (k.execute dst src).failure := by
    rw [execute_failure, execute_failure, checkBuffers_alone]
  refine ⟨hfailure, ?_⟩
  intro i hi
  by_cases hok : (k.execute dst src).failure = none
  · rw [execute_failure] at hok
    obtain ⟨d, hd, hfilled⟩ := execute_filled k dst src hok
    obtain ⟨a, ha, halone⟩ := execute_filled k dst.alone src.alone (by rw [checkBuffers_alone, hok])
    rw [hd, ha]
    simp only [src.alone_count, values_alone] at halone
    by_cases hcovered : i < src.count
    · have h := halone.inside i hcovered
      rw [dst.alone_first, Nat.zero_add] at h
      rw [hfilled.inside i hcovered, h]
    · rw [hfilled.outside _ fun m hm => by omega, halone.outside i fun m hm => by
        rw [dst.alone_first]; omega]
      exact (dst.alone_getElem? i hi).symm
  · rw [execute_dst_of_failure k dst src hok,
      execute_dst_of_failure k dst.alone src.alone (by rw [hfailure]; exact hok)]
    exact (dst.alone_getElem? i hi).symm

end Kernel

namespace Build

theorem execute_alone (b : Build) (v : Variant) (dst src : Slice) :
    (b.execute v dst.alone src.alone).failure = (b.execute v dst src).failure ∧
      ∀ i, i < dst.count → (b.execute v dst src).dst.data[dst.first + i]? =
        (b.execute v dst.alone src.alone).dst.data[i]? := by
  unfold execute
  cases b.kernel? v with
  | some k => exact k.execute_alone dst src
  | none => exact ⟨rfl, fun i hi => (dst.alone_getElem? i hi).symm⟩

/-- The destination's buffer stays where it is, and as it is but for the positions of the source. -/
theorem execute_unchanged (b : Build) (v : Variant) (dst src : Slice) :
    (b.execute v dst src).dst.offset = dst.buffer.offset ∧
      (b.execute v dst src).dst.data.size = dst.buffer.data.size ∧
      ∀ j, j < dst.first ∨ dst.first + src.count ≤ j →
        (b.execute v dst src).dst.data[j]? = dst.buffer.data[j]? := by
  by_cases hok : (b.execute v dst src).failure = none
  · obtain ⟨hsupports, hcount, hmod⟩ := b.fits_of_execute v dst src hok
    obtain ⟨k, d, -, hd, hfilled⟩ := b.execute_filled v dst src hsupports hcount hmod
    rw [hd]
    exact ⟨hfilled.offset, hfilled.size, fun j hj => hfilled.outside j fun i hi => by omega⟩
  · rw [b.execute_dst_of_failure v dst src hok]
    exact ⟨rfl, rfl, fun _ _ => rfl⟩

end Build

end VectorSine
