import VectorSine.Proofs.Execution.Contents
import VectorSine.Proofs.Execution.Refusal

/-! # What a variant writes

`v.Writes dst src after` describes the destination's buffer after a request for the variant `v`: the
rounded sines for a generic variant; for the others what the unit of their instruction set computes
in any lane that holds the number, up to the last full group, and the rounded sines in the tail.
The alignment of a variant does not occur in it.
-/

namespace VectorSine
set_option autoImplicit false

/-- What the destination's buffer is after a request that succeeds. -/
structure Variant.Writes (v : Variant) (dst src : Slice) (after : Buffer) : Prop where
  offset : after.offset = dst.buffer.offset
  size : after.data.size = dst.buffer.data.size
  generic : v.isa = .generic → ∀ i (h : i < src.count),
    after.data[dst.first + i]? = some (roundedSine (src.get i h))
  group : v.isa ≠ .generic → ∃ unit, v.isa.unit? = some unit ∧ unit.lanes = v.lanes ∧
    ∀ i (h : i < src.count), i < src.count - src.count % v.lanes →
    ∀ (r : Register unit.lanes) (k : Nat) (hk : k < unit.lanes), r[k] = src.get i h →
      after.data[dst.first + i]? = some (unit.compute v.fused r)[k]
  tail : v.isa ≠ .generic → ∀ i (h : i < src.count), src.count - src.count % v.lanes ≤ i →
    after.data[dst.first + i]? = some (roundedSine (src.get i h))
  outside : ∀ j, j < dst.first ∨ dst.first + src.count ≤ j →
    after.data[j]? = dst.buffer.data[j]?

theorem Buffer.eq_of_parts {b b' : Buffer} (hoffset : b.offset = b'.offset)
    (hdata : b.data = b'.data) : b = b' := by
  cases b
  cases b'
  cases hoffset
  cases hdata
  rfl

theorem Slice.Filled.buffer_eq {d d' e : Slice} {P : Nat → Prop} {f : Nat → Binary32}
    (h : d.Filled e P f) (h' : d'.Filled e P f) : d.buffer = d'.buffer := by
  have hdata : d.buffer.data = d'.buffer.data := by
    apply Array.ext_getElem?
    intro j
    by_cases hj : ∃ i, P i ∧ j = e.first + i
    · obtain ⟨i, hi, rfl⟩ := hj
      rw [h.inside i hi, h'.inside i hi]
    · have hout : ∀ i, P i → j ≠ e.first + i := fun i hi heq => hj ⟨i, hi, heq⟩
      rw [h.outside j hout, h'.outside j hout]
  exact Buffer.eq_of_parts (h.offset.trans h'.offset.symm) hdata

namespace Kernel

variable {src : Slice}

theorem execute_filled (k : Kernel) (dst src : Slice)
    (h : checkBuffers dst src k.requiredAlignment = none) :
    ∃ d : Slice, k.execute dst src = { failure := none, dst := d.buffer } ∧
      d.Filled dst (fun i => i < src.count) (k.values src) := by
  obtain ⟨d, hd, -⟩ := sweep?_samePlace k dst src h
  have hcount := ((checkBuffers_eq_none_iff dst src _).1 h).1
  exact ⟨d, execute_of_sweep k dst src d h hd, sweep?_filled k dst src d hcount hd⟩

theorem execute_value (k : Kernel) (dst src : Slice) (hok : (k.execute dst src).failure = none)
    (i : ℕ) (hi : i < src.count) :
    (k.execute dst src).dst.data[dst.first + i]? = some (k.valueAt src.count i (src.get i hi)) := by
  rw [execute_failure] at hok
  obtain ⟨d, hd, hfilled⟩ := execute_filled k dst src hok
  rw [hd]
  change d.buffer.data[dst.first + i]? = _
  rw [hfilled.inside i hi, values, dif_pos hi]

theorem values_of_alignment {v : Variant} {k k' : Kernel} (alignment : Alignment)
    (h : v.kernel? = some k) (h' : { v with alignment := alignment }.kernel? = some k') :
    k'.values src = k.values src := by
  obtain ⟨isa, fused, a⟩ := v
  cases isa <;> cases h <;> cases h' <;> rfl

end Kernel

theorem Variant.writes_of_filled {v : Variant} {k : Kernel} {dst src d : Slice}
    (hk : v.kernel? = some k) (hd : d.Filled dst (fun i => i < src.count) (k.values src)) :
    v.Writes dst src d.buffer := by
  have hvalue : ∀ i (h : i < src.count),
      d.buffer.data[dst.first + i]? = some (k.valueAt src.count i (src.get i h)) := by
    intro i h
    rw [hd.inside i h, Kernel.values, dif_pos h]
  have houtside : ∀ j, j < dst.first ∨ dst.first + src.count ≤ j →
      d.buffer.data[j]? = dst.buffer.data[j]? := by
    intro j hj
    exact hd.outside j fun i hi => by omega
  rcases kernel?_eq_some hk with ⟨hgeneric, rfl⟩ | ⟨unit, hisa, hunit, hlanes, rfl⟩
  · exact ⟨hd.offset, hd.size, fun _ => hvalue, fun h => absurd hgeneric h,
      fun h => absurd hgeneric h, houtside⟩
  · refine ⟨hd.offset, hd.size, fun h => absurd h hisa, ?_, ?_, houtside⟩
    · refine fun _ => ⟨unit, hunit, hlanes, ?_⟩
      intro i h hi r k hk hr
      rw [← hlanes] at hi
      rw [hvalue i h, Kernel.valueAt, if_pos hi, LaneUnit.getElem_compute, hr]
    · intro _ i h hi
      rw [← hlanes] at hi
      rw [hvalue i h, Kernel.valueAt, if_neg (Nat.not_lt.2 hi)]

namespace Build

theorem execute_filled (b : Build) (v : Variant) (dst src : Slice) (hsupports : b.supports v = true)
    (hcount : src.count ≤ dst.count)
    (haligned : src.count = 0 ∨ (src.address 0 % v.requiredAlignment = 0 ∧
      dst.address 0 % v.requiredAlignment = 0)) :
    ∃ (k : Kernel) (d : Slice), v.kernel? = some k ∧
      b.execute v dst src = { failure := none, dst := d.buffer } ∧
      d.Filled dst (fun i => i < src.count) (k.values src) := by
  obtain ⟨k, hk, halignment, hexecute⟩ := execute_of_supports b v dst src hsupports
  have hcheck : checkBuffers dst src k.requiredAlignment = none := by
    rw [halignment]
    exact (checkBuffers_eq_none_iff dst src _).2 ⟨hcount, haligned⟩
  obtain ⟨d, hd, hfilled⟩ := Kernel.execute_filled k dst src hcheck
  exact ⟨k, d, hk, hexecute.trans hd, hfilled⟩

end Build

namespace Engine

/-- A request that fits succeeds, writes what the variant announces, and would have left the same
buffer with the other alignment, where that fits too. -/
theorem execute_writes (e : Engine) (v : Variant) (dst src : Slice)
    (hsupports : e.build.supports v = true) (hcount : src.count ≤ dst.count)
    (haligned : src.count = 0 ∨ (src.address 0 % v.requiredAlignment = 0 ∧
      dst.address 0 % v.requiredAlignment = 0)) :
    (e.execute v dst src).1.failure = none ∧
    v.Writes dst src (e.execute v dst src).1.dst ∧
    ∀ alignment, src.count = 0 ∨
        (src.address 0 % { v with alignment := alignment }.requiredAlignment = 0 ∧
          dst.address 0 % { v with alignment := alignment }.requiredAlignment = 0) →
      (e.execute { v with alignment := alignment } dst src).1.failure = none ∧
      (e.execute { v with alignment := alignment } dst src).1.dst =
        (e.execute v dst src).1.dst := by
  obtain ⟨k, d, hk, hexecute, hd⟩ := e.build.execute_filled v dst src hsupports hcount haligned
  rw [execute_eq_build, hexecute]
  refine ⟨rfl, Variant.writes_of_filled hk hd, ?_⟩
  intro alignment haligned'
  obtain ⟨k', d', hk', hexecute', hd'⟩ :=
    e.build.execute_filled { v with alignment := alignment } dst src hsupports hcount haligned'
  rw [execute_eq_build, hexecute']
  rw [Kernel.values_of_alignment alignment hk hk'] at hd'
  exact ⟨rfl, hd'.buffer_eq hd⟩

/-- One full group of eight lanes and a tail of one number, at addresses of whole registers. The
last number of the destination stays. -/
theorem execute_writes_group_and_tail :
    ∃ after : Outcome,
      ((start .all).execute { isa := .avx2, fused := true, alignment := .aligned }
        (Buffer.whole { offset := 8, data := Array.replicate 10 Binary32.two })
        (Buffer.whole { offset := 0, data := Array.replicate 9 Binary32.one })).1 = after ∧
      after.failure = none ∧ after.dst.data[3]? = some ⟨0x3F576AA5⟩ ∧
      after.dst.data[8]? = some ⟨0x3F576AA4⟩ ∧ after.dst.data[9]? = some Binary32.two := by
  obtain ⟨hsuccess, hwrites, -⟩ := execute_writes (start .all)
    { isa := .avx2, fused := true, alignment := .aligned }
    (Buffer.whole { offset := 8, data := Array.replicate 10 Binary32.two })
    (Buffer.whole { offset := 0, data := Array.replicate 9 Binary32.one })
    (by decide) (by decide) (Or.inr (by decide))
  obtain ⟨unit, hunit, -, hgroup⟩ := hwrites.group (by decide)
  cases hunit
  have hlane : (LaneUnit.avx2.compute true (Vector.replicate 8 Binary32.one)).get ⟨3, by decide⟩ =
      ⟨0x3F576AA5⟩ := by decide +kernel
  have hrounded : roundedSine Binary32.one = ⟨0x3F576AA4⟩ := by decide +kernel
  refine ⟨_, rfl, hsuccess, ?_, ?_, ?_⟩
  · rw [← hlane]
    exact hgroup 3 (by decide) (by decide) (Vector.replicate 8 Binary32.one) 3 (by decide) rfl
  · rw [← hrounded]
    exact hwrites.tail (by decide) 8 (by decide) (by decide)
  · rw [hwrites.outside 9 (by decide)]
    rfl

end Engine

end VectorSine
