import VectorSine.Execution.Execute
import VectorSine.Proofs.Packed.Lanes

/-! # What a run writes

`d.Filled e P f` says that the slice `d` is `e` but for the positions in `P`, which hold the numbers
of `f`. Each step of a run fills the positions that it covers and changes no others, so after a fold
of steps exactly the positions that some step covers are filled, in whatever order the steps came
(`foldlM_filled`). The groups and the tail together cover the source once.

* `Kernel.sweep?_filled`: a run fills the first positions of the destination, as many as the source
  has, with the values of `Kernel.valueAt`.
-/

namespace VectorSine
set_option autoImplicit false

namespace Slice

/-- The slice `d` is at the place of `e` and holds its numbers, but for the positions in `P`, which
hold those of `f`. -/
structure Filled (d e : Slice) (P : Nat → Prop) (f : Nat → Binary32) : Prop where
  offset : d.buffer.offset = e.buffer.offset
  size : d.buffer.data.size = e.buffer.data.size
  first : d.first = e.first
  inside : ∀ i, P i → d.buffer.data[e.first + i]? = some (f i)
  outside : ∀ j, (∀ i, P i → j ≠ e.first + i) → d.buffer.data[j]? = e.buffer.data[j]?

variable {d e : Slice} {P Q : Nat → Prop} {f : Nat → Binary32}

theorem Filled.start (d e : Slice) (f : Nat → Binary32) (hbuffer : d.buffer = e.buffer)
    (hfirst : d.first = e.first) : d.Filled e (fun _ => False) f := by
  refine ⟨by rw [hbuffer], by rw [hbuffer], hfirst, ?_, ?_⟩
  · intro i hi
    exact hi.elim
  · intro j _
    rw [hbuffer]

theorem Filled.congr (h : d.Filled e P f) (hPQ : ∀ i, P i ↔ Q i) : d.Filled e Q f := by
  have heq : P = Q := funext fun i => propext (hPQ i)
  rw [← heq]
  exact h

theorem Filled.write (h : d.Filled e P f) (i : Nat) (xs : List Binary32)
    (hcount : i + xs.length ≤ d.count) (hxs : ∀ k, k < xs.length → xs[k]? = some (f (i + k))) :
    (d.write i xs).Filled e (fun j => P j ∨ (i ≤ j ∧ j < i + xs.length)) f := by
  refine ⟨h.offset, ?_, h.first, ?_, ?_⟩
  · rw [write_size, h.size]
  · intro j hj
    rw [← h.first]
    by_cases hcovered : i ≤ j ∧ j < i + xs.length
    · obtain ⟨k, rfl⟩ := Nat.exists_eq_add_of_le hcovered.1
      have hk : k < xs.length := by omega
      rw [write_getElem?_inside d i k xs hk hcount, hxs k hk]
    · have hP : P j := hj.resolve_right hcovered
      change (writeFrom d.buffer.data (d.first + i) xs)[d.first + j]? = some (f j)
      rw [writeFrom_getElem?_outside _ _ _ _ (by omega), h.first]
      exact h.inside j hP
  · intro j hj
    change (writeFrom d.buffer.data (d.first + i) xs)[j]? = e.buffer.data[j]?
    rw [writeFrom_getElem?_outside, h.outside j fun k hk => hj k (Or.inl hk)]
    rw [h.first]
    by_cases hlow : j < e.first + i
    · exact Or.inl hlow
    · right
      by_contra hhigh
      exact hj (j - e.first) (Or.inr (by omega)) (by omega)

end Slice

theorem foldlM_filled {α : Type} (step : Slice → α → Option Slice) (covers : α → Nat → Prop)
    (f : Nat → Binary32) (e : Slice) (xs : List α)
    (hstep : ∀ x ∈ xs, ∀ (d d' : Slice) (P : Nat → Prop), step d x = some d' →
      d.Filled e P f → d'.Filled e (fun i => P i ∨ covers x i) f)
    (d d' : Slice) (P : Nat → Prop) (hfold : xs.foldlM step d = some d') (hd : d.Filled e P f) :
    d'.Filled e (fun i => P i ∨ ∃ x ∈ xs, covers x i) f := by
  induction xs generalizing d P with
  | nil =>
    cases hfold
    apply hd.congr
    intro i
    simp
  | cons x xs ih =>
    rw [List.foldlM_cons] at hfold
    obtain ⟨d₁, hx, hxs⟩ := Option.bind_eq_some_iff.1 hfold
    have hd₁ := hstep x List.mem_cons_self d d₁ P hx hd
    have hrest := ih (fun y hy => hstep y (List.mem_cons_of_mem x hy)) d₁ _ hxs hd₁
    apply hrest.congr
    intro i
    simp only [List.mem_cons, exists_eq_or_imp, or_assoc]

namespace Slice

/-! ## Coverage -/

theorem groupStarts_cover (s : Slice) (w i : Nat) (hw : 0 < w) :
    (∃ g ∈ s.groupStarts w, g ≤ i ∧ i < g + w) ↔ i < s.count - s.count % w := by
  have hcount := Nat.div_add_mod s.count w
  have hgroups : s.count - s.count % w = w * (s.count / w) := by omega
  rw [hgroups]
  unfold groupStarts
  simp only [List.mem_map, List.mem_range]
  constructor
  · rintro ⟨_, ⟨k, hk, rfl⟩, -, hlt⟩
    have hle : (k + 1) * w ≤ s.count / w * w := Nat.mul_le_mul_right w hk
    rw [Nat.add_mul, Nat.one_mul] at hle
    rw [Nat.mul_comm w]
    omega
  · intro hi
    refine ⟨i / w * w, ⟨i / w, (Nat.div_lt_iff_lt_mul hw).2 ?_, rfl⟩, Nat.div_mul_le_self i w, ?_⟩
    · rw [Nat.mul_comm]
      exact hi
    · have hsplit := Nat.div_add_mod' i w
      have hmod := Nat.mod_lt i hw
      omega

theorem tailPositions_cover (s : Slice) (w i : Nat) :
    i ∈ s.tailPositions w ↔ s.count - s.count % w ≤ i ∧ i < s.count := by
  have hcount := Nat.div_add_mod' s.count w
  have hgroups : s.count - s.count % w = s.count / w * w := by omega
  rw [hgroups]
  unfold tailPositions
  simp only [List.mem_map, List.mem_range]
  constructor
  · rintro ⟨k, hk, rfl⟩
    omega
  · intro hi
    exact ⟨i - s.count / w * w, by omega, by omega⟩

end Slice

namespace Kernel

/-- The sine that a run over `n` numbers leaves at a position for the number there. -/
def valueAt (k : Kernel) (n i : Nat) (x : Binary32) : Binary32 :=
  match k with
  | generic => roundedSine x
  | lanes unit fused _ =>
    if i < n - n % unit.lanes then unit.laneValue fused x else roundedSine x

def values (k : Kernel) (src : Slice) (i : Nat) : Binary32 :=
  if h : i < src.count then k.valueAt src.count i (src.get i h) else default

variable {d d' e src : Slice} {P : Nat → Prop} {f : Nat → Binary32}

/-! ## Single steps -/

theorem roundOne?_filled (i : Nat) (hf : ∀ h : i < src.count, f i = roundedSine (src.get i h))
    (hstep : roundOne? src d (i, i) = some d') (hd : d.Filled e P f) :
    d'.Filled e (fun j => P j ∨ j = i) f := by
  obtain ⟨x, hx, hcount, rfl⟩ := roundOne?_eq_some hstep
  obtain ⟨hi, rfl⟩ := Slice.get?_eq_some hx
  have hwrite := hd.write i [roundedSine (src.get i hi)] hcount (by simp [hf hi])
  apply hwrite.congr
  intro j
  rw [List.length_singleton]
  constructor <;> rintro (h | h) <;> first | exact Or.inl h | exact Or.inr (by omega)

theorem sweepGroup?_filled (unit : LaneUnit) (fused aligned : Bool) (i : Nat)
    (hf : ∀ k (h : i + k < src.count), k < unit.lanes →
      f (i + k) = unit.laneValue fused (src.get (i + k) h))
    (hstep : sweepGroup? unit fused aligned src d (i, i) = some d') (hd : d.Filled e P f) :
    d'.Filled e (fun j => P j ∨ (i ≤ j ∧ j < i + unit.lanes)) f := by
  obtain ⟨r, hloaded, hcount, rfl⟩ := sweepGroup?_eq_some hstep
  have hlength : (unit.compute fused r).toList.length = unit.lanes := Vector.length_toList
  have hwrite := hd.write i (unit.compute fused r).toList (by rw [hlength]; exact hcount) ?_
  · rw [hlength] at hwrite
    exact hwrite
  · intro k hk
    rw [List.getElem?_eq_getElem hk, Vector.getElem_toList]
    rw [hlength] at hk
    obtain ⟨hinside, hlane⟩ := Slice.get?_eq_some (hloaded k hk)
    rw [hf k hinside hk, LaneUnit.getElem_compute unit fused _ k hk, ← hlane]

/-! ## Whole runs -/

theorem mem_zip_range {m n : Nat} {p : Nat × Nat}
    (h : p ∈ (List.range m).zip (List.range n)) : p.1 = p.2 := by
  obtain ⟨k, hk, rfl⟩ := List.mem_iff_getElem.1 h
  simp

theorem sweep?_filled (k : Kernel) (dst src d : Slice) (hcount : src.count ≤ dst.count)
    (hd : k.sweep? dst src = some d) :
    d.Filled dst (fun i => i < src.count) (k.values src) := by
  cases k with
  | generic =>
    have hfilled := foldlM_filled (roundOne? src) (fun p i => i = p.1)
      (generic.values src) dst ((List.range dst.count).zip (List.range src.count))
      (by
        rintro ⟨i, j⟩ hp d d' P hstep hd
        obtain rfl : i = j := mem_zip_range hp
        exact roundOne?_filled i (fun h => dif_pos h) hstep hd)
      dst d (fun _ => False) hd (Slice.Filled.start dst dst _ rfl rfl)
    apply hfilled.congr
    intro i
    simp only [false_or]
    constructor
    · rintro ⟨p, hp, hi⟩
      rw [hi, mem_zip_range hp]
      exact List.mem_range.1 (List.of_mem_zip hp).2
    · intro hi
      refine ⟨(i, i), ?_, rfl⟩
      rw [List.mem_iff_getElem]
      exact ⟨i, by simp; omega, by simp⟩
  | lanes unit fused aligned =>
    set f := (lanes unit fused aligned).values src with hf
    have hgroupValue : ∀ i (h : i < src.count), i < src.count - src.count % unit.lanes →
        f i = unit.laneValue fused (src.get i h) := by
      intro i h hi
      simp only [hf, values, valueAt, dif_pos h, if_pos hi]
    have htailValue : ∀ i (h : i < src.count), src.count - src.count % unit.lanes ≤ i →
        f i = roundedSine (src.get i h) := by
      intro i h hi
      simp only [hf, values, valueAt, dif_pos h, if_neg (Nat.not_lt.2 hi)]
    obtain ⟨head, htake, hheadCount, hbuffer, hfirst⟩ := Slice.take?_eq_some hcount
    obtain ⟨head', htake', hrun⟩ := Option.bind_eq_some_iff.1 hd
    obtain rfl : head = head' := Option.some.inj (htake.symm.trans htake')
    obtain ⟨swept, hswept, htail⟩ := Option.bind_eq_some_iff.1 hrun
    simp only [Plan.between_groups _ _ _ hheadCount] at hswept
    simp only [Plan.between_tail _ _ _ hheadCount] at htail
    have hgroups := foldlM_filled (sweepGroup? unit fused aligned src)
      (fun p i => p.1 ≤ i ∧ i < p.1 + unit.lanes) f dst _
      (by
        rintro p hp d d' P hstep hd
        obtain ⟨g, hg, rfl⟩ := List.mem_map.1 hp
        refine sweepGroup?_filled unit fused aligned g ?_ hstep hd
        intro k h hk
        exact hgroupValue (g + k) h ((src.groupStarts_cover unit.lanes _ unit.lanes_pos).1
          ⟨g, hg, by omega, by omega⟩))
      head swept (fun _ => False) hswept (Slice.Filled.start head dst f hbuffer hfirst)
    have hall := foldlM_filled (roundOne? src) (fun p i => i = p.1) f dst _
      (by
        rintro p hp d d' P hstep hd
        obtain ⟨i, hi, rfl⟩ := List.mem_map.1 hp
        exact roundOne?_filled i
          (fun h => htailValue i h ((src.tailPositions_cover unit.lanes i).1 hi).1) hstep hd)
      swept d _ htail hgroups
    apply hall.congr
    intro i
    have hgroup := src.groupStarts_cover unit.lanes i unit.lanes_pos
    have htail := src.tailPositions_cover unit.lanes i
    simp only [List.mem_map, false_or, exists_exists_and_eq_and, exists_eq_right', hgroup, htail]
    omega

end Kernel

end VectorSine
