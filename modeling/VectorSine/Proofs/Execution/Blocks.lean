import VectorSine.Proofs.Engine.Resolution
import VectorSine.Proofs.Execution.Accesses

/-! # Work in blocks

A request may be cut into blocks of consecutive positions and served block by block, in any order.
Single sines differ from those of groups, so a cut has to respect the groups: every block but the
last holds a multiple of the kernel's lanes. `Span.Respects` says so of one block: its values are
then those of the whole request (`Kernel.values_part`), and its addresses fit where the whole ones
do (`Kernel.checkBuffers_part`).

Each block fills its own span and nothing else, so after all of them the source is covered,
whichever came first (`Engine.foldlM_serveBlock?_filled`).

* `Engine.blocks_in_any_order`: block by block leaves what one request leaves.
-/

namespace VectorSine
set_option autoImplicit false

namespace Span

/-- Spans of the given lengths, one after the other from a position on. -/
def consecutive (first : Nat) : List Nat → List Span
  | [] => []
  | n :: ns => { first := first, count := n } :: consecutive (first + n) ns

/-- A block among the first `n` positions that starts with a group of `w` lanes and ends with one,
or where the positions end. -/
structure Respects (w n : Nat) (block : Span) : Prop where
  start : w ∣ block.first
  inside : block.first + block.count ≤ n
  stop : w ∣ block.count ∨ block.first + block.count = n

theorem consecutive_respects {w : Nat} {sizes : List Nat} (first : Nat) (hfirst : w ∣ first)
    (hsizes : ∀ n ∈ sizes.dropLast, w ∣ n) :
    ∀ block ∈ consecutive first sizes, block.Respects w (first + sizes.sum) := by
  induction sizes generalizing first with
  | nil => simp [consecutive]
  | cons n ns ih =>
    intro block hblock
    rw [List.sum_cons, ← Nat.add_assoc]
    rcases List.mem_cons.1 hblock with rfl | hrest
    · refine ⟨hfirst, Nat.le_add_right _ _, ?_⟩
      cases ns with
      | nil => exact Or.inr rfl
      | cons m ms => exact Or.inl (hsizes n (by simp))
    · cases ns with
      | nil => simp [consecutive] at hrest
      | cons m ms =>
        have hn : w ∣ n := hsizes n (by simp)
        exact ih (first + n) (Nat.dvd_add hfirst hn)
          (fun k hk => hsizes k (by simpa using Or.inr hk)) block hrest

theorem consecutive_cover (first i : Nat) (sizes : List Nat) :
    (∃ block ∈ consecutive first sizes, block.first ≤ i ∧ i < block.first + block.count) ↔
      first ≤ i ∧ i < first + sizes.sum := by
  induction sizes generalizing first with
  | nil => simp [consecutive]
  | cons n ns ih =>
    simp only [consecutive, List.mem_cons, exists_eq_or_imp, ih, List.sum_cons]
    omega

/-- Within a block that respects the groups, full groups end where those of the whole end. -/
theorem Respects.lt_groups_iff {w n : Nat} {block : Span} (h : block.Respects w n) {i : Nat}
    (hi : i < block.count) :
    i < block.count - block.count % w ↔ block.first + i < n - n % w := by
  have hmod : (block.first + block.count) % w = block.count % w := by
    rw [Nat.add_mod, Nat.mod_eq_zero_of_dvd h.start, Nat.zero_add, Nat.mod_mod]
  have hle := Nat.mod_le block.count w
  rcases h.stop with hcount | hend
  -- the block has no tail, and ends before the tail of the whole
  · have hgroups : w * ((block.first + block.count) / w) ≤ w * (n / w) :=
      Nat.mul_le_mul_left w (Nat.div_le_div_right h.inside)
    rw [Nat.mul_div_cancel' (Nat.dvd_add h.start hcount)] at hgroups
    have hn := Nat.div_add_mod n w
    rw [Nat.mod_eq_zero_of_dvd hcount]
    omega
  -- the tail of the block is the tail of the whole
  · rw [← hend, hmod]
    omega

end Span

namespace Slice

/-- The numbers of a slice in a span. -/
def part? (s : Slice) (block : Span) : Option Slice :=
  if h : block.first + block.count ≤ s.count then
    some { buffer := s.buffer, first := s.first + block.first, count := block.count
           inside := by have := s.inside; omega }
  else none

/-- The place of a slice in another buffer. -/
def moved? (s : Slice) (b : Buffer) : Option Slice := b.slice? s.first (s.first + s.count)

/-- One slice is the part of another in a span. -/
structure IsPart (p s : Slice) (block : Span) : Prop where
  inside : block.first + block.count ≤ s.count
  buffer : p.buffer = s.buffer
  first : p.first = s.first + block.first
  count : p.count = block.count

theorem isPart_of_part? {s p : Slice} {block : Span} (h : s.part? block = some p) :
    p.IsPart s block := by
  unfold part? at h
  split at h
  · next hinside =>
    cases h
    exact ⟨hinside, rfl, rfl, rfl⟩
  · contradiction

theorem part?_isSome {s : Slice} {block : Span} (h : block.first + block.count ≤ s.count) :
    ∃ p, s.part? block = some p := ⟨_, dif_pos h⟩

theorem IsPart.address {p s : Slice} {block : Span} (h : p.IsPart s block) :
    p.address 0 = s.address block.first := by
  simp only [Slice.address, h.buffer, h.first, Nat.add_assoc, Nat.add_zero]

theorem IsPart.get {p s : Slice} {block : Span} (h : p.IsPart s block) (i : Nat)
    (hi : i < p.count) (hs : block.first + i < s.count) :
    p.get i hi = s.get (block.first + i) hs := by
  obtain ⟨pbuffer, pfirst, pcount, pinside⟩ := p
  obtain ⟨-, rfl, rfl, rfl⟩ := h
  simp only [Slice.get, Nat.add_assoc]

theorem moved?_eq_some {s : Slice} {b : Buffer} (h : b.data.size = s.buffer.data.size) :
    ∃ d, s.moved? b = some d ∧ d.buffer = b ∧ d.first = s.first ∧ d.count = s.count := by
  have hinside := s.inside
  refine ⟨_, dif_pos ⟨by omega, by omega⟩, rfl, rfl, ?_⟩
  exact Nat.add_sub_cancel_left s.first s.count

/-- Filling a part fills its span of the whole. -/
theorem Filled.part {d d' e target t : Slice} {block : Span} {P : Nat → Prop}
    {f g : Nat → Binary32} (hd : d.Filled e P f) (htarget : target.IsPart d block)
    (ht : t.Filled target (fun i => i < block.count) g)
    (hvalues : ∀ i, i < block.count → g i = f (block.first + i))
    (hbuffer : d'.buffer = t.buffer) (hfirst : d'.first = d.first) :
    d'.Filled e (fun i => P i ∨ (block.first ≤ i ∧ i < block.first + block.count)) f := by
  have hplace : target.first = e.first + block.first := by rw [htarget.first, hd.first]
  have hout : ∀ j, (∀ i, block.first ≤ i ∧ i < block.first + block.count → j ≠ e.first + i) →
      t.buffer.data[j]? = d.buffer.data[j]? := by
    intro j hj
    rw [ht.outside j, htarget.buffer]
    intro m hm
    rw [hplace, Nat.add_assoc]
    exact hj _ ⟨by omega, by omega⟩
  refine ⟨?_, ?_, hfirst.trans hd.first, ?_, ?_⟩
  · rw [hbuffer, ht.offset, htarget.buffer, hd.offset]
  · rw [hbuffer, ht.size, htarget.buffer, hd.size]
  · intro i hi
    rw [hbuffer]
    by_cases hcovered : block.first ≤ i ∧ i < block.first + block.count
    · obtain ⟨m, rfl⟩ := Nat.exists_eq_add_of_le hcovered.1
      have hm : m < block.count := by omega
      rw [← Nat.add_assoc, ← hplace, ht.inside m hm, hvalues m hm]
    · rw [hout _ fun m hm => by omega]
      exact hd.inside i (hi.resolve_right hcovered)
  · intro j hj
    rw [hbuffer, hout j fun i hi => hj i (Or.inr hi)]
    exact hd.outside j fun i hi => hj i (Or.inl hi)

end Slice

namespace Kernel

/-- The numbers of a full group. -/
def width : Kernel → Nat
  | generic => 1
  | lanes unit _ _ => unit.lanes

theorem width_of_variant {v : Variant} {k : Kernel} (h : v.kernel? = some k) :
    k.width = v.lanes := by
  obtain ⟨isa, fused, alignment⟩ := v
  cases isa <;> cases h <;> rfl

theorem requiredAlignment_dvd (k : Kernel) : k.requiredAlignment ∣ k.width * bytesPerNumber := by
  cases k with
  | generic => exact Nat.dvd_refl _
  | lanes unit fused aligned =>
    simp only [requiredAlignment, LaneUnit.requiredAlignment, width]
    split
    · exact Nat.dvd_refl _
    · exact Nat.dvd_mul_left _ _

/-- A block that respects the groups has the values of the whole request. -/
theorem values_part (k : Kernel) {src source : Slice} {block : Span}
    (hblock : block.Respects k.width src.count) (hpart : source.IsPart src block) {i : Nat}
    (hi : i < block.count) : k.values source i = k.values src (block.first + i) := by
  have hinside : block.first + i < src.count := by have := hblock.inside; omega
  have hisource : i < source.count := by rw [hpart.count]; exact hi
  rw [values, values, dif_pos hisource, dif_pos hinside, hpart.get i hisource hinside]
  cases k with
  | generic => rfl
  | lanes unit fused aligned =>
    have hgroups : i < block.count - block.count % unit.lanes ↔
        block.first + i < src.count - src.count % unit.lanes := hblock.lt_groups_iff hi
    simp only [valueAt, hpart.count, hgroups]

/-- What a check of the whole lets through, it lets through in blocks. -/
theorem checkBuffers_part {k : Kernel} {dst src d target source : Slice} {block : Span}
    (hcheck : checkBuffers dst src k.requiredAlignment = none)
    (hblock : block.Respects k.width src.count) (hd : d.SamePlace dst)
    (htarget : target.IsPart d block) (hsource : source.IsPart src block) :
    checkBuffers target source k.requiredAlignment = none := by
  obtain ⟨-, hmod⟩ := (checkBuffers_eq_none_iff dst src _).1 hcheck
  have haddress : ∀ s : Slice, s.address block.first % k.requiredAlignment =
      s.address 0 % k.requiredAlignment := by
    intro s
    have h := s.address_mod k.width block.first (Nat.mod_eq_zero_of_dvd hblock.start)
    rw [← Nat.mod_mod_of_dvd _ k.requiredAlignment_dvd, h,
      Nat.mod_mod_of_dvd _ k.requiredAlignment_dvd]
  rw [checkBuffers_eq_none_iff, htarget.count, hsource.count, htarget.address, hsource.address,
    haddress, haddress, hd.address]
  refine ⟨Nat.le_refl _, ?_⟩
  rcases hmod with hempty | hmod
  · left
    have := hblock.inside
    omega
  · exact Or.inr hmod

end Kernel

namespace Engine

/-! ## Block by block -/

/-- A request on one block of a destination and a source; nothing where it is refused. -/
def serveBlock? (serve : Engine → Slice → Slice → Outcome × Engine) (src : Slice)
    (state : Slice × Engine) (block : Span) : Option (Slice × Engine) := do
  let target ← state.1.part? block
  let source ← src.part? block
  let served := serve state.2 target source
  match served.1.failure with
  | some _ => none
  | none => (state.1.moved? served.1.dst).map fun d => (d, served.2)

/-- An engine that satisfies `Good` answers requests by one kernel, and satisfies it afterwards. -/
def ServedBy (k : Kernel) (serve : Engine → Slice → Slice → Outcome × Engine)
    (Good : Engine → Prop) : Prop :=
  ∀ e dst src, Good e → (serve e dst src).1 = k.execute dst src ∧ Good (serve e dst src).2

variable {k : Kernel} {serve : Engine → Slice → Slice → Outcome × Engine} {Good : Engine → Prop}
variable {dst src d : Slice} {e : Engine} {block : Span} {P : Nat → Prop}

theorem serveBlock?_filled (hserve : ServedBy k serve Good)
    (hcheck : checkBuffers dst src k.requiredAlignment = none)
    (hblock : block.Respects k.width src.count) (he : Good e) (hplace : d.SamePlace dst)
    (hd : d.Filled dst P (k.values src)) :
    ∃ d' e', serveBlock? serve src (d, e) block = some (d', e') ∧ Good e' ∧ d'.SamePlace dst ∧
      d'.Filled dst (fun i => P i ∨ (block.first ≤ i ∧ i < block.first + block.count))
        (k.values src) := by
  have hcount := ((checkBuffers_eq_none_iff dst src _).1 hcheck).1
  obtain ⟨target, htarget⟩ := Slice.part?_isSome (show block.first + block.count ≤ d.count by
    rw [hplace.count]; exact hblock.inside.trans hcount)
  obtain ⟨source, hsource⟩ := Slice.part?_isSome hblock.inside
  have htargetPart := Slice.isPart_of_part? htarget
  have hsourcePart := Slice.isPart_of_part? hsource
  obtain ⟨t, hexecute, ht⟩ := k.execute_filled target source
    (Kernel.checkBuffers_part hcheck hblock hplace htargetPart hsourcePart)
  obtain ⟨houtcome, hgood⟩ := hserve e target source he
  have hsize : t.buffer.data.size = d.buffer.data.size := by rw [ht.size, htargetPart.buffer]
  obtain ⟨d', hmoved, hbuffer, hfirst, hcount'⟩ := Slice.moved?_eq_some hsize
  rw [hsourcePart.count] at ht
  have hfilled := hd.part htargetPart ht (fun i hi => k.values_part hblock hsourcePart hi) hbuffer
    hfirst
  refine ⟨d', (serve e target source).2, ?_, hgood, ?_, hfilled⟩
  · simp [serveBlock?, htarget, hsource, houtcome, hexecute, hmoved]
  · exact ⟨hfilled.offset, hfilled.size, hfilled.first, hcount'.trans hplace.count⟩

theorem foldlM_serveBlock?_filled (hserve : ServedBy k serve Good)
    (hcheck : checkBuffers dst src k.requiredAlignment = none) (order : List Span)
    (horder : ∀ block ∈ order, block.Respects k.width src.count) (he : Good e)
    (hplace : d.SamePlace dst) (hd : d.Filled dst P (k.values src)) :
    ∃ d' e', order.foldlM (serveBlock? serve src) (d, e) = some (d', e') ∧
      d'.Filled dst (fun i => P i ∨ ∃ block ∈ order, block.first ≤ i ∧
        i < block.first + block.count) (k.values src) := by
  -- the positions filled so far are `P`: each block adds its span, and leaves the place and `Good`
  induction order generalizing e d P with
  | nil =>
    refine ⟨d, e, rfl, hd.congr ?_⟩
    intro i
    simp
  | cons block order ih =>
    obtain ⟨next, e₁, hblock, hgood, hplace₁, hnext⟩ := serveBlock?_filled hserve hcheck
      (horder block List.mem_cons_self) he hplace hd
    obtain ⟨d', e', hrest, hd'⟩ := ih (fun b hb => horder b (List.mem_cons_of_mem block hb)) hgood
      hplace₁ hnext
    refine ⟨d', e', ?_, hd'.congr ?_⟩
    · rw [List.foldlM_cons, hblock]
      exact hrest
    · intro i
      simp only [List.mem_cons, exists_eq_or_imp, or_assoc]

/-- A request that one kernel serves may be served by it block by block, in whatever order. -/
theorem foldlM_serveBlock?_eq (hserve : ServedBy k serve Good) (he : Good e) {sizes : List Nat}
    {order : List Span} (hsum : sizes.sum = src.count)
    (horder : order.Perm (Span.consecutive 0 sizes)) (hsizes : ∀ n ∈ sizes.dropLast, k.width ∣ n)
    (hok : (serve e dst src).1.failure = none) :
    ∃ d e', order.foldlM (serveBlock? serve src) (dst, e) = some (d, e') ∧
      d.buffer = (serve e dst src).1.dst := by
  rw [(hserve e dst src he).1] at hok ⊢
  have hcheck : checkBuffers dst src k.requiredAlignment = none := by
    rw [← k.execute_failure, hok]
  have hrespects : ∀ block ∈ order, block.Respects k.width src.count := by
    intro block hblock
    have h := Span.consecutive_respects 0 (Nat.dvd_zero _) hsizes block (horder.mem_iff.1 hblock)
    rwa [Nat.zero_add, hsum] at h
  obtain ⟨d, e', hd, hblocks⟩ := foldlM_serveBlock?_filled hserve hcheck order hrespects he
    (Slice.SamePlace.refl dst) (Slice.Filled.start dst dst (k.values src) rfl rfl)
  obtain ⟨whole, hexecute, hwhole⟩ := k.execute_filled dst src hcheck
  refine ⟨d, e', hd, ?_⟩
  rw [hexecute]
  apply Slice.Filled.buffer_eq _ hwhole
  apply hblocks.congr
  intro i
  have hcover := Span.consecutive_cover 0 i sizes
  simp only [false_or, horder.mem_iff, hcover, hsum]
  omega

/-! ## Both kinds of requests -/

theorem servedBy_execute {b : Build} {v : Variant} (hk : b.kernel? v = some k) :
    ServedBy k (fun e => e.execute v) fun e => e.build = b := by
  intro e dst src he
  subst he
  exact ⟨congrArg Prod.fst (execute_of_kernel hk dst src),
    congrArg (fun served => served.2.build) (execute_of_kernel hk dst src)⟩

theorem servedBy_sine (k : Kernel) : ServedBy k sine fun e => e.resolve.1 = .ok k := by
  intro e dst src he
  refine ⟨by rw [sine, he]; rfl, ?_⟩
  exact resolve_resolve he

/-- The blocks of a request that succeeds are served in any order, and leave what it leaves. All but
the last hold whole groups of the variant that is named, or of the kernel that was resolved. -/
theorem blocks_in_any_order (e : Engine) (dst src : Slice) (sizes : List Nat) (order : List Span)
    (hsum : sizes.sum = src.count) (horder : order.Perm (Span.consecutive 0 sizes)) :
    (∀ v, (e.execute v dst src).1.failure = none → (∀ n ∈ sizes.dropLast, v.lanes ∣ n) →
      ∃ d e', order.foldlM (serveBlock? (fun e => e.execute v) src) (dst, e) = some (d, e') ∧
        d.buffer = (e.execute v dst src).1.dst) ∧
    (∀ k, e.resolve.1 = .ok k → (e.sine dst src).1.failure = none →
      (∀ n ∈ sizes.dropLast, k.width ∣ n) →
      ∃ d e', order.foldlM (serveBlock? sine src) (dst, e) = some (d, e') ∧
        d.buffer = (e.sine dst src).1.dst) := by
  constructor
  · intro v hok hsizes
    have hsupports : e.build.supports v = true :=
      (e.build.fits_of_execute v dst src (by rw [← execute_eq_build, hok])).1
    obtain ⟨k, hk⟩ := Build.exists_kernel? hsupports
    have hvariant : v.kernel? = some k := by rw [← Build.kernel?_of_supports hsupports, hk]
    rw [← Kernel.width_of_variant hvariant] at hsizes
    exact foldlM_serveBlock?_eq (servedBy_execute hk) rfl hsum horder hsizes hok
  · intro k hk hok hsizes
    exact foldlM_serveBlock?_eq (servedBy_sine k) hk hsum horder hsizes hok

/-- Three blocks, the last first, of nineteen numbers at addresses of whole registers. -/
theorem blocks_in_any_order_nineteen :
    ∃ d e', [({ first := 16, count := 3 } : Span), { first := 0, count := 8 },
        { first := 8, count := 8 }].foldlM
          (serveBlock? (fun e => e.execute { isa := .avx2, fused := true, alignment := .aligned })
            (Buffer.whole { offset := 8, data := Array.replicate 19 Binary32.one }))
          (Buffer.whole { offset := 16, data := Array.replicate 20 Binary32.zero }, start .all) =
        some (d, e') ∧
      d.buffer = ((start .all).execute { isa := .avx2, fused := true, alignment := .aligned }
        (Buffer.whole { offset := 16, data := Array.replicate 20 Binary32.zero })
        (Buffer.whole { offset := 8, data := Array.replicate 19 Binary32.one })).1.dst :=
  (blocks_in_any_order (start .all)
    (Buffer.whole { offset := 16, data := Array.replicate 20 Binary32.zero })
    (Buffer.whole { offset := 8, data := Array.replicate 19 Binary32.one }) [8, 8, 3] _
    (by decide) (by decide)).1 { isa := .avx2, fused := true, alignment := .aligned }
    (by decide) (by decide)

end Engine

end VectorSine
