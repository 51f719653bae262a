import VectorSine.Proofs.Engine.Resolution
import VectorSine.Proofs.Execution.Alone
import VectorSine.Session

/-! # Runs of a session

Kernels keep nothing from one run to the next. `Session.Follows` says what the state of a session
owes to its history: its engine is settled, and under each name it holds the kernel of the variant
that was last made under it. Every step keeps that, so a run is served like a single request to a
fresh engine, on the numbers and addresses that the two slices have at that moment and on nothing
else.

* `follows_after`: the kernels of a session in terms of its history.
* `runs_like_one_shot`: what a run replies and what it leaves.
-/

namespace VectorSine
set_option autoImplicit false

namespace Session

/-! ## Histories -/

/-- The variant whose kernel a step stores under a name. -/
def Step.made? (b : Build) (name : String) : Step → Option Variant
  | .make other v => if other = name ∧ b.supports v then some v else none
  | _ => none

/-- The variant that was last made under a name. -/
def lastMade (b : Build) (history : List Step) (name : String) : Option Variant :=
  history.reverse.findSome? (Step.made? b name)

/-- The variant that serves a run: the last made under the name, the preferred one without a
name. -/
def variantFor (b : Build) (history : List Step) : Option String → Option Variant
  | none => some (b.best .unaligned)
  | some name => lastMade b history name

variable {b : Build} {history : List Step} {s : Session}

theorem lastMade_append (history : List Step) (x : Step) (name : String) :
    lastMade b (history ++ [x]) name = (x.made? b name).or (lastMade b history name) := by
  simp [lastMade, List.findSome?_cons]
  cases x.made? b name <;> rfl

theorem supports_of_lastMade {name : String} {v : Variant} (h : lastMade b history name = some v) :
    b.supports v = true := by
  obtain ⟨x, -, hx⟩ := List.exists_of_findSome?_eq_some h
  cases x with
  | make other w =>
    simp only [Step.made?, Option.ite_none_right_eq_some, Option.some.injEq] at hx
    rw [← hx.2]
    exact hx.1.2
  | buffer | run => contradiction

theorem after_append (s : Session) (xs : List Step) (x : Step) :
    s.after (xs ++ [x]) = ((s.after xs).step x).2 := by
  induction xs generalizing s with
  | nil => rfl
  | cons y ys ih => exact ih _

/-! ## What a session owes to its history -/

/-- The state of a session of a build after some steps, as far as kernels go. -/
structure Follows (b : Build) (history : List Step) (s : Session) : Prop where
  build : s.engine.build = b
  settled : s.engine.Settled
  kernels : ∀ name, s.kernels[name]? = (lastMade b history name).bind b.kernel?

theorem follows_start (b : Build) : (start b).Follows b [] := by
  refine ⟨rfl, Engine.settled_start b, ?_⟩
  intro name
  simp [start, lastMade]

/-! ## Single steps -/

theorem getElem?_insert_name {α : Type} (t : Std.TreeMap String α) (name other : String) (x : α) :
    (t.insert name x)[other]? = if name = other then some x else t[other]? := by
  simp [Std.TreeMap.getElem?_insert]

theorem make_of_kernel {name : String} {v : Variant} {k : Kernel}
    (h : s.engine.build.kernel? v = some k) :
    s.make name v = (.made none [.selected v],
      { s with engine := s.engine.report (.selected v), kernels := s.kernels.insert name k }) := by
  unfold make
  rw [Engine.make_of_kernel h]
  simp

theorem make_of_not_supports {name : String} {v : Variant}
    (h : s.engine.build.supports v = false) :
    s.make name v = (.made (some (.unsupported v)) [.rejected v],
      { s with engine := s.engine.report (.rejected v) }) := by
  unfold make
  rw [Engine.make_of_not_supports h]
  simp

theorem Follows.make (h : s.Follows b history) (name : String) (v : Variant) :
    (s.make name v).2.Follows b (history ++ [.make name v]) := by
  cases hsupports : s.engine.build.supports v with
  | false =>
    rw [make_of_not_supports hsupports]
    rw [h.build] at hsupports
    refine ⟨h.build, h.settled, ?_⟩
    intro other
    rw [lastMade_append]
    simp [Step.made?, hsupports, h.kernels other]
  | true =>
    obtain ⟨k, hk⟩ := Build.exists_kernel? hsupports
    rw [make_of_kernel hk]
    rw [h.build] at hsupports hk
    refine ⟨h.build, h.settled, ?_⟩
    intro other
    simp only [lastMade_append, getElem?_insert_name, Step.made?, hsupports, and_true]
    by_cases hname : name = other
    · rw [if_pos hname, if_pos hname, Option.some_or, Option.bind_some, hk]
    · rw [if_neg hname, if_neg hname, Option.none_or, h.kernels other]

/-- What serves a run: no kernel, or the request for a variant by itself. -/
theorem Follows.execute? (h : s.Follows b history) (kernel : Option String)
    (target source : Slice) :
    (variantFor b history kernel = none ∧ s.execute? kernel target source = none) ∨
      ∃ v e, variantFor b history kernel = some v ∧
        s.execute? kernel target source = some (b.execute v target source, e) ∧
        e.Settled ∧ e.build = b := by
  cases kernel with
  | none =>
    right
    obtain ⟨k, -, -, hsettled, hbuild, -⟩ := h.settled.resolve
    refine ⟨_, _, rfl, ?_, hsettled, hbuild.trans h.build⟩
    rw [← h.build, ← h.settled.outcome_sine]
    rfl
  | some name =>
    have hname := h.kernels name
    cases hlast : lastMade b history name with
    | none =>
      left
      rw [hlast, Option.bind_none] at hname
      exact ⟨hlast, by simp [Session.execute?, hname]⟩
    | some v =>
      right
      obtain ⟨k, hk⟩ := Build.exists_kernel? (supports_of_lastMade hlast)
      rw [hlast, Option.bind_some, hk] at hname
      refine ⟨v, s.engine, hlast, ?_, h.settled, h.build⟩
      simp [Session.execute?, hname, Build.execute, hk]

theorem lastMade_run (kernel : Option String) (src dst : String)
    (srcRange dstRange : Option Range) (name : String) :
    lastMade b (history ++ [.run kernel src dst srcRange dstRange]) name =
      lastMade b history name := by
  rw [lastMade_append]
  rfl

theorem run_of_execute? {kernel : Option String} {src dst : String}
    {srcRange dstRange : Option Range} {source target : Slice} {outcome : Outcome} {e : Engine}
    (hslices : s.slices? src dst srcRange dstRange = some (source, target))
    (hexecute : s.execute? kernel target source = some (outcome, e)) :
    s.run kernel src dst srcRange dstRange = (.ran outcome.failure outcome.dst,
      { s with engine := e, buffers := s.buffers.insert dst outcome.dst }) := by
  simp only [run, hslices, hexecute]

theorem run_of_no_kernel {kernel : Option String} {src dst : String}
    {srcRange dstRange : Option Range} {source target : Slice}
    (hslices : s.slices? src dst srcRange dstRange = some (source, target))
    (hexecute : s.execute? kernel target source = none) :
    s.run kernel src dst srcRange dstRange = (.noKernel target.buffer, s) := by
  simp only [run, hslices, hexecute]

theorem Follows.run (h : s.Follows b history) (kernel : Option String) (src dst : String)
    (srcRange dstRange : Option Range) :
    (s.run kernel src dst srcRange dstRange).2.Follows b
      (history ++ [.run kernel src dst srcRange dstRange]) := by
  have hkernels : ∀ name, s.kernels[name]? =
      (lastMade b (history ++ [.run kernel src dst srcRange dstRange]) name).bind b.kernel? := by
    intro name
    rw [lastMade_run, h.kernels name]
  cases hslices : s.slices? src dst srcRange dstRange with
  | none =>
    simp only [Session.run, hslices]
    exact ⟨h.build, h.settled, hkernels⟩
  | some slices =>
    obtain ⟨source, target⟩ := slices
    rcases h.execute? kernel target source with ⟨-, hnone⟩ | ⟨v, e, -, hsome, hsettled, hbuild⟩
    · rw [run_of_no_kernel hslices hnone]
      exact ⟨h.build, h.settled, hkernels⟩
    · rw [run_of_execute? hslices hsome]
      exact ⟨hbuild, hsettled, hkernels⟩

theorem Follows.step (h : s.Follows b history) (x : Step) :
    (s.step x).2.Follows b (history ++ [x]) := by
  cases x with
  | buffer name content =>
    refine ⟨h.build, h.settled, ?_⟩
    intro other
    rw [lastMade_append]
    exact h.kernels other
  | make name v => exact h.make name v
  | run kernel src dst srcRange dstRange => exact h.run kernel src dst srcRange dstRange

theorem follows_after (b : Build) (history : List Step) :
    ((start b).after history).Follows b history := by
  induction history using List.reverseRecOn with
  | nil => exact follows_start b
  | append_singleton history x ih =>
    rw [after_append]
    exact ih.step x

/-! ## Runs and one-shot requests -/

theorem slices?_eq_some {src dst : String} {srcRange dstRange : Option Range}
    {input output : Buffer} {source target : Slice} (hne : src ≠ dst)
    (hinput : s.buffers[src]? = some input) (houtput : s.buffers[dst]? = some output)
    (hsource : slice? input srcRange = some source)
    (htarget : slice? output dstRange = some target) :
    s.slices? src dst srcRange dstRange = some (source, target) := by
  simp [slices?, hne, hinput, houtput, hsource, htarget]

theorem buffer_of_slice? {b : Buffer} {range : Option Range} {t : Slice}
    (h : slice? b range = some t) : t.buffer = b := by
  cases range with
  | none =>
    cases h
    rfl
  | some range =>
    simp only [slice?, Buffer.slice?] at h
    split at h
    · cases h
      rfl
    · contradiction

/-- A run from `source` to `target`, a slice of the buffer `dst`, answers like the request `one` and
leaves `after` in that buffer: what `one` leaves where the target is, and nothing new elsewhere. -/
structure ServedLike (one : Outcome) (s : Session) (dst : String) (source target : Slice)
    (answer : Reply × Session) (after : Buffer) : Prop where
  reply : answer.1 = .ran one.failure after
  stored : answer.2.buffers[dst]? = some after
  others : ∀ name, name ≠ dst → answer.2.buffers[name]? = s.buffers[name]?
  kernels : answer.2.kernels = s.kernels
  offset : after.offset = target.buffer.offset
  size : after.data.size = target.buffer.data.size
  contents : ∀ i, i < target.count → after.data[target.first + i]? = one.dst.data[i]?
  outside : ∀ j, j < target.first ∨ target.first + source.count ≤ j →
    after.data[j]? = target.buffer.data[j]?
  refused : one.failure ≠ none → after = target.buffer

theorem servedLike_run {kernel : Option String} {src dst : String}
    {srcRange dstRange : Option Range} {source target : Slice} {v : Variant} {e : Engine}
    (hslices : s.slices? src dst srcRange dstRange = some (source, target))
    (hexecute : s.execute? kernel target source = some (b.execute v target source, e)) :
    ServedLike (b.execute v target.alone source.alone) s dst source target
      (s.run kernel src dst srcRange dstRange) (b.execute v target source).dst := by
  obtain ⟨hoffset, hsize, houtside⟩ := b.execute_unchanged v target source
  obtain ⟨hfailure, hcontents⟩ := b.execute_alone v target source
  rw [run_of_execute? hslices hexecute]
  refine ⟨by rw [hfailure], ?_, ?_, rfl, hoffset, hsize, hcontents, houtside, ?_⟩
  · rw [getElem?_insert_name, if_pos rfl]
  · intro name hname
    rw [getElem?_insert_name, if_neg hname.symm]
  · intro hrefused
    rw [hfailure] at hrefused
    exact b.execute_dst_of_failure v target source hrefused

/-- Whatever a session did before, a run between slices of two of its buffers is served like a
request to a fresh engine on those slices alone, for the variant last made under the name or the
preferred one; without a kernel under the name nothing changes. A request for a kernel changes no
buffer, and no kernel unless the build supports the variant. -/
theorem runs_like_one_shot (b : Build) (history : List Step) :
    (∀ (kernel : Option String) (src dst : String) (srcRange dstRange : Option Range)
        (input output : Buffer) (source target : Slice), src ≠ dst →
      ((start b).after history).buffers[src]? = some input →
      ((start b).after history).buffers[dst]? = some output →
      slice? input srcRange = some source → slice? output dstRange = some target →
      match variantFor b history kernel with
      | none => ((start b).after history).step (.run kernel src dst srcRange dstRange) =
          (.noKernel output, (start b).after history)
      | some v => ∃ after,
          ServedLike ((Engine.start b).execute v target.alone source.alone).1
            ((start b).after history) dst source target
            (((start b).after history).step (.run kernel src dst srcRange dstRange)) after) ∧
    (∀ name v,
      (∃ events, (((start b).after history).step (.make name v)).1 =
        .made (if b.supports v then none else some (.unsupported v)) events) ∧
      (((start b).after history).step (.make name v)).2.buffers =
        ((start b).after history).buffers ∧
      (b.supports v = false → (((start b).after history).step (.make name v)).2.kernels =
        ((start b).after history).kernels)) := by
  have hfollows := follows_after b history
  generalize (start b).after history = s at hfollows
  constructor
  · intro kernel src dst srcRange dstRange input output source target hne hinput houtput hsource
      htarget
    have hslices := slices?_eq_some hne hinput houtput hsource htarget
    rcases hfollows.execute? kernel target source with
      ⟨hserved, hnone⟩ | ⟨v, e, hserved, hsome, -⟩
    · rw [hserved]
      change s.run kernel src dst srcRange dstRange = _
      rw [run_of_no_kernel hslices hnone, buffer_of_slice? htarget]
    · rw [hserved]
      refine ⟨(b.execute v target source).dst, ?_⟩
      rw [Engine.execute_eq_build]
      exact servedLike_run hslices hsome
  · intro name v
    change (∃ events, (s.make name v).1 = _) ∧ (s.make name v).2.buffers = s.buffers ∧
      (b.supports v = false → (s.make name v).2.kernels = s.kernels)
    cases hsupports : b.supports v with
    | false =>
      rw [make_of_not_supports (by rw [hfollows.build, hsupports])]
      exact ⟨⟨_, rfl⟩, rfl, fun _ => rfl⟩
    | true =>
      obtain ⟨k, hk⟩ := Build.exists_kernel? hsupports
      rw [make_of_kernel (by rw [hfollows.build, hk])]
      exact ⟨⟨_, rfl⟩, rfl, fun h => Bool.noConfusion h⟩

/-- The kernel that was made first is still there after a refusal, and serves a run between parts of
two buffers. -/
theorem runs_like_one_shot_after_refusal :
    ∃ after, (((start .all).after
        [.buffer "x" { offset := 0, data := Array.replicate 12 Binary32.one },
          .buffer "y" { offset := 2, data := Array.replicate 20 Binary32.zero },
          .make "k" { isa := .avx2, fused := true, alignment := .aligned },
          .make "k" { isa := .neon, fused := true, alignment := .aligned }]).step
        (.run (some "k") "x" "y" (some { first := 0, stop := 9 })
          (some { first := 6, stop := 15 }))).1 = .ran none after ∧
      after.data[5]? = some Binary32.zero ∧ after.data[15]? = some Binary32.zero := by
  obtain ⟨after, h⟩ := (runs_like_one_shot .all
    [.buffer "x" { offset := 0, data := Array.replicate 12 Binary32.one },
      .buffer "y" { offset := 2, data := Array.replicate 20 Binary32.zero },
      .make "k" { isa := .avx2, fused := true, alignment := .aligned },
      .make "k" { isa := .neon, fused := true, alignment := .aligned }]).1 (some "k") "x" "y"
    (some { first := 0, stop := 9 }) (some { first := 6, stop := 15 }) _ _ _ _ (by decide) rfl rfl
    rfl rfl
  refine ⟨after, h.reply.trans ?_, h.outside 5 (Or.inl (by decide)),
    h.outside 15 (Or.inr (by decide))⟩
  exact congrArg (fun failure => Reply.ran failure after) (by decide)

end Session

end VectorSine
