import VectorSine.Proofs.Engine.Resolution
import VectorSine.Proofs.Execution.Refusal

/-! # Sequences of calls

A program that runs asks its engine for kernels, and for sines without naming one, in any order. The
engine is settled after every such sequence, so a request for sines has the outcome that it has in a
fresh engine for the preferred variant. The log has an entry for each request for a kernel, and one
more at the first request for sines, where the preferred kernel is resolved.

* `entries_afterCalls`: what calls log of which none resolves a kernel.
* `calls_like_fresh`: outcomes and log of any sequence.
-/

namespace VectorSine
set_option autoImplicit false

/-! ## Log entries -/

/-- What a log event reads like. -/
structure Entry where
  level : String
  message : String
  variant : String
  lanes : Option Nat
deriving DecidableEq

namespace Entry

def selected (v : Variant) : Entry :=
  { level := "DEBUG", message := "sine kernel selected", variant := v.name, lanes := some v.lanes }

def rejected (v : Variant) : Entry :=
  { level := "WARN", message := "sine kernel is not supported on this build or CPU"
    variant := v.name, lanes := none }

end Entry

def Event.entry (event : Event) : Entry :=
  { level := event.level, message := event.message, variant := event.variant.name
    lanes := event.lanes? }

/-- The entry that a request for the kernel of a variant is due. -/
def Build.entryFor (b : Build) (v : Variant) : Entry :=
  if b.supports v then .selected v else .rejected v

namespace Engine

/-! ## Calls -/

/-- A request for a kernel, or for sines by the preferred one. -/
inductive Call where
  | make (variant : Variant)
  | sine (dst src : Slice)

def Call.variant? : Call → Option Variant
  | make v => some v
  | sine _ _ => none

def call (e : Engine) : Call → Engine
  | .make v => (e.make v).2
  | .sine dst src => (e.sine dst src).2

/-- The engine after a sequence of calls. -/
def afterCalls (e : Engine) (calls : List Call) : Engine := calls.foldl call e

def entries (e : Engine) : List Entry := e.log.map Event.entry

@[simp] theorem call_make (e : Engine) (v : Variant) : e.call (.make v) = (e.make v).2 := rfl

@[simp] theorem call_sine (e : Engine) (dst src : Slice) :
    e.call (.sine dst src) = (e.sine dst src).2 := rfl

@[simp] theorem afterCalls_nil (e : Engine) : e.afterCalls [] = e := rfl

@[simp] theorem afterCalls_cons (e : Engine) (c : Call) (calls : List Call) :
    e.afterCalls (c :: calls) = (e.call c).afterCalls calls := rfl

theorem afterCalls_append (e : Engine) (before after : List Call) :
    e.afterCalls (before ++ after) = (e.afterCalls before).afterCalls after := List.foldl_append

variable {e : Engine}

theorem settled_call (h : e.Settled) (c : Call) :
    (e.call c).Settled ∧ (e.call c).build = e.build := by
  cases c with
  | make v => exact ⟨(h.make v).1, (h.make v).2.1⟩
  | sine dst src =>
    obtain ⟨k, -, -, hsettled, hbuild, -⟩ := h.resolve
    exact ⟨hsettled, hbuild⟩

theorem settled_afterCalls (h : e.Settled) (calls : List Call) :
    (e.afterCalls calls).Settled ∧ (e.afterCalls calls).build = e.build := by
  induction calls generalizing e with
  | nil => exact ⟨h, rfl⟩
  | cons c calls ih =>
    obtain ⟨hsettled, hbuild⟩ := settled_call h c
    obtain ⟨hafter, hsame⟩ := ih hsettled
    exact ⟨hafter, hsame.trans hbuild⟩

/-! ## The log -/

theorem entries_make (e : Engine) (v : Variant) :
    (e.make v).2.entries = e.entries ++ [e.build.entryFor v] := by
  unfold Build.entryFor
  cases hsupports : e.build.supports v with
  | false =>
    rw [make_of_not_supports hsupports]
    simp [entries, report, Event.entry, Entry.rejected, Event.level, Event.message, Event.variant,
      Event.lanes?]
  | true =>
    obtain ⟨k, hk⟩ := Build.exists_kernel? hsupports
    rw [make_of_kernel hk]
    simp [entries, report, Event.entry, Entry.selected, Event.level, Event.message, Event.variant,
      Event.lanes?]

theorem sine_of_resolved {k : Kernel} (h : e.resolved = some k) (dst src : Slice) :
    (e.sine dst src).2 = e := by
  rw [sine_of_resolve (resolve_of_resolved h)]

theorem entries_sine_of_unresolved (h : e.resolved = none) (dst src : Slice) :
    (e.sine dst src).2.entries = e.entries ++ [.selected (e.build.best .unaligned)] ∧
      (e.sine dst src).2.resolved.isSome := by
  obtain ⟨k, hk⟩ := e.build.exists_kernel?_best .unaligned
  rw [sine_of_resolve (resolve_of_unresolved h hk)]
  simp [entries, report, Event.entry, Entry.selected, Event.level, Event.message, Event.variant,
    Event.lanes?]

/-- Calls of which none resolves a kernel log the requests for one, and leave what is resolved. -/
theorem entries_afterCalls (h : e.Settled) (calls : List Call)
    (hcalls : e.resolved.isSome ∨ ∀ c ∈ calls, c.variant?.isSome) :
    (e.afterCalls calls).entries =
        e.entries ++ (calls.filterMap Call.variant?).map e.build.entryFor ∧
      (e.afterCalls calls).resolved = e.resolved := by
  induction calls generalizing e with
  | nil => simp
  | cons c calls ih =>
    have hrest : e.resolved.isSome ∨ ∀ c ∈ calls, c.variant?.isSome :=
      hcalls.imp_right fun h c hc => h c (List.mem_cons_of_mem _ hc)
    cases c with
    | make v =>
      obtain ⟨hsettled, hbuild, hresolved⟩ := h.make v
      rw [← hresolved] at hrest
      obtain ⟨hentries, hkept⟩ := ih hsettled hrest
      rw [afterCalls_cons, call_make, hentries, hkept, entries_make, hbuild, hresolved]
      simp [Call.variant?]
    | sine dst src =>
      have hsome : e.resolved.isSome := hcalls.resolve_right fun h =>
        Bool.false_ne_true (h _ List.mem_cons_self)
      obtain ⟨k, hk⟩ := Option.isSome_iff_exists.1 hsome
      rw [afterCalls_cons, call_sine, sine_of_resolved hk]
      exact ih h hrest

end Engine

/-- The preferred variant for any address refuses nothing but a destination that is too short. -/
theorem Build.failure_execute_best (b : Build) (dst src : Slice) :
    (b.execute (b.best .unaligned) dst src).failure =
      if dst.count < src.count then some .shortDestination else none := by
  rcases b.requestAnswer (b.best .unaligned) dst src with
    ⟨-, h⟩ | ⟨h, -, hlen⟩ | ⟨-, -, -, -, hmod⟩ | ⟨h, -, hlen, -⟩
  · rw [b.supports_best] at h
    contradiction
  · rw [h, if_pos hlen]
  · rw [Variant.requiredAlignment_of_single _ (Or.inl b.best_unaligned)] at hmod
    exact hmod.elim (fun hne => absurd (src.address_mod_bytesPerNumber 0) hne)
      fun hne => absurd (dst.address_mod_bytesPerNumber 0) hne
  · rw [h, if_neg (Nat.not_lt.2 hlen)]

namespace Engine

/-- After any calls, a request for sines that names no kernel has the outcome of a fresh engine for
the preferred variant and fails only for a short destination; and the log is one entry for each
request for a kernel, and one for the preferred variant where the first request for sines came. -/
theorem calls_like_fresh (b : Build) (calls : List Call) :
    (∀ dst src,
      (((start b).afterCalls calls).sine dst src).1 =
        ((start b).execute (b.best .unaligned) dst src).1 ∧
      (((start b).afterCalls calls).sine dst src).1.failure =
        if dst.count < src.count then some .shortDestination else none) ∧
    ((∀ c ∈ calls, c.variant?.isSome) →
      ((start b).afterCalls calls).entries = (calls.filterMap Call.variant?).map b.entryFor) ∧
    (∀ before dst src after, calls = before ++ .sine dst src :: after →
      (∀ c ∈ before, c.variant?.isSome) →
      ((start b).afterCalls calls).entries =
        (before.filterMap Call.variant?).map b.entryFor ++
          .selected (b.best .unaligned) :: (after.filterMap Call.variant?).map b.entryFor) := by
  have hstart := settled_start b
  refine ⟨?_, ?_, ?_⟩
  · intro dst src
    obtain ⟨hsettled, hbuild⟩ := settled_afterCalls hstart calls
    have houtcome : (((start b).afterCalls calls).sine dst src).1 =
        b.execute (b.best .unaligned) dst src := by
      rw [hsettled.outcome_sine, hbuild]
      rfl
    rw [execute_eq_build, houtcome]
    exact ⟨rfl, b.failure_execute_best dst src⟩
  · intro hmakes
    rw [(entries_afterCalls hstart calls (Or.inr hmakes)).1]
    rfl
  · intro before dst src after hcalls hbefore
    subst hcalls
    obtain ⟨hsettled, hbuild⟩ := settled_afterCalls hstart before
    obtain ⟨hentries, hresolved⟩ := entries_afterCalls hstart before (Or.inr hbefore)
    obtain ⟨hfirst, hsome⟩ := entries_sine_of_unresolved hresolved dst src
    obtain ⟨hnext, hnextBuild⟩ := settled_call hsettled (.sine dst src)
    rw [afterCalls_append, afterCalls_cons, (entries_afterCalls hnext after (Or.inl hsome)).1,
      hnextBuild, hbuild, call_sine, hfirst, hentries, hbuild, List.append_assoc]
    rfl

/-- The first request for sines resolves a kernel although its destination is too short; the second
one logs nothing. -/
theorem calls_like_fresh_short_first :
    ((start .sseOnly).afterCalls
      [.make { isa := .neon, fused := true, alignment := .aligned },
        .sine (Buffer.whole { offset := 1, data := #[] })
          (Buffer.whole { offset := 0, data := #[Binary32.one] }),
        .make { isa := .avx2, fused := false, alignment := .unaligned },
        .sine (Buffer.whole { offset := 1, data := #[Binary32.zero] })
          (Buffer.whole { offset := 0, data := #[Binary32.one] })]).entries =
      [.rejected { isa := .neon, fused := true, alignment := .aligned },
        .selected { isa := .sse41, fused := true, alignment := .unaligned },
        .rejected { isa := .avx2, fused := false, alignment := .unaligned }] :=
  (calls_like_fresh .sseOnly _).2.2
    [.make { isa := .neon, fused := true, alignment := .aligned }] _ _
    [.make { isa := .avx2, fused := false, alignment := .unaligned },
      .sine (Buffer.whole { offset := 1, data := #[Binary32.zero] })
        (Buffer.whole { offset := 0, data := #[Binary32.one] })] rfl (by simp [Call.variant?])

end Engine

end VectorSine
