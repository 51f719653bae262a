import VectorSine.Engine.Basic

/-! # The resolved kernel

What making a kernel and resolving the preferred one do to an engine, each said once: what is
answered, what is logged, what is kept. Only two states occur, before and after the first
resolution; `Engine.Settled` holds of both and is kept by every request.

* `outcome_sine`: a settled engine serves requests that name no kernel like requests for the
  preferred variant.
-/

namespace VectorSine
set_option autoImplicit false

namespace Engine

variable {e : Engine} {v : Variant} {k : Kernel}

/-! ## Making -/

theorem make_of_kernel (h : e.build.kernel? v = some k) :
    e.make v = (.ok k, e.report (.selected v)) := by
  unfold make
  rw [h]

theorem make_of_not_supports (h : e.build.supports v = false) :
    e.make v = (.error (.unsupported v), e.report (.rejected v)) := by
  unfold make
  rw [Build.kernel?_of_not_supports h]

theorem execute_of_kernel (h : e.build.kernel? v = some k) (dst src : Slice) :
    e.execute v dst src = (k.execute dst src, e.report (.selected v)) := by
  unfold execute
  rw [make_of_kernel h]
  rfl

/-! ## Resolving -/

theorem resolve_of_resolved (h : e.resolved = some k) : e.resolve = (.ok k, e) := by
  unfold resolve
  rw [h]

theorem resolve_of_unresolved (h : e.resolved = none)
    (hk : e.build.kernel? (e.build.best .unaligned) = some k) :
    e.resolve = (.ok k,
      { e.report (.selected (e.build.best .unaligned)) with resolved := some k }) := by
  unfold resolve
  rw [h]
  simp only [make_of_kernel hk]

theorem sine_of_resolve {made : Engine} (h : e.resolve = (.ok k, made)) (dst src : Slice) :
    e.sine dst src = (k.execute dst src, made) := by
  unfold sine
  rw [h]
  rfl

/-- Once resolved, a kernel stays. -/
theorem resolve_resolve (h : e.resolve.1 = .ok k) : e.resolve.2.resolve.1 = .ok k := by
  cases hresolved : e.resolved with
  | some kept =>
    rw [resolve_of_resolved hresolved] at h ⊢
    rw [resolve_of_resolved hresolved]
    exact h
  | none =>
    obtain ⟨best, hbest⟩ := e.build.exists_kernel?_best .unaligned
    rw [resolve_of_unresolved hresolved hbest] at h ⊢
    rw [resolve_of_resolved rfl]
    exact h

/-! ## Settled engines -/

/-- Nothing is resolved yet, or the kernel of the preferred variant is. -/
def Settled (e : Engine) : Prop :=
  ∀ k, e.resolved = some k → e.build.kernel? (e.build.best .unaligned) = some k

theorem settled_start (b : Build) : (start b).Settled := by
  intro k h
  contradiction

theorem Settled.make (h : e.Settled) (v : Variant) :
    (e.make v).2.Settled ∧ (e.make v).2.build = e.build ∧
      (e.make v).2.resolved = e.resolved := by
  cases hsupports : e.build.supports v with
  | false =>
    rw [make_of_not_supports hsupports]
    exact ⟨h, rfl, rfl⟩
  | true =>
    obtain ⟨k, hk⟩ := Build.exists_kernel? hsupports
    rw [make_of_kernel hk]
    exact ⟨h, rfl, rfl⟩

theorem Settled.resolve (h : e.Settled) :
    ∃ k, e.build.kernel? (e.build.best .unaligned) = some k ∧ e.resolve.1 = .ok k ∧
      e.resolve.2.Settled ∧ e.resolve.2.build = e.build ∧ e.resolve.2.resolved = some k := by
  cases hresolved : e.resolved with
  | some k =>
    rw [resolve_of_resolved hresolved]
    exact ⟨k, h k hresolved, rfl, h, rfl, hresolved⟩
  | none =>
    obtain ⟨k, hk⟩ := e.build.exists_kernel?_best .unaligned
    rw [resolve_of_unresolved hresolved hk]
    refine ⟨k, hk, rfl, ?_, rfl, rfl⟩
    intro kept hkept
    cases hkept
    exact hk

/-- A request that names no kernel has the outcome of one for the preferred variant. -/
theorem Settled.outcome_sine (h : e.Settled) (dst src : Slice) :
    (e.sine dst src).1 = e.build.execute (e.build.best .unaligned) dst src := by
  obtain ⟨k, hk, hresolve, -⟩ := h.resolve
  unfold sine Build.execute
  rw [hresolve, hk]
  rfl

end Engine

end VectorSine
