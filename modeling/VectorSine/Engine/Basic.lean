import VectorSine.Engine.Event
import VectorSine.Execution.Selection

/-! # Engines

An engine runs one build. It makes kernels of the variants it is asked for and logs every request.
A request for sines that names no kernel is served by the preferred variant for any address; that
kernel is made, and logged, at the first such request and kept from then on.
-/

namespace VectorSine
set_option autoImplicit false

/-- The state of a running program. -/
structure Engine where
  build : Build
  /-- The kernel for requests that name none, once there has been one. -/
  resolved : Option Kernel
  /-- What was reported, the earliest first. -/
  log : List Event

namespace Engine

def start (b : Build) : Engine := { build := b, resolved := none, log := [] }

def report (e : Engine) (event : Event) : Engine := { e with log := e.log ++ [event] }

/-- The events that were reported after an earlier state of the engine. -/
def eventsSince (e earlier : Engine) : List Event := e.log.drop earlier.log.length

/-- A kernel of a variant, or the error that it is not supported. -/
def make (e : Engine) (v : Variant) : Except ExecutionError Kernel × Engine :=
  match e.build.kernel? v with
  | some k => (.ok k, e.report (.selected v))
  | none => (.error (.unsupported v), e.report (.rejected v))

/-- The kernel for requests that name none. -/
def resolve (e : Engine) : Except ExecutionError Kernel × Engine :=
  match e.resolved with
  | some k => (.ok k, e)
  | none =>
    match e.make (e.build.best .unaligned) with
    | (.ok k, made) => (.ok k, { made with resolved := some k })
    | (.error error, made) => (.error error, made)

/-- What an execution leaves behind, if its kernel could be had. -/
def outcomeOf (kernel : Except ExecutionError Kernel) (dst src : Slice) : Outcome :=
  match kernel with
  | .ok k => k.execute dst src
  | .error error => { failure := some error, dst := dst.buffer }

/-- The sines of a slice by a kernel that is made for them. -/
def execute (e : Engine) (v : Variant) (dst src : Slice) : Outcome × Engine :=
  (outcomeOf (e.make v).1 dst src, (e.make v).2)

/-- The sines of a slice by the preferred kernel. -/
def sine (e : Engine) (dst src : Slice) : Outcome × Engine :=
  (outcomeOf e.resolve.1 dst src, e.resolve.2)

theorem execute_eq_build (e : Engine) (v : Variant) (dst src : Slice) :
    (e.execute v dst src).1 = e.build.execute v dst src := by
  unfold execute make outcomeOf Build.execute
  cases e.build.kernel? v <;> rfl

@[simp] theorem eventsSince_report (e : Engine) (event : Event) :
    (e.report event).eventsSince e = [event] := by
  simp [eventsSince, report]

@[simp] theorem eventsSince_self (e : Engine) : e.eventsSince e = [] := by
  simp [eventsSince]

end Engine

end VectorSine
