import Std.Data.TreeMap
import VectorSine.Engine.Basic

/-! # Sessions

A session is an engine together with buffers and kernels that have names. Its steps create buffers,
make kernels and run them from one buffer to another, on the whole of each or on a range. A step
that fails changes nothing but the log.
-/

namespace VectorSine
set_option autoImplicit false

structure Session where
  engine : Engine
  buffers : Std.TreeMap String Buffer
  kernels : Std.TreeMap String Kernel

namespace Session

/-- The numbers of a buffer from `first` up to, not including, `stop`. -/
structure Range where
  first : Nat
  stop : Nat

inductive Step where
  | buffer (name : String) (content : Buffer)
  | make (name : String) (variant : Variant)
  | run (kernel : Option String) (src dst : String) (srcRange dstRange : Option Range)

inductive Reply where
  | created
  /-- The kernel was made or refused, and what was logged. -/
  | made (failure : Option ExecutionError) (events : List Event)
  /-- The kernel ran or refused, and the destination's buffer. -/
  | ran (failure : Option ExecutionError) (dst : Buffer)
  /-- No kernel has the name; the destination's buffer. -/
  | noKernel (dst : Buffer)
  /-- The session has no such buffers or ranges, or the two buffers are one. -/
  | refused

def start (b : Build) : Session := { engine := .start b, buffers := ∅, kernels := ∅ }

/-- The part of a buffer in a range, all of it without one. -/
def slice? (b : Buffer) : Option Range → Option Slice
  | none => some b.whole
  | some r => b.slice? r.first r.stop

/-- The slices that a run reads from and writes to, in different buffers. -/
def slices? (s : Session) (src dst : String) (srcRange dstRange : Option Range) :
    Option (Slice × Slice) := do
  if src = dst then none
  let source ← slice? (← s.buffers[src]?) srcRange
  let target ← slice? (← s.buffers[dst]?) dstRange
  return (source, target)

def make (s : Session) (name : String) (v : Variant) : Reply × Session :=
  match s.engine.make v with
  | (.ok k, e) =>
    (.made none (e.eventsSince s.engine),
      { s with engine := e, kernels := s.kernels.insert name k })
  | (.error error, e) =>
    (.made (some error) (e.eventsSince s.engine), { s with engine := e })

/-- The outcome of the named kernel, or of the preferred one, on two slices. -/
def execute? (s : Session) (kernel : Option String) (target source : Slice) :
    Option (Outcome × Engine) :=
  match kernel with
  | none => some (s.engine.sine target source)
  | some name => s.kernels[name]?.map fun k => (k.execute target source, s.engine)

def run (s : Session) (kernel : Option String) (src dst : String)
    (srcRange dstRange : Option Range) : Reply × Session :=
  match s.slices? src dst srcRange dstRange with
  | none => (.refused, s)
  | some (source, target) =>
    match s.execute? kernel target source with
    | none => (.noKernel target.buffer, s)
    | some (outcome, e) =>
      (.ran outcome.failure outcome.dst,
        { s with engine := e, buffers := s.buffers.insert dst outcome.dst })

def step (s : Session) : Step → Reply × Session
  | .buffer name content => (.created, { s with buffers := s.buffers.insert name content })
  | .make name v => s.make name v
  | .run kernel src dst srcRange dstRange => s.run kernel src dst srcRange dstRange

def after (s : Session) : List Step → Session
  | [] => s
  | x :: xs => (s.step x).2.after xs

def replies (s : Session) : List Step → List Reply
  | [] => []
  | x :: xs => (s.step x).1 :: (s.step x).2.replies xs

end Session

end VectorSine
