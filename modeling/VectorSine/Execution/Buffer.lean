import VectorSine.Packed.Register
import VectorSine.Variant.Basic

/-! # Buffers and slices

A buffer is an array of numbers at an address, a slice some consecutive numbers of a buffer.
Addresses count bytes from a 64 byte boundary, so whether one is a multiple of a vector's bytes can
be told. Positions in a slice count from its own start.

Vector loads and stores answer with nothing where they would touch a number outside the slice, or
where they ask for an address that is a multiple of the register's bytes and do not have one.

* `writeFrom_getElem?_inside` and `writeFrom_getElem?_outside`: a write changes the numbers that it
  covers and no others.
* `load?_isSome_iff` and `store?_isSome_iff`: exactly when an access succeeds.
* `get?_of_load?` and `store?_eq_some`: what it gives and what it leaves then.
-/

namespace VectorSine
set_option autoImplicit false

structure Buffer where
  /-- The numbers that fit between a 64 byte boundary and the start. -/
  offset : Nat
  data : Array Binary32
deriving DecidableEq

/-- Consecutive numbers of a buffer. -/
structure Slice where
  buffer : Buffer
  first : Nat
  count : Nat
  inside : first + count ≤ buffer.data.size

namespace Buffer

def whole (b : Buffer) : Slice :=
  { buffer := b, first := 0, count := b.data.size, inside := by omega }

/-- The numbers from `i` up to, not including, `j`. -/
def slice? (b : Buffer) (i j : Nat) : Option Slice :=
  if h : i ≤ j ∧ j ≤ b.data.size then
    some { buffer := b, first := i, count := j - i, inside := by omega }
  else none

end Buffer

/-! ## Consecutive writes -/

/-- The array with a list written into it from a position on. -/
def writeFrom (a : Array Binary32) (position : Nat) : List Binary32 → Array Binary32
  | [] => a
  | x :: xs => writeFrom (a.setIfInBounds position x) (position + 1) xs

@[simp] theorem writeFrom_size (a : Array Binary32) (position : Nat) (xs : List Binary32) :
    (writeFrom a position xs).size = a.size := by
  induction xs generalizing a position with
  | nil => rfl
  | cons x xs ih => rw [writeFrom, ih, Array.size_setIfInBounds]

theorem writeFrom_getElem?_outside (a : Array Binary32) (position i : Nat) (xs : List Binary32)
    (h : i < position ∨ position + xs.length ≤ i) :
    (writeFrom a position xs)[i]? = a[i]? := by
  induction xs generalizing a position with
  | nil => rfl
  | cons x xs ih =>
    rw [List.length_cons] at h
    rw [writeFrom, ih _ _ (by omega), Array.getElem?_setIfInBounds_ne (by omega)]

theorem writeFrom_getElem?_inside (a : Array Binary32) (position i : Nat) (xs : List Binary32)
    (hi : i < xs.length) (hsize : position + i < a.size) :
    (writeFrom a position xs)[position + i]? = xs[i]? := by
  induction xs generalizing a position i with
  | nil => simp at hi
  | cons x xs ih =>
    cases i with
    | zero =>
      rw [writeFrom, writeFrom_getElem?_outside _ _ _ _ (by omega)]
      rw [Nat.add_zero, Array.getElem?_setIfInBounds_self_of_lt (by omega)]
      rfl
    | succ i =>
      rw [writeFrom, show position + (i + 1) = position + 1 + i by omega]
      rw [ih _ _ _ (by simpa using hi) (by simp; omega)]
      rfl

namespace Slice

/-- The bytes from the boundary to a position. -/
def address (s : Slice) (i : Nat) : Nat := bytesPerNumber * (s.buffer.offset + s.first + i)

def get (s : Slice) (i : Nat) (h : i < s.count) : Binary32 :=
  have hinside : s.first + i < s.buffer.data.size := by have := s.inside; omega
  s.buffer.data[s.first + i]

def take? (s : Slice) (n : Nat) : Option Slice :=
  if h : n ≤ s.count then
    some { buffer := s.buffer, first := s.first, count := n, inside := by have := s.inside; omega }
  else none

def write (s : Slice) (i : Nat) (xs : List Binary32) : Slice where
  buffer := { offset := s.buffer.offset, data := writeFrom s.buffer.data (s.first + i) xs }
  first := s.first
  count := s.count
  inside := by rw [writeFrom_size]; exact s.inside

@[simp] theorem write_first (s : Slice) (i : Nat) (xs : List Binary32) :
    (s.write i xs).first = s.first := rfl

@[simp] theorem write_count (s : Slice) (i : Nat) (xs : List Binary32) :
    (s.write i xs).count = s.count := rfl

@[simp] theorem write_address (s : Slice) (i j : Nat) (xs : List Binary32) :
    (s.write i xs).address j = s.address j := rfl

@[simp] theorem write_size (s : Slice) (i : Nat) (xs : List Binary32) :
    (s.write i xs).buffer.data.size = s.buffer.data.size := writeFrom_size _ _ _

theorem write_getElem?_inside (s : Slice) (i k : Nat) (xs : List Binary32) (hk : k < xs.length)
    (hcount : i + xs.length ≤ s.count) :
    (s.write i xs).buffer.data[s.first + (i + k)]? = xs[k]? := by
  have hinside := s.inside
  change (writeFrom s.buffer.data (s.first + i) xs)[s.first + (i + k)]? = xs[k]?
  rw [← Nat.add_assoc, writeFrom_getElem?_inside _ _ _ _ hk (by omega)]

/-! ## Single numbers -/

def get? (s : Slice) (i : Nat) : Option Binary32 :=
  if h : i < s.count then some (s.get i h) else none

def set? (s : Slice) (i : Nat) (x : Binary32) : Option Slice :=
  if i < s.count then some (s.write i [x]) else none

/-! ## Registers -/

/-- Whether `w` numbers from a position on are inside the slice, and start at a multiple of their
bytes if that is asked for. -/
def admits (s : Slice) (w : Nat) (aligned : Bool) (i : Nat) : Prop :=
  i + w ≤ s.count ∧ (aligned = true → s.address i % (w * bytesPerNumber) = 0)

instance (s : Slice) (w : Nat) (aligned : Bool) (i : Nat) : Decidable (s.admits w aligned i) :=
  inferInstanceAs (Decidable (_ ∧ _))

def load? (s : Slice) (w : Nat) (aligned : Bool) (i : Nat) : Option (Register w) :=
  if h : s.admits w aligned i then
    some (Vector.ofFn fun k => s.get (i + k) (by have := h.1; omega))
  else none

def store? {w : Nat} (s : Slice) (aligned : Bool) (i : Nat) (r : Register w) : Option Slice :=
  if s.admits w aligned i then some (s.write i r.toList) else none

theorem get?_eq_some {s : Slice} {i : Nat} {x : Binary32} (h : s.get? i = some x) :
    ∃ hi : i < s.count, s.get i hi = x := by
  unfold get? at h
  split at h
  · next hi => exact ⟨hi, Option.some.inj h⟩
  · contradiction

theorem set?_eq_some {s s' : Slice} {i : Nat} {x : Binary32} (h : s.set? i x = some s') :
    i < s.count ∧ s' = s.write i [x] := by
  unfold set? at h
  split at h
  · next hi => exact ⟨hi, (Option.some.inj h).symm⟩
  · contradiction

/-- A load takes the numbers in their order. -/
theorem get?_of_load? {s : Slice} {w i : Nat} {aligned : Bool} {r : Register w}
    (h : s.load? w aligned i = some r) (k : Nat) (hk : k < w) : s.get? (i + k) = some r[k] := by
  unfold load? at h
  split at h
  · next hadmits =>
    cases h
    have hinside : i + k < s.count := by have := hadmits.1; omega
    rw [get?, dif_pos hinside, Vector.getElem_ofFn]
  · contradiction

theorem store?_eq_some {s s' : Slice} {w i : Nat} {aligned : Bool} {r : Register w}
    (h : s.store? aligned i r = some s') : i + w ≤ s.count ∧ s' = s.write i r.toList := by
  unfold store? at h
  split at h
  · next hadmits => exact ⟨hadmits.1, (Option.some.inj h).symm⟩
  · contradiction

theorem load?_isSome_iff (s : Slice) (w : Nat) (aligned : Bool) (i : Nat) :
    (s.load? w aligned i).isSome ↔ s.admits w aligned i := by
  unfold load?
  split <;> simp_all

theorem store?_isSome_iff {w : Nat} (s : Slice) (aligned : Bool) (i : Nat) (r : Register w) :
    (s.store? aligned i r).isSome ↔ s.admits w aligned i := by
  unfold store?
  split <;> simp_all

end Slice

end VectorSine
