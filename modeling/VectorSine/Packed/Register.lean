import VectorSine.Binary32.Conversion

/-! # Vector registers

A register holds one binary32 number in each of its `w` lanes, a word register one 32 bit word.
Every operation works on the lanes one by one; the lemmas say which lane holds what.

Choices are made by masks: a comparison answers with a word register that has all ones in the lanes
where it holds and zeros in the others.
-/

namespace VectorSine
set_option autoImplicit false

/-- One binary32 number in each lane. -/
abbrev Register (w : Nat) : Type := Vector Binary32 w

/-- One word in each lane. -/
abbrev WordRegister (w : Nat) : Type := Vector (BitVec 32) w

/-- All ones or zeros, as a comparison answers in one lane. -/
def laneMask (condition : Bool) : BitVec 32 := if condition then BitVec.allOnes 32 else 0

namespace Register

variable {w : Nat}

/-! ## Arithmetic -/

def broadcast (w : Nat) (x : Binary32) : Register w := Vector.replicate w x

def add (a b : Register w) : Register w := a.zipWith (fun x y => x + y) b

def sub (a b : Register w) : Register w := a.zipWith (fun x y => x - y) b

def mul (a b : Register w) : Register w := a.zipWith (fun x y => x * y) b

def divNat (a : Register w) (d : Nat) : Register w := a.map (fun x => x.divNat d)

def sqrt (a : Register w) : Register w := a.map Binary32.sqrt

def floor (a : Register w) : Register w := a.map Binary32.floor

def mulAdd (fused : Bool) (acc a b : Register w) : Register w :=
  if fused then Vector.ofFn fun i => Binary32.fusedMulAdd a[i] b[i] acc[i]
  else add (mul a b) acc

def mulSub (fused : Bool) (acc a b : Register w) : Register w :=
  if fused then Vector.ofFn fun i => Binary32.fusedMulAdd a[i] b[i] (-acc[i])
  else sub (mul a b) acc

def negMulAdd (fused : Bool) (acc a b : Register w) : Register w :=
  if fused then Vector.ofFn fun i => Binary32.fusedMulAdd (-a[i]) b[i] acc[i]
  else sub acc (mul a b)

/-! ## Masks and words -/

/-- All ones in the lanes where the first number is the smaller. -/
def ltMask (a b : Register w) : WordRegister w := a.zipWith (fun x y => laneMask (x.lt y)) b

/-- The bits of the numbers where the mask has ones. -/
def masked (a : Register w) (mask : WordRegister w) : Register w :=
  a.zipWith (fun x m => x.masked m) mask

/-- The nearest integers, indefinite ones where there is none. -/
def toWords (a : Register w) : WordRegister w := a.map Binary32.nearestInt32

def ofWords (q : WordRegister w) : Register w := q.map Binary32.ofInt32

end Register

namespace WordRegister

variable {w : Nat}

def broadcast (w : Nat) (x : BitVec 32) : WordRegister w := Vector.replicate w x

def add (a b : WordRegister w) : WordRegister w := a.zipWith (fun x y => x + y) b

def and (a b : WordRegister w) : WordRegister w := a.zipWith (fun x y => x &&& y) b

def xor (a b : WordRegister w) : WordRegister w := a.zipWith (fun x y => x ^^^ y) b

/-- All ones in the lanes where the words are equal. -/
def eqMask (a b : WordRegister w) : WordRegister w := a.zipWith (fun x y => laneMask (x == y)) b

end WordRegister

/-! ## Lanes of the results -/

namespace Register

variable {w : Nat}

@[simp] theorem getElem_broadcast (x : Binary32) (i : Nat) (h : i < w) :
    (broadcast w x)[i] = x := by simp [broadcast]

@[simp] theorem getElem_add (a b : Register w) (i : Nat) (h : i < w) :
    (add a b)[i] = a[i] + b[i] := by simp [add]

@[simp] theorem getElem_sub (a b : Register w) (i : Nat) (h : i < w) :
    (sub a b)[i] = a[i] - b[i] := by simp [sub]

@[simp] theorem getElem_mul (a b : Register w) (i : Nat) (h : i < w) :
    (mul a b)[i] = a[i] * b[i] := by simp [mul]

@[simp] theorem getElem_divNat (a : Register w) (d i : Nat) (h : i < w) :
    (divNat a d)[i] = a[i].divNat d := by simp [divNat]

@[simp] theorem getElem_sqrt (a : Register w) (i : Nat) (h : i < w) :
    (sqrt a)[i] = a[i].sqrt := by simp [sqrt]

@[simp] theorem getElem_floor (a : Register w) (i : Nat) (h : i < w) :
    (floor a)[i] = a[i].floor := by simp [floor]

@[simp] theorem getElem_mulAdd (fused : Bool) (acc a b : Register w) (i : Nat) (h : i < w) :
    (mulAdd fused acc a b)[i] =
      if fused then Binary32.fusedMulAdd a[i] b[i] acc[i] else a[i] * b[i] + acc[i] := by
  cases fused <;> simp [mulAdd]

@[simp] theorem getElem_mulSub (fused : Bool) (acc a b : Register w) (i : Nat) (h : i < w) :
    (mulSub fused acc a b)[i] =
      if fused then Binary32.fusedMulAdd a[i] b[i] (-acc[i]) else a[i] * b[i] - acc[i] := by
  cases fused <;> simp [mulSub]

@[simp] theorem getElem_negMulAdd (fused : Bool) (acc a b : Register w) (i : Nat) (h : i < w) :
    (negMulAdd fused acc a b)[i] =
      if fused then Binary32.fusedMulAdd (-a[i]) b[i] acc[i] else acc[i] - a[i] * b[i] := by
  cases fused <;> simp [negMulAdd]

@[simp] theorem getElem_ltMask (a b : Register w) (i : Nat) (h : i < w) :
    (ltMask a b)[i] = laneMask (a[i].lt b[i]) := by simp [ltMask]

@[simp] theorem getElem_masked (a : Register w) (mask : WordRegister w) (i : Nat) (h : i < w) :
    (masked a mask)[i] = a[i].masked mask[i] := by simp [masked]

@[simp] theorem getElem_toWords (a : Register w) (i : Nat) (h : i < w) :
    (toWords a)[i] = a[i].nearestInt32 := by simp [toWords]

@[simp] theorem getElem_ofWords (q : WordRegister w) (i : Nat) (h : i < w) :
    (ofWords q)[i] = Binary32.ofInt32 q[i] := by simp [ofWords]

end Register

namespace WordRegister

variable {w : Nat}

@[simp] theorem getElem_broadcast_word (x : BitVec 32) (i : Nat) (h : i < w) :
    (broadcast w x)[i] = x := by simp [broadcast]

@[simp] theorem getElem_add_word (a b : WordRegister w) (i : Nat) (h : i < w) :
    (add a b)[i] = a[i] + b[i] := by simp [add]

@[simp] theorem getElem_and_word (a b : WordRegister w) (i : Nat) (h : i < w) :
    (and a b)[i] = a[i] &&& b[i] := by simp [and]

@[simp] theorem getElem_xor_word (a b : WordRegister w) (i : Nat) (h : i < w) :
    (xor a b)[i] = a[i] ^^^ b[i] := by simp [xor]

@[simp] theorem getElem_eqMask (a b : WordRegister w) (i : Nat) (h : i < w) :
    (eqMask a b)[i] = laneMask (a[i] == b[i]) := by simp [eqMask]

end WordRegister

end VectorSine
