import Ycetl.Lib.Records

/-!
# `shared_ptr`, `weak_ptr` and `trivial_shared_ptr`

A handle has two members, a pointer to what counts the owners and a pointer to
the object: `control_block_` and `ptr_` in `shared_ptr` and `weak_ptr`, `count`
and `ptr` in `trivial_shared_ptr`. Objects are nodes whose members that matter
are handles, so that a handle is found outside, or as a field of a node.

A node and what counts its owners are made together and have one number. The
`delete` of a node runs the destructors of its fields, last member first, and
each of them releases, which may delete again. The fields of a node can be
read and written until its destructor has ended. A read or a write of a field
of a node that was deleted, a decrement of zero, a use of a counter that was
deleted and a second `delete` are calls without a result. Counts are natural
numbers. The last two lists of the heap record what was deleted, in order.

The two classes of owners differ in what counts, and in what a release leaves
in the members. `Counter` has these differences, and `release` the rest.
-/

namespace Ycetl.Ref.Shared

open Ycetl.Lib

structure Handle where
  counter : Option Nat
  ptr : Option Nat
deriving Repr, DecidableEq

def Handle.null : Handle := ⟨none, none⟩

inductive Lifetime where
  | alive
  | dying
  | dead
deriving Repr, DecidableEq

structure Node where
  lifetime : Lifetime
  fields : List Handle
deriving Repr, DecidableEq

/-- Where a handle is. -/
inductive Loc where
  | handle (h : Nat)
  | field (n i : Nat)
deriving Repr, DecidableEq

/-- A handle outside that was destroyed leaves its number behind, and so does
a counter that was deleted. -/
structure Heap (C : Type) where
  nodes : List Node
  counters : List (Option C)
  handles : List (Option Handle)
  deleted : List Nat
  freed : List Nat
deriving Repr, DecidableEq

/-- What the classes of owners count with. -/
structure Counter (C : Type) where
  /-- The number of owners. -/
  strong : C → Nat
  inc : C → C
  dec : C → Option C
  /-- What is left of the counter after the object was deleted. -/
  dispose : C → Option (Option C)
  /-- The members after a release that leaves other owners. -/
  rest : Handle → Handle

/-- `_shared_ptr_control_block`. -/
structure ControlBlock where
  refCount : Nat
  weakCount : Nat
deriving Repr, DecidableEq

namespace ControlBlock

/-- `--ref_count_`. -/
def decRef (b : ControlBlock) : Option ControlBlock :=
  if b.refCount = 0 then none else some { b with refCount := b.refCount - 1 }

/-- `if (--weak_count_ == 0) delete control_block_;` -/
def decWeak (b : ControlBlock) : Option (Option ControlBlock) :=
  if b.weakCount = 0 then none
  else if b.weakCount - 1 = 0 then some none
  else some (some { b with weakCount := b.weakCount - 1 })

end ControlBlock

/-- `shared_ptr`: a release with owners left clears `control_block_` only. -/
def sharedCounter : Counter ControlBlock where
  strong := ControlBlock.refCount
  inc b := { b with refCount := b.refCount + 1 }
  dec := ControlBlock.decRef
  dispose := ControlBlock.decWeak
  rest h := { h with counter := none }

/-- `trivial_shared_ptr`: `reset` clears both members. -/
def trivialCounter : Counter Nat where
  strong := id
  inc n := n + 1
  dec n := if n = 0 then none else some (n - 1)
  dispose _ := some none
  rest _ := Handle.null

namespace Heap

variable {C : Type}

def empty : Heap C := ⟨[], [], [], [], []⟩

def counter? (H : Heap C) (c : Nat) : Option C := record? H.counters c

def lifetime? (H : Heap C) (n : Nat) : Option Lifetime := (H.nodes[n]?).map Node.lifetime

/-- The members of the handle at a place. -/
def load (H : Heap C) : Loc → Option Handle
  | .handle h => record? H.handles h
  | .field n i => do
      let x ← H.nodes[n]?
      if x.lifetime = .dead then none else x.fields[i]?

/-- A write to the members of the handle at a place. -/
def store (H : Heap C) (a : Loc) (v : Handle) : Option (Heap C) :=
  match a with
  | .handle h => do
      let _ ← record? H.handles h
      some { H with handles := H.handles.set h (some v) }
  | .field n i => do
      let x ← H.nodes[n]?
      if x.lifetime = .dead then none
      else if i < x.fields.length then
        some { H with nodes := H.nodes.set n { x with fields := x.fields.set i v } }
      else none

def setLifetime (H : Heap C) (n : Nat) (t : Lifetime) : Heap C :=
  { H with nodes := H.nodes.modify n fun x => { x with lifetime := t } }

/-- A new value of a counter. -/
def setCounter (H : Heap C) (c : Nat) (k : C) : Heap C :=
  { H with counters := H.counters.set c (some k) }

/-- What is left of a counter, if anything. -/
def putCounter (H : Heap C) (c : Nat) : Option C → Heap C
  | some k => H.setCounter c k
  | none => { H with counters := H.counters.set c none, freed := H.freed ++ [c] }

/-! ## Releasing -/

section

variable (K : Counter C)

/-- `delete ptr_;` -/
def deletePtr (delete : Heap C → Nat → Option (Heap C)) (H : Heap C) :
    Option Nat → Option (Heap C)
  | none => some H
  | some n => delete H n

/-- What a release does when no owner is left. The members are read again
after the `delete`. -/
def releaseLast (delete : Heap C → Nat → Option (Heap C)) (H : Heap C) (a : Loc)
    (p : Option Nat) : Option (Heap C) := do
  let H ← deletePtr delete H p
  let h ← H.load a
  let c ← h.counter
  let k ← H.counter? c
  let left ← K.dispose k
  (H.putCounter c left).store a .null

/-- `release_strong` of `shared_ptr`, `reset` of `trivial_shared_ptr`, and the
destructors of both. -/
def release (delete : Heap C → Nat → Option (Heap C)) (H : Heap C) (a : Loc) :
    Option (Heap C) := do
  let h ← H.load a
  match h.counter with
  | none => H.store a (K.rest h)
  | some c =>
      let k ← H.counter? c
      let k ← K.dec k
      let H := H.setCounter c k
      if K.strong k = 0 then releaseLast K delete H a h.ptr
      else H.store a (K.rest h)

/-- The destructors of the first `i` fields of a node, in reverse order. -/
def destroyFields (delete : Heap C → Nat → Option (Heap C)) (n : Nat) :
    Nat → Heap C → Option (Heap C)
  | 0, H => some H
  | i + 1, H => do
      let H ← release K delete H (.field n i)
      destroyFields delete n i H

/-- `delete` of a node, with fuel for the nodes that it may take with it. -/
def deleteNode : Nat → Heap C → Nat → Option (Heap C)
  | 0, _, _ => none
  | fuel + 1, H, n => do
      let x ← H.nodes[n]?
      if x.lifetime = .alive then
        let H ← destroyFields K (deleteNode fuel) n x.fields.length
          { H.setLifetime n .dying with deleted := H.deleted ++ [n] }
        some (H.setLifetime n .dead)
      else none

/-! ## Copying -/

/-- `if (control_block_) ++control_block_->ref_count_;` -/
def acquire (H : Heap C) (h : Handle) : Option (Heap C) :=
  match h.counter with
  | none => some H
  | some c => do
      let k ← H.counter? c
      some (H.setCounter c (K.inc k))

/-- `a = b`. -/
def copyAssign (fuel : Nat) (H : Heap C) (a b : Loc) : Option (Heap C) :=
  if a = b then some H
  else do
    let H ← release K (deleteNode K fuel) H a
    let h ← H.load b
    let H ← H.store a h
    acquire K H h

end

/-- `a = std::move(b)` of `shared_ptr`. -/
def moveAssign (fuel : Nat) (H : Heap ControlBlock) (a b : Loc) : Option (Heap ControlBlock) :=
  if a = b then some H
  else do
    let H ← release sharedCounter (deleteNode sharedCounter fuel) H a
    let h ← H.load b
    let H ← H.store a h
    H.store b .null

end Heap

/-! ## Weak handles, and programs over free-standing handles -/

/-- The heap, and the `weak_ptr`s. -/
structure World where
  heap : Heap ControlBlock
  weaks : List (Option Handle)
deriving Repr, DecidableEq

namespace World

def empty : World := ⟨.empty, []⟩

def strong? (w : World) (i : Nat) : Option Handle := record? w.heap.handles i

def weak? (w : World) (i : Nat) : Option Handle := record? w.weaks i

/-- Enough fuel for every node there is. -/
def fuel (w : World) : Nat := w.heap.nodes.length + 1

/-- A new owner. -/
def addStrong (w : World) (H : Heap ControlBlock) (h : Handle) : World :=
  { w with heap := { H with handles := H.handles ++ [some h] } }

/-- A new observer. -/
def addWeak (w : World) (H : Heap ControlBlock) (h : Handle) : World :=
  ⟨H, w.weaks ++ [some h]⟩

/-- `shared_ptr(new T)`, of an object that holds no handles. -/
def make (w : World) : World :=
  let n := w.heap.nodes.length
  w.addStrong
    { w.heap with
      nodes := w.heap.nodes ++ [⟨.alive, []⟩]
      counters := w.heap.counters ++ [some ⟨1, 1⟩] }
    ⟨some w.heap.counters.length, some n⟩

/-- `shared_ptr(const shared_ptr &)`. -/
def copy (w : World) (i : Nat) : Option World := do
  let h ← w.strong? i
  let H ← w.heap.acquire sharedCounter h
  some (w.addStrong H h)

/-- `shared_ptr(shared_ptr &&)`. -/
def move (w : World) (i : Nat) : Option World := do
  let h ← w.strong? i
  let H ← w.heap.store (.handle i) .null
  some (w.addStrong H h)

def assign (w : World) (i j : Nat) : Option World := do
  let H ← w.heap.copyAssign sharedCounter w.fuel (.handle i) (.handle j)
  some { w with heap := H }

def moveAssign (w : World) (i j : Nat) : Option World := do
  let H ← w.heap.moveAssign w.fuel (.handle i) (.handle j)
  some { w with heap := H }

/-- `~shared_ptr`. -/
def destroy (w : World) (i : Nat) : Option World := do
  let H ← w.heap.release sharedCounter (Heap.deleteNode sharedCounter w.fuel) (.handle i)
  some { w with heap := { H with handles := H.handles.set i none } }

/-- `if (control_block_) ++control_block_->weak_count_;` -/
def acquireWeak (H : Heap ControlBlock) (h : Handle) : Option (Heap ControlBlock) :=
  match h.counter with
  | none => some H
  | some c => do
      let b ← H.counter? c
      some (H.setCounter c { b with weakCount := b.weakCount + 1 })

/-- `release_weak`, which clears both members. -/
def releaseWeak (H : Heap ControlBlock) (h : Handle) : Option (Heap ControlBlock) :=
  match h.counter with
  | none => some H
  | some c => do
      let b ← H.counter? c
      let left ← b.decWeak
      some (H.putCounter c left)

def setWeak (w : World) (H : Heap ControlBlock) (i : Nat) (h : Option Handle) : World :=
  ⟨H, w.weaks.set i h⟩

/-- `weak_ptr(const shared_ptr &)`. -/
def weakOf (w : World) (i : Nat) : Option World := do
  let h ← w.strong? i
  let H ← acquireWeak w.heap h
  some (w.addWeak H h)

/-- `weak_ptr(const weak_ptr &)`. -/
def weakCopy (w : World) (i : Nat) : Option World := do
  let h ← w.weak? i
  let H ← acquireWeak w.heap h
  some (w.addWeak H h)

/-- `weak_ptr(weak_ptr &&)`. -/
def weakMove (w : World) (i : Nat) : Option World := do
  let h ← w.weak? i
  some ((w.setWeak w.heap i (some .null)).addWeak w.heap h)

/-- `release_weak` of an observer, as `reset`, its destructor and its
assignments begin. -/
def weakReset (w : World) (i : Nat) : Option World := do
  let h ← w.weak? i
  let H ← releaseWeak w.heap h
  some (w.setWeak H i (some .null))

/-- What the assignments of an observer do after the release. -/
def weakTake (w : World) (i : Nat) (h : Handle) : Option World := do
  let H ← acquireWeak w.heap h
  some (w.setWeak H i (some h))

def weakAssign (w : World) (i j : Nat) : Option World :=
  if i = j then some w
  else do
    let w ← w.weakReset i
    let h ← w.weak? j
    w.weakTake i h

def weakMoveAssign (w : World) (i j : Nat) : Option World :=
  if i = j then some w
  else do
    let w ← w.weakReset i
    let h ← w.weak? j
    some ((w.setWeak w.heap i (some h)).setWeak w.heap j (some .null))

/-- `operator=(const shared_ptr &)` of an observer. -/
def weakAssignShared (w : World) (i j : Nat) : Option World := do
  let w ← w.weakReset i
  let h ← w.strong? j
  w.weakTake i h

/-- `~weak_ptr`. -/
def weakDestroy (w : World) (i : Nat) : Option World := do
  let w ← w.weakReset i
  some (w.setWeak w.heap i none)

/-- `lock()`: the owner it returns becomes a new handle. -/
def lock (w : World) (i : Nat) : Option World := do
  let h ← w.weak? i
  match h.counter with
  | none => some (w.addStrong w.heap .null)
  | some c =>
      let b ← w.heap.counter? c
      if b.refCount = 0 then some (w.addStrong w.heap .null)
      else some (w.addStrong (w.heap.setCounter c { b with refCount := b.refCount + 1 }) h)

inductive Op where
  | make
  | empty
  | copy (i : Nat)
  | move (i : Nat)
  | assign (i j : Nat)
  | moveAssign (i j : Nat)
  | destroy (i : Nat)
  | weakEmpty
  | weakOf (i : Nat)
  | weakCopy (i : Nat)
  | weakMove (i : Nat)
  | weakAssign (i j : Nat)
  | weakMoveAssign (i j : Nat)
  | weakAssignShared (i j : Nat)
  | weakReset (i : Nat)
  | weakDestroy (i : Nat)
  | lock (i : Nat)
deriving Repr, DecidableEq

def step (w : World) : Op → Option World
  | .make => some w.make
  | .empty => some (w.addStrong w.heap .null)
  | .copy i => w.copy i
  | .move i => w.move i
  | .assign i j => w.assign i j
  | .moveAssign i j => w.moveAssign i j
  | .destroy i => w.destroy i
  | .weakEmpty => some (w.addWeak w.heap .null)
  | .weakOf i => w.weakOf i
  | .weakCopy i => w.weakCopy i
  | .weakMove i => w.weakMove i
  | .weakAssign i j => w.weakAssign i j
  | .weakMoveAssign i j => w.weakMoveAssign i j
  | .weakAssignShared i j => w.weakAssignShared i j
  | .weakReset i => w.weakReset i
  | .weakDestroy i => w.weakDestroy i
  | .lock i => w.lock i

/-- A call on handles that exist. -/
def Legal (w : World) : Op → Prop
  | .make | .empty | .weakEmpty => True
  | .copy i | .move i | .destroy i | .weakOf i => (w.strong? i).isSome = true
  | .assign i j | .moveAssign i j => (w.strong? i).isSome = true ∧ (w.strong? j).isSome = true
  | .weakCopy i | .weakMove i | .weakReset i | .weakDestroy i | .lock i =>
      (w.weak? i).isSome = true
  | .weakAssign i j | .weakMoveAssign i j =>
      (w.weak? i).isSome = true ∧ (w.weak? j).isSome = true
  | .weakAssignShared i j => (w.weak? i).isSome = true ∧ (w.strong? j).isSome = true

instance (w : World) : (op : Op) → Decidable (w.Legal op)
  | .make | .empty | .weakEmpty => isTrue trivial
  | .copy _ | .move _ | .destroy _ | .weakOf _ | .weakCopy _ | .weakMove _ | .weakReset _
  | .weakDestroy _ | .lock _ => inferInstanceAs (Decidable (_ = true))
  | .assign _ _ | .moveAssign _ _ | .weakAssign _ _ | .weakMoveAssign _ _
  | .weakAssignShared _ _ => inferInstanceAs (Decidable (_ ∧ _))

end World

end Ycetl.Ref.Shared
