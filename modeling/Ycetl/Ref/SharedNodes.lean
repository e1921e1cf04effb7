import Ycetl.Ref.SharedPtr

/-!
# Programs over counted nodes

A program makes nodes whose fields are owners, copies and assigns owners that
are found outside or in a field, and lets owners outside go. These calls are
those of both `shared_ptr` and `trivial_shared_ptr`, by the counter that they
share their objects with; each of the two classes has calls of its own besides.
A call that reads a field of a node that was deleted has no result, as before.
-/

namespace Ycetl.Ref.Shared

namespace Heap

variable {C : Type}

def addHandle (H : Heap C) (h : Handle) : Heap C := { H with handles := H.handles ++ [some h] }

/-- `shared_ptr(new T)`, of a node with this many empty fields, and its
counter. -/
def make (one : C) (H : Heap C) (fields : Nat) : Heap C :=
  { H with
    nodes := H.nodes ++ [⟨.alive, List.replicate fields .null⟩]
    counters := H.counters ++ [some one]
    handles := H.handles ++ [some ⟨some H.counters.length, some H.nodes.length⟩] }

/-- `shared_ptr(const shared_ptr &)`, as a new handle. -/
def copy (K : Counter C) (H : Heap C) (b : Loc) : Option (Heap C) := do
  let h ← H.load b
  let H ← H.acquire K h
  some (H.addHandle h)

/-- `shared_ptr(shared_ptr &&)`, as a new handle. -/
def moveConstruct (H : Heap C) (b : Loc) : Option (Heap C) := do
  let h ← H.load b
  (H.addHandle h).store b .null

/-- The end of a handle outside. -/
def destroy (K : Counter C) (fuel : Nat) (H : Heap C) (i : Nat) : Option (Heap C) := do
  let H ← release K (deleteNode K fuel) H (.handle i)
  some { H with handles := H.handles.set i none }

end Heap

/-- What a class of owners counts with, the counter of one owner, and the calls
that only it has. -/
structure Owner (C E : Type) where
  counter : Counter C
  one : C
  call : Nat → Heap C → E → Option (Heap C)

inductive NodeOp (E : Type) where
  | make (fields : Nat)
  | empty
  | copy (b : Loc)
  | assign (a b : Loc)
  | destroy (i : Nat)
  | own (e : E)
deriving Repr, DecidableEq

namespace Owner

variable {C E : Type}

/-- A call, with enough fuel for every node there is. -/
def step (W : Owner C E) (H : Heap C) : NodeOp E → Option (Heap C)
  | .make fields => some (H.make W.one fields)
  | .empty => some (H.addHandle .null)
  | .copy b => H.copy W.counter b
  | .assign a b => H.copyAssign W.counter (H.nodes.length + 1) a b
  | .destroy i => H.destroy W.counter (H.nodes.length + 1) i
  | .own e => W.call (H.nodes.length + 1) H e

end Owner

/-- The calls that only `shared_ptr` has. -/
inductive MoveOp where
  | construct (b : Loc)
  | assign (a b : Loc)
deriving Repr, DecidableEq

def sharedOwner : Owner ControlBlock MoveOp where
  counter := sharedCounter
  one := ⟨1, 1⟩
  call
    | _, H, .construct b => H.moveConstruct b
    | fuel, H, .assign a b => H.moveAssign fuel a b

/-- Of `trivial_shared_ptr`, `reset` of the owner at a place. -/
def trivialOwner : Owner Nat Loc where
  counter := trivialCounter
  one := 1
  call fuel H a := H.release trivialCounter (Heap.deleteNode trivialCounter fuel) a

end Ycetl.Ref.Shared
