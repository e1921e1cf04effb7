import Ycetl.Lib.Records

/-!
# `unique_ptr` in linked structures

The objects are nodes, numbered in the order in which they were made, and the
members of a node that matter are its `unique_ptr` fields. A `unique_ptr` is
found at a place: it is one of the handles outside, or a field of a node, and
its whole state is the pointer `_p`. `delete` of a node runs the destructors
of its fields, last member first, and each of them is a `reset`, which may
delete again. The numbers that were handed to `delete` are recorded in order.

A node that was deleted keeps its number, and its memory can still be read
and written. A `delete` of what is not alive is recorded, and does nothing
more.
-/

namespace Ycetl.Ref.UniquePtr

open Ycetl.Lib

structure Node where
  alive : Bool
  fields : List (Option Nat)
deriving Repr, DecidableEq

/-- Where a `unique_ptr` is. -/
inductive Loc where
  | handle (h : Nat)
  | field (n i : Nat)
deriving Repr, DecidableEq

/-- A handle that was destroyed leaves its number behind. -/
structure Objects where
  nodes : List Node
  handles : List (Option (Option Nat))
  deleted : List Nat
deriving Repr, DecidableEq

namespace Objects

def empty : Objects := ⟨[], [], []⟩

def alive (o : Objects) (n : Nat) : Bool := (o.nodes[n]?).any Node.alive

/-- The number of fields of a node that is alive. -/
def fieldCount (o : Objects) (n : Nat) : Nat :=
  match o.nodes[n]? with
  | none => 0
  | some x => if x.alive then x.fields.length else 0

/-- The places of the `unique_ptr`s that exist. -/
def locs (o : Objects) : List Loc :=
  (((List.range o.handles.length).filter fun h => (record? o.handles h).isSome).map
      Loc.handle) ++
    (List.range o.nodes.length).flatMap fun n =>
      (List.range (o.fieldCount n)).map (Loc.field n)

/-- `_p` of the `unique_ptr` at a place. -/
def load (o : Objects) : Loc → Option Nat
  | .handle h => (record? o.handles h).join
  | .field n i => ((o.nodes[n]?).bind fun x => x.fields[i]?).join

def setNode (o : Objects) (n : Nat) (f : Node → Node) : Objects :=
  match o.nodes[n]? with
  | none => o
  | some x => { o with nodes := o.nodes.set n (f x) }

/-- A write to `_p`. -/
def store (o : Objects) (a : Loc) (p : Option Nat) : Objects :=
  match a with
  | .handle h =>
      match record? o.handles h with
      | none => o
      | some _ => { o with handles := o.handles.set h (some p) }
  | .field n i => o.setNode n fun x => { x with fields := x.fields.set i p }

/-! ## `reset` and `delete` -/

/-- `reset(p)`: take ownership of `p` first, then delete the old object. -/
def resetWith (delete : Objects → Nat → Option Objects) (o : Objects) (a : Loc)
    (p : Option Nat) : Option Objects :=
  let old := o.load a
  let o := o.store a p
  match old with
  | none => some o
  | some n => delete o n

/-- The destructors of the first `i` fields of a node, in reverse order. -/
def destroyFields (delete : Objects → Nat → Option Objects) (n : Nat) :
    Nat → Objects → Option Objects
  | 0, o => some o
  | i + 1, o => do
      let o ← resetWith delete o (.field n i) none
      destroyFields delete n i o

/-- `delete` of a node, with fuel for the nodes that it may take with it. The
lifetime of a node ends with the call of its destructor. -/
def deleteNode : Nat → Objects → Nat → Option Objects
  | 0, _, _ => none
  | fuel + 1, o, n =>
      let o := { o with deleted := o.deleted ++ [n] }
      if o.alive n then
        destroyFields (deleteNode fuel) n (o.fieldCount n)
          (o.setNode n fun x => { x with alive := false })
      else some o

def delete (o : Objects) (n : Nat) : Option Objects := deleteNode (o.nodes.length + 1) o n

def reset (o : Objects) (a : Loc) (p : Option Nat) : Option Objects := resetWith delete o a p

/-! ## The members -/

/-- `make_unique` of a node with this many null fields. -/
def makeUnique (o : Objects) (fields : Nat) : Objects :=
  { o with
    nodes := o.nodes ++ [⟨true, List.replicate fields none⟩]
    handles := o.handles ++ [some (some o.nodes.length)] }

/-- `unique_ptr(unique_ptr &&o)`, as a new handle. -/
def moveConstruct (o : Objects) (b : Loc) : Objects :=
  let p := o.load b
  store { o with handles := o.handles ++ [some p] } b none

/-- `a = std::move(b)`. -/
def moveAssign (o : Objects) (a b : Loc) : Option Objects :=
  if a = b then some o
  else do
    let o ← o.reset a (o.load b)
    pure (o.store b none)

def release (o : Objects) (a : Loc) : Objects := o.store a none

def swap (o : Objects) (a b : Loc) : Objects :=
  let tmp := o.load a
  let o := o.store a (o.load b)
  o.store b tmp

/-- The end of a handle outside. -/
def destroy (o : Objects) (h : Nat) : Option Objects := do
  let o ← o.reset (.handle h) none
  pure { o with handles := o.handles.set h none }

inductive Op where
  | makeUnique (fields : Nat)
  | moveConstruct (b : Loc)
  | moveAssign (a b : Loc)
  | assignNull (a : Loc)
  | reset (a : Loc)
  | resetTo (a : Loc) (p : Nat)
  | release (a : Loc)
  | swap (a b : Loc)
  | destroy (h : Nat)
deriving Repr, DecidableEq

def step (o : Objects) : Op → Option Objects
  | .makeUnique fields => some (o.makeUnique fields)
  | .moveConstruct b => some (o.moveConstruct b)
  | .moveAssign a b => o.moveAssign a b
  | .assignNull a | .reset a => o.reset a none
  | .resetTo a p => o.reset a (some p)
  | .release a => some (o.release a)
  | .swap a b => some (o.swap a b)
  | .destroy h => o.destroy h

/-- A call on `unique_ptr`s that exist; `reset(p)` takes a live object that
none of them holds. -/
def Legal (o : Objects) : Op → Prop
  | .makeUnique _ => True
  | .moveConstruct a | .assignNull a | .reset a | .release a => a ∈ o.locs
  | .moveAssign a b | .swap a b => a ∈ o.locs ∧ b ∈ o.locs
  | .resetTo a p => a ∈ o.locs ∧ o.alive p = true ∧ ∀ c ∈ o.locs, o.load c ≠ some p
  | .destroy h => .handle h ∈ o.locs

instance (o : Objects) : (op : Op) → Decidable (o.Legal op)
  | .makeUnique _ => isTrue trivial
  | .moveConstruct a | .assignNull a | .reset a | .release a =>
      inferInstanceAs (Decidable (a ∈ o.locs))
  | .moveAssign _ _ | .swap _ _ | .resetTo _ _ => inferInstanceAs (Decidable (_ ∧ _))
  | .destroy h => inferInstanceAs (Decidable (Loc.handle h ∈ o.locs))

end Objects

end Ycetl.Ref.UniquePtr
