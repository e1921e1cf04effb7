import Ycetl.Lib.Probes

/-!
# `hive`

A row of slots with a stack of the ones that are free. An insertion takes the
slot on top of the stack, or a new one behind the last; an erasure marks its
slot empty and pushes it. An iterator is the index of a slot, and it walks to
the next slot that is filled. The two arrays are the lists of their elements,
and a slot past the end is a call without a result.
-/

namespace Ycetl.Ref

open Ycetl.Lib

/-- What a call on a hive hands back. -/
inductive HiveOut (T : Type) where
  | done
  | elem (v : T)
  | iter (i : Nat)
deriving Repr, DecidableEq

namespace Hive

inductive SlotState where
  | empty
  | filled
deriving Repr, DecidableEq

structure Slot (T : Type) where
  state : SlotState
  value : T
deriving Repr, DecidableEq

end Hive

structure Hive (T : Type) where
  slots : List (Hive.Slot T)
  free : List Nat
  size : Nat
deriving Repr, DecidableEq

namespace Hive

variable {T : Type}

/-- `hive()`. -/
def empty : Hive T := ⟨[], [], 0⟩

def capacity (h : Hive T) : Nat := h.slots.length

def filledAt (h : Hive T) (i : Nat) : Bool :=
  match h.slots[i]? with
  | some s => s.state = .filled
  | none => false

/-- `iterator(this, i)`: the constructor advances to a filled slot. -/
def iterAt (h : Hive T) (i : Nat) : Nat := nextMarked h.filledAt h.capacity i

def begin (h : Hive T) : Nat := h.iterAt 0

def endIter (h : Hive T) : Nat := h.iterAt h.capacity

/-- The slots a range-for visits. -/
def stops (h : Hive T) : List Nat := sweep h.filledAt h.capacity h.begin

/-- What a range-for reads. -/
def iterate (h : Hive T) : List (Option T) :=
  h.stops.map fun i => (h.slots[i]?).map Slot.value

def reserve [Inhabited T] (h : Hive T) (n : Nat) : Hive T :=
  if h.slots.length < n then
    ⟨h.slots ++ List.replicate (n - h.slots.length) ⟨.empty, default⟩,
      h.free ++ List.range' h.slots.length (n - h.slots.length), h.size⟩
  else h

def clear (_ : Hive T) : Hive T := ⟨[], [], 0⟩

def insert (h : Hive T) (v : T) : Option (Hive T × Nat) :=
  if 0 < h.free.length then do
    let idx ← h.free[h.free.length - 1]?
    let _ ← h.slots[idx]?
    let h : Hive T := ⟨h.slots.set idx ⟨.filled, v⟩, h.free.dropLast, h.size + 1⟩
    some (h, h.iterAt idx)
  else
    let idx := h.slots.length
    let h : Hive T := ⟨h.slots ++ [⟨.filled, v⟩], h.free, h.size + 1⟩
    some (h, h.iterAt idx)

/-- `emplace` builds the value and inserts it. -/
def emplace (h : Hive T) (v : T) : Option (Hive T × Nat) := h.insert v

/-- `erase(pos)` and the iterator to the next element. -/
def erase (h : Hive T) (idx : Nat) : Option (Hive T × Nat) := do
  let s ← h.slots[idx]?
  let h : Hive T := ⟨h.slots.set idx { s with state := .empty }, h.free ++ [idx], h.size - 1⟩
  some (h, h.iterAt (idx + 1))

/-- The loop `while (it != end()) it = pred(*it) ? erase(it) : ++it`; it stops
without a result when it is given no more rounds. -/
def eraseIf (pred : T → Bool) : Nat → Hive T → Nat → Option (Hive T)
  | 0, _, _ => none
  | rounds + 1, h, it =>
      if it = h.endIter then some h
      else do
        let s ← h.slots[it]?
        if pred s.value then do
          let r ← h.erase it
          eraseIf pred rounds r.1 r.2
        else eraseIf pred rounds h (h.iterAt (it + 1))

inductive Call (T : Type) where
  | insert (v : T)
  | emplace (v : T)
  | erase (idx : Nat)
  | reserve (n : Nat)
  | clear
  | deref (idx : Nat)
  | assign (idx : Nat) (v : T)
  | incr (idx : Nat)
deriving Repr, DecidableEq

/-- The calls the interface allows: iterators to live elements. -/
def Call.Legal (h : Hive T) : Call T → Prop
  | .erase i | .deref i | .assign i _ | .incr i => h.filledAt i = true
  | .insert _ | .emplace _ | .reserve _ | .clear => True

instance (h : Hive T) (c : Call T) : Decidable (c.Legal h) := by
  cases c <;> unfold Call.Legal <;> infer_instance

def call [Inhabited T] (h : Hive T) : Call T → Option (Hive T × HiveOut T)
  | .insert v => (h.insert v).map fun r => (r.1, .iter r.2)
  | .emplace v => (h.emplace v).map fun r => (r.1, .iter r.2)
  | .erase i => (h.erase i).map fun r => (r.1, .iter r.2)
  | .reserve n => some (h.reserve n, .done)
  | .clear => some (h.clear, .done)
  | .deref i => (h.slots[i]?).map fun s => (h, .elem s.value)
  | .assign i v => (h.slots[i]?).map fun s =>
      ({ h with slots := h.slots.set i { s with value := v } }, .done)
  | .incr i => some (h, .iter (h.iterAt (i + 1)))

/-- A call that the interface allows, or none. -/
def step [Inhabited T] (h : Hive T) (c : Call T) : Option (Hive T × HiveOut T) :=
  if c.Legal h then h.call c else none

end Hive

end Ycetl.Ref
