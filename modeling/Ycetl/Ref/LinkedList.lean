import Ycetl.Lib.Chains

/-!
# `list` and `forward_list`

A list is a header, and its nodes are records of a heap that only its own
pointers lead to. The heap numbers its nodes in the order of the `new`s and
keeps the place of a node that was deleted, so a pointer to a dead node leads
nowhere, and a function that follows one has no result. A walk over the nodes
carries the number of records as its fuel.

The overloads of `push_back` and `push_front` hand their argument to
`emplace_back` and `emplace_front` and differ in nothing else. An iterator is
the number of a node, and `end()` is none.
-/

namespace Ycetl.Ref

open Ycetl.Lib

/-- What a call on a list hands back. -/
inductive ListOut (T : Type) where
  | done
  | elem (v : T)
  | iter (p : Option Nat)
deriving Repr, DecidableEq

/-! ## `list` -/

namespace LinkedList

structure Node (T : Type) where
  value : T
  prev : Option Nat
  next : Option Nat
deriving Repr, DecidableEq

structure Header where
  head : Option Nat
  tail : Option Nat
  size : Nat
deriving Repr, DecidableEq

/-- A list without nodes. -/
def Header.none : Header := ⟨Option.none, Option.none, 0⟩

variable {T : Type}

abbrev Heap (T : Type) : Type := List (Option (Node T))

def Node.setNext (q : Option Nat) (n : Node T) : Node T := { n with next := q }

def Node.setPrev (q : Option Nat) (n : Node T) : Node T := { n with prev := q }

def Node.setValue (v : T) (n : Node T) : Node T := { n with value := v }

/-- `prev ? prev->next : _head`. -/
def nextOf (H : Heap T) (l : Header) : Option Nat → Option (Option Nat)
  | some p => (record? H p).map Node.next
  | none => some l.head

/-- `pos ? pos->prev : _tail`, which is also where `--pos` goes. -/
def prevOf (H : Heap T) (l : Header) : Option Nat → Option (Option Nat)
  | some p => (record? H p).map Node.prev
  | none => some l.tail

def linkAfter (H : Heap T) (l : Header) (prev : Option Nat) (fresh : Nat) :
    Option (Heap T × Header) := do
  let next ← nextOf H l prev
  let H ← updateNode H fresh fun n => (n.setPrev prev).setNext next
  let H ← updateIf H prev (Node.setNext (some fresh))
  let head := if prev.isSome then l.head else some fresh
  let H ← updateIf H next (Node.setPrev (some fresh))
  let tail := if next.isSome then l.tail else some fresh
  some (H, ⟨head, tail, l.size⟩)

def unlink (H : Heap T) (l : Header) (n : Nat) : Option (Heap T × Header) := do
  let x ← record? H n
  let H ← updateIf H x.prev (Node.setNext x.next)
  let head := if x.prev.isSome then l.head else x.next
  let x ← record? H n
  let H ← updateIf H x.next (Node.setPrev x.prev)
  let tail := if x.next.isSome then l.tail else x.prev
  some (H, ⟨head, tail, l.size⟩)

def clearNodes (H : Heap T) (l : Header) : Option (Heap T × Header) := do
  let H ← deleteFrom Node.next H.length l.head H
  some (H, Header.none)

def emplaceBack (H : Heap T) (l : Header) (v : T) : Option (Heap T × Header) := do
  let (H, n) := newNode H ⟨v, l.tail, none⟩
  let H ← updateIf H l.tail (Node.setNext (some n))
  let head := if l.tail.isSome then l.head else some n
  some (H, ⟨head, some n, l.size + 1⟩)

def emplaceFront (H : Heap T) (l : Header) (v : T) : Option (Heap T × Header) := do
  let (H, n) := newNode H ⟨v, none, l.head⟩
  let H ← updateIf H l.head (Node.setPrev (some n))
  let tail := if l.head.isSome then l.tail else some n
  some (H, ⟨some n, tail, l.size + 1⟩)

/-- The common part of `pop_back`, `pop_front` and `erase`. -/
def remove (H : Heap T) (l : Header) (p : Nat) : Option (Heap T × Header) := do
  let (H, l) ← unlink H l p
  let H ← deleteNode H p
  some (H, { l with size := l.size - 1 })

def popBack (H : Heap T) (l : Header) : Option (Heap T × Header) := do
  let t ← l.tail
  remove H l t

def popFront (H : Heap T) (l : Header) : Option (Heap T × Header) := do
  let h ← l.head
  remove H l h

/-- `insert(pos, v)`, before `pos`. -/
def insert (H : Heap T) (l : Header) (pos : Option Nat) (v : T) :
    Option (Heap T × Header × Nat) := do
  let prev ← prevOf H l pos
  let (H, fresh) := newNode H ⟨v, none, none⟩
  let (H, l) ← linkAfter H l prev fresh
  some (H, { l with size := l.size + 1 }, fresh)

/-- `erase(pos)` and the iterator behind it. -/
def erase (H : Heap T) (l : Header) (pos : Nat) :
    Option (Heap T × Header × Option Nat) := do
  let x ← record? H pos
  let (H, l) ← remove H l pos
  some (H, l, x.next)

/-- `for (auto it = o.begin(); it != o.end(); ++it) push_back(*it);` -/
def copyElements (H : Heap T) (l o : Header) : Option (Heap T × Header) :=
  forEachFrom Node.next (fun H l n => emplaceBack H l n.value) H.length o.head H l

/-- `list(std::initializer_list<T>)`. -/
def ofList (H : Heap T) (vs : List T) : Option (Heap T × Header) :=
  vs.foldlM (fun r v => emplaceBack r.1 r.2 v) (H, Header.none)

/-- `list(const list &)`. -/
def ofCopy (H : Heap T) (o : Header) : Option (Heap T × Header) :=
  copyElements H Header.none o

/-- `list(list &&)`: the new list, and what is left of `o`. -/
def ofMove (o : Header) : Header × Header := (⟨o.head, o.tail, o.size⟩, Header.none)

/-- `operator=(const list &)`, from another list. -/
def copyAssign (H : Heap T) (l o : Header) : Option (Heap T × Header) := do
  let (H, l) ← clearNodes H l
  copyElements H l o

/-- `operator=(list &&)`, from another list. -/
def moveAssign (H : Heap T) (l o : Header) : Option (Heap T × Header × Header) := do
  let (H, _) ← clearNodes H l
  some (H, ⟨o.head, o.tail, o.size⟩, Header.none)

/-- `~list()`. -/
def destroy (H : Heap T) (l : Header) : Option (Heap T) := (clearNodes H l).map Prod.fst

/-- The nodes from `begin()` to `end()`. -/
def nodes (H : Heap T) (l : Header) : List Nat := nodesFrom Node.next H H.length l.head

/-- What a range-for reads. -/
def iterate (H : Heap T) (l : Header) : List (Option T) :=
  (nodes H l).map fun p => (record? H p).map Node.value

inductive Call (T : Type) where
  | emplaceBack (v : T)
  | emplaceFront (v : T)
  | popBack
  | popFront
  | insert (pos : Option Nat) (v : T)
  | erase (pos : Nat)
  | clear
  | front
  | back
  | deref (pos : Nat)
  | assign (pos : Nat) (v : T)
  | incr (pos : Nat)
  | decr (pos : Option Nat)
deriving Repr, DecidableEq

/-- The calls the interface allows: iterators into this list, and no `pop` of
an empty one. -/
def Call.Legal (H : Heap T) (l : Header) : Call T → Prop
  | .popBack | .popFront | .front | .back => 0 < l.size
  | .insert (some p) _ | .decr (some p) => p ∈ nodes H l
  | .erase p | .deref p | .assign p _ | .incr p => p ∈ nodes H l
  | .decr none => 0 < l.size
  | _ => True

instance (H : Heap T) (l : Header) (c : Call T) : Decidable (c.Legal H l) := by
  unfold Call.Legal
  split <;> infer_instance

def call (H : Heap T) (l : Header) : Call T → Option (Heap T × Header × ListOut T)
  | .emplaceBack v => (emplaceBack H l v).map fun r => (r.1, r.2, .done)
  | .emplaceFront v => (emplaceFront H l v).map fun r => (r.1, r.2, .done)
  | .popBack => (popBack H l).map fun r => (r.1, r.2, .done)
  | .popFront => (popFront H l).map fun r => (r.1, r.2, .done)
  | .insert pos v => (insert H l pos v).map fun r => (r.1, r.2.1, .iter (some r.2.2))
  | .erase pos => (erase H l pos).map fun r => (r.1, r.2.1, .iter r.2.2)
  | .clear => (clearNodes H l).map fun r => (r.1, r.2, .done)
  | .front => do
      let n ← record? H (← l.head)
      some (H, l, .elem n.value)
  | .back => do
      let n ← record? H (← l.tail)
      some (H, l, .elem n.value)
  | .deref p => (record? H p).map fun n => (H, l, .elem n.value)
  | .assign p v => (updateNode H p (Node.setValue v)).map fun H => (H, l, .done)
  | .incr p => (record? H p).map fun n => (H, l, .iter n.next)
  | .decr pos => (prevOf H l pos).map fun p => (H, l, .iter p)

end LinkedList

/-! ## `forward_list` -/

namespace ForwardList

structure Node (T : Type) where
  value : T
  next : Option Nat
deriving Repr, DecidableEq

structure Header where
  head : Option Nat
  size : Nat
deriving Repr, DecidableEq

/-- A list without nodes. -/
def Header.none : Header := ⟨Option.none, 0⟩

variable {T : Type}

abbrev Heap (T : Type) : Type := List (Option (Node T))

def Node.setNext (q : Option Nat) (n : Node T) : Node T := { n with next := q }

def Node.setValue (v : T) (n : Node T) : Node T := { n with value := v }

def clearNodes (H : Heap T) (l : Header) : Option (Heap T × Header) := do
  let H ← deleteFrom Node.next H.length l.head H
  some (H, Header.none)

/-- `while (cur->next) cur = cur->next;` -/
def lastNode (H : Heap T) : Nat → Nat → Option Nat
  | 0, _ => none
  | fuel + 1, cur => do
      let n ← record? H cur
      match n.next with
      | some q => lastNode H fuel q
      | none => some cur

def pushBackInternal (H : Heap T) (l : Header) (v : T) : Option (Heap T × Header) :=
  match l.head with
  | none =>
      let (H, n) := newNode H ⟨v, none⟩
      some (H, ⟨some n, l.size + 1⟩)
  | some h => do
      let cur ← lastNode H H.length h
      let (H, n) := newNode H ⟨v, none⟩
      let H ← updateNode H cur (Node.setNext (some n))
      some (H, ⟨some h, l.size + 1⟩)

def emplaceFront (H : Heap T) (l : Header) (v : T) : Heap T × Header :=
  let (H, n) := newNode H ⟨v, l.head⟩
  (H, ⟨some n, l.size + 1⟩)

def popFront (H : Heap T) (l : Header) : Option (Heap T × Header) := do
  let h ← l.head
  let n ← record? H h
  let H ← deleteNode H h
  some (H, ⟨n.next, l.size - 1⟩)

/-- `insert_after(pos, v)`. -/
def insertAfter (H : Heap T) (l : Header) (pos : Nat) (v : T) :
    Option (Heap T × Header × Nat) := do
  let n ← record? H pos
  let (H, fresh) := newNode H ⟨v, n.next⟩
  let H ← updateNode H pos (Node.setNext (some fresh))
  some (H, ⟨l.head, l.size + 1⟩, fresh)

/-- `erase_after(pos)`; behind the last element there is nothing to erase. -/
def eraseAfter (H : Heap T) (l : Header) (pos : Nat) :
    Option (Heap T × Header × Option Nat) := do
  let n ← record? H pos
  match n.next with
  | none => some (H, l, none)
  | some dead =>
      let d ← record? H dead
      let H ← updateNode H pos (Node.setNext d.next)
      let H ← deleteNode H dead
      let n ← record? H pos
      some (H, ⟨l.head, l.size - 1⟩, n.next)

/-- `forward_list(std::initializer_list<T>)`, from the back. -/
def ofList (H : Heap T) (vs : List T) : Heap T × Header :=
  vs.reverse.foldl (fun r v => emplaceFront r.1 r.2 v) (H, Header.none)

/-- One round of the loop of the copy constructor: a copy of `*it` behind the
node made last, `tail`. -/
def copyNode (H : Heap T) (s : Header × Option Nat) (it : Node T) :
    Option (Heap T × Header × Option Nat) := do
  let (H, n) := newNode H ⟨it.value, none⟩
  let H ← updateIf H s.2 (Node.setNext (some n))
  let head := if s.2.isSome then s.1.head else some n
  some (H, ⟨head, s.1.size + 1⟩, some n)

/-- `forward_list(const forward_list &)`. -/
def ofCopy (H : Heap T) (o : Header) : Option (Heap T × Header) := do
  let (H, l, _) ← forEachFrom Node.next copyNode H.length o.head H (Header.none, none)
  some (H, l)

/-- `forward_list(forward_list &&)`: the new list, and what is left of `o`. -/
def ofMove (o : Header) : Header × Header := (⟨o.head, o.size⟩, Header.none)

/-- `operator=(const forward_list &)`, from another list. -/
def copyAssign (H : Heap T) (l o : Header) : Option (Heap T × Header) := do
  let (H, l) ← clearNodes H l
  forEachFrom Node.next (fun H l n => pushBackInternal H l n.value) H.length o.head H l

/-- `operator=(forward_list &&)`, from another list. -/
def moveAssign (H : Heap T) (l o : Header) : Option (Heap T × Header × Header) := do
  let (H, _) ← clearNodes H l
  some (H, ⟨o.head, o.size⟩, Header.none)

/-- `~forward_list()`. -/
def destroy (H : Heap T) (l : Header) : Option (Heap T) := (clearNodes H l).map Prod.fst

/-- The nodes from `begin()` to `end()`. -/
def nodes (H : Heap T) (l : Header) : List Nat := nodesFrom Node.next H H.length l.head

/-- What a range-for reads. -/
def iterate (H : Heap T) (l : Header) : List (Option T) :=
  (nodes H l).map fun p => (record? H p).map Node.value

inductive Call (T : Type) where
  | emplaceFront (v : T)
  | popFront
  | insertAfter (pos : Nat) (v : T)
  | eraseAfter (pos : Nat)
  | clear
  | front
  | deref (pos : Nat)
  | assign (pos : Nat) (v : T)
  | incr (pos : Nat)
deriving Repr, DecidableEq

/-- The calls the interface allows: iterators into this list, and no `pop` of
an empty one. -/
def Call.Legal (H : Heap T) (l : Header) : Call T → Prop
  | .popFront | .front => 0 < l.size
  | .insertAfter p _ | .eraseAfter p | .deref p | .assign p _ | .incr p => p ∈ nodes H l
  | .emplaceFront _ | .clear => True

instance (H : Heap T) (l : Header) (c : Call T) : Decidable (c.Legal H l) := by
  unfold Call.Legal
  split <;> infer_instance

def call (H : Heap T) (l : Header) : Call T → Option (Heap T × Header × ListOut T)
  | .emplaceFront v => some ((emplaceFront H l v).1, (emplaceFront H l v).2, .done)
  | .popFront => (popFront H l).map fun r => (r.1, r.2, .done)
  | .insertAfter pos v =>
      (insertAfter H l pos v).map fun r => (r.1, r.2.1, .iter (some r.2.2))
  | .eraseAfter pos => (eraseAfter H l pos).map fun r => (r.1, r.2.1, .iter r.2.2)
  | .clear => (clearNodes H l).map fun r => (r.1, r.2, .done)
  | .front => do
      let n ← record? H (← l.head)
      some (H, l, .elem n.value)
  | .deref p => (record? H p).map fun n => (H, l, .elem n.value)
  | .assign p v => (updateNode H p (Node.setValue v)).map fun H => (H, l, .done)
  | .incr p => (record? H p).map fun n => (H, l, .iter n.next)

end ForwardList

end Ycetl.Ref
