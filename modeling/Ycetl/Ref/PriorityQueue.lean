import Ycetl.Lib.Runs
import Ycetl.Ref.Ordered

/-!
# `priority_queue`

A binary heap in a `dynamic_array`. The two sifts compare and exchange elements
of the container; an exchange moves through a temporary, and between its
statements one of the two elements is moved from.

An element is reached by its index, and an index that is not below the size is
a call without a result, as is a loop that runs out of rounds. So a call that
has a result has ended and has stayed inside the container.
-/

namespace Ycetl.Ref

open Ycetl.Lib

/-- The container `_c` and the store its elements live in: the pair that the
sorted arrays keep. -/
abbrev PriorityQueue (T : Type) : Type := Ordered T

namespace PriorityQueue

variable {T : Type}

def pushBack (q : PriorityQueue T) (v : T) : PriorityQueue T :=
  let r := DynamicArray.emplaceBack TypedDynamicMemory.allocate q.store q.data (.value v)
  ⟨r.1, r.2⟩

def popBack (q : PriorityQueue T) : PriorityQueue T :=
  let r := DynamicArray.popBack q.store q.data
  ⟨r.1, r.2⟩

/-- `auto tmp = std::move(c[i]); c[i] = std::move(c[j]); c[j] = std::move(tmp);` -/
def exchange (q : PriorityQueue T) (i j : Nat) : Option (PriorityQueue T) :=
  if i < q.size ∧ j < q.size then do
    let tmp ← q.at? i
    let s := q.store.drain (.move (q.data.data + i))
    let s := s.assign (q.data.data + i) (.move (q.data.data + j))
    pure { q with store := s.assign (q.data.data + j) (.value tmp) }
  else none

section

variable (C : WeakOrder T)

/-- The loop of `sift_up`. -/
def siftUp : Nat → PriorityQueue T → Nat → Option (PriorityQueue T)
  | 0, _, _ => none
  | fuel + 1, c, i =>
      if 0 < i then do
        let parent := (i - 1) / 2
        let a ← c.at? parent
        let b ← c.at? i
        if C.lt a b then do
          let c ← exchange c parent i
          siftUp fuel c parent
        else pure c
      else pure c

/-- `if (k < n && cmp(c[best], c[k])) best = k;` -/
def better (c : PriorityQueue T) (n best k : Nat) : Option Nat :=
  if k < n then do
    let a ← c.at? best
    let b ← c.at? k
    pure (if C.lt a b then k else best)
  else pure best

/-- The loop of `sift_down`. -/
def siftDown (n : Nat) : Nat → PriorityQueue T → Nat → Option (PriorityQueue T)
  | 0, _, _ => none
  | fuel + 1, c, i => do
      let best ← better C c n i (2 * i + 1)
      let best ← better C c n best (2 * i + 2)
      if best = i then pure c
      else do
        let c ← exchange c best i
        siftDown n fuel c best

def empty : PriorityQueue T := Ordered.empty

def top (q : PriorityQueue T) : Option T := q.at? 0

/-- `push`, both overloads. -/
def push (q : PriorityQueue T) (v : T) : Option (PriorityQueue T) :=
  let q := pushBack q v
  siftUp C (q.size + 1) q (q.size - 1)

/-- `emplace` builds the element and pushes it back as `push` does. -/
def emplace (q : PriorityQueue T) (v : T) : Option (PriorityQueue T) :=
  let q := pushBack q v
  siftUp C (q.size + 1) q (q.size - 1)

def pop (q : PriorityQueue T) : Option (PriorityQueue T) :=
  if q.size ≤ 1 then some (popBack q)
  else do
    let q ← exchange q 0 (q.size - 1)
    let q := popBack q
    siftDown C q.size (q.size + 1) q 0

/-- `while (!empty()) { out.push_back(top()); pop(); }` -/
def drain : Nat → PriorityQueue T → Option (List T)
  | 0, q => if q.size = 0 then some [] else none
  | fuel + 1, q =>
      if q.size = 0 then some []
      else do
        let x ← top q
        let q ← pop C q
        let out ← drain fuel q
        pure (x :: out)

inductive Op (T : Type) where
  | push (v : T)
  | emplace (v : T)
  | pop
deriving Repr, DecidableEq

/-- A call; `pop` asks for a queue that is not empty. -/
def step (q : PriorityQueue T) : Op T → Option (PriorityQueue T)
  | .push v => push C q v
  | .emplace v => emplace C q v
  | .pop => if q.size = 0 then none else pop C q

end

end PriorityQueue

end Ycetl.Ref
