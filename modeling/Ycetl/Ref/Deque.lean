import Mathlib.Data.List.Basic

/-!
# `deque` and `queue`

A ring over one buffer: the element at place `i` from the front lies in slot
`(_head + i) % cap()`. The buffer is the list of the elements of `_buf`, all
of which are alive, whether they are on the ring or not. A remainder by a zero
capacity and a slot past the buffer are calls without a result. Sizes and
capacities are natural numbers.

A queue is a deque that is pushed at one end and popped at the other.
-/

namespace Ycetl.Ref

structure Deque (T : Type) where
  buf : List T
  head : Nat
  size : Nat
deriving Repr, DecidableEq

/-- What a call on a deque or a queue hands back. -/
inductive DequeOut (T : Type) where
  | done
  | elem (v : T)
deriving Repr, DecidableEq

namespace Deque

variable {T : Type}

def initialCapacity : Nat := 8

/-- `deque()`. -/
def empty : Deque T := ⟨[], 0, 0⟩

def cap (d : Deque T) : Nat := d.buf.length

def tailIndex (d : Deque T) : Nat :=
  if d.cap = 0 then 0 else (d.head + d.size) % d.cap

/-- The slot `(_head + i) % cap()`. -/
def slot (d : Deque T) (i : Nat) : Option Nat :=
  if d.cap = 0 then none else some ((d.head + i) % d.cap)

/-- `operator[]`. -/
def index (d : Deque T) (i : Nat) : Option T := do
  let s ← d.slot i
  d.buf[s]?

/-- The write `_buf[i] = v`. -/
def write (d : Deque T) (i : Nat) (v : T) : Option (Deque T) :=
  if i < d.buf.length then some { d with buf := d.buf.set i v } else none

/-- The loop of `grow` that lays the elements out from slot 0. -/
def relay (d : Deque T) : Nat → Nat → List T → Option (List T)
  | _, 0, fresh => some fresh
  | i, n + 1, fresh => do
      let v ← d.index i
      if i < fresh.length then d.relay (i + 1) n (fresh.set i v) else none

def grow [Inhabited T] (d : Deque T) (newCap : Nat) : Option (Deque T) := do
  let fresh ← d.relay 0 d.size (List.replicate newCap default)
  some ⟨fresh, 0, d.size⟩

def ensureRoom [Inhabited T] (d : Deque T) : Option (Deque T) :=
  if d.cap < d.size + 1 then d.grow (if d.cap = 0 then initialCapacity else d.cap * 2)
  else some d

def clear (_ : Deque T) : Deque T := ⟨[], 0, 0⟩

def front (d : Deque T) : Option T := d.buf[d.head]?

def back (d : Deque T) : Option T :=
  if d.cap = 0 then none else d.buf[(d.head + d.size - 1) % d.cap]?

def pushBack [Inhabited T] (d : Deque T) (v : T) : Option (Deque T) := do
  let d ← d.ensureRoom
  let d ← d.write d.tailIndex v
  some { d with size := d.size + 1 }

def pushFront [Inhabited T] (d : Deque T) (v : T) : Option (Deque T) := do
  let d ← d.ensureRoom
  let head ← if d.cap = 0 then none else some ((d.head + d.cap - 1) % d.cap)
  let d ← write { d with head := head } head v
  some { d with size := d.size + 1 }

/-- The value stays in its slot. -/
def popFront (d : Deque T) : Option (Deque T) := do
  let head ← d.slot 1
  some { d with head := head, size := d.size - 1 }

def popBack (d : Deque T) : Deque T := { d with size := d.size - 1 }

/-- What a range-for reads. -/
def iterate (d : Deque T) : List (Option T) := (List.range d.size).map d.index

inductive Call (T : Type) where
  | pushBack (v : T)
  | pushFront (v : T)
  | popFront
  | popBack
  | clear
  | front
  | back
  | index (i : Nat)
  | assign (i : Nat) (v : T)
deriving Repr, DecidableEq

/-- The calls the interface allows: places on the ring, and nothing taken from
an empty deque. -/
def Call.Legal (d : Deque T) : Call T → Prop
  | .popFront | .popBack | .front | .back => 0 < d.size
  | .index i | .assign i _ => i < d.size
  | .pushBack _ | .pushFront _ | .clear => True

instance (d : Deque T) (c : Call T) : Decidable (c.Legal d) := by
  cases c <;> unfold Call.Legal <;> infer_instance

def call [Inhabited T] (d : Deque T) : Call T → Option (Deque T × DequeOut T)
  | .pushBack v => (d.pushBack v).map fun d => (d, .done)
  | .pushFront v => (d.pushFront v).map fun d => (d, .done)
  | .popFront => d.popFront.map fun d => (d, .done)
  | .popBack => some (d.popBack, .done)
  | .clear => some (d.clear, .done)
  | .front => d.front.map fun v => (d, .elem v)
  | .back => d.back.map fun v => (d, .elem v)
  | .index i => (d.index i).map fun v => (d, .elem v)
  | .assign i v => do
      let s ← d.slot i
      let d ← d.write s v
      some (d, .done)

/-- A call that the interface allows, or none. -/
def step [Inhabited T] (d : Deque T) (c : Call T) : Option (Deque T × DequeOut T) :=
  if c.Legal d then d.call c else none

end Deque

/-! ## `queue` -/

structure Queue (T : Type) where
  c : Deque T
deriving Repr, DecidableEq

namespace Queue

variable {T : Type}

/-- `queue()`. -/
def empty : Queue T := ⟨Deque.empty⟩

def size (q : Queue T) : Nat := q.c.size

inductive Call (T : Type) where
  | push (v : T)
  | emplace (v : T)
  | pop
  | front
  | back
  | container (c : Deque.Call T)
deriving Repr, DecidableEq

/-- What a call does to the container; `container()` hands it out. -/
def Call.onContainer : Call T → Deque.Call T
  | .push v => .pushBack v
  | .emplace v => .pushBack v
  | .pop => .popFront
  | .front => .front
  | .back => .back
  | .container c => c

def step [Inhabited T] (q : Queue T) (c : Call T) : Option (Queue T × DequeOut T) :=
  (q.c.step c.onContainer).map fun r => (⟨r.1⟩, r.2)

/-- What an iteration over the container reads. -/
def iterate (q : Queue T) : List (Option T) := q.c.iterate

end Queue

end Ycetl.Ref
