import Ycetl.Ref.DynamicArray
import Ycetl.Ref.InplaceVector

/-!
# `stack`

A stack has a container and calls `push_back` and `pop_back` on it; its top is
the element before the end. The container is any class with these functions, by
default a `dynamic_array`.
-/

namespace Ycetl.Ref

open Ycetl.Lib

/-- What a stack asks of its container. -/
structure Container (T : Type) where
  State : Type
  size : State → Nat
  index : State → Nat → Option T
  pushBack : State → T → Option State
  popBack : State → Option State

/-- `inplace_vector<T, N>` -/
def Container.inplaceVector (T : Type) (N : Nat) : Container T where
  State := InplaceVector T N
  size := InplaceVector.size
  index := InplaceVector.index
  pushBack := InplaceVector.pushBack
  popBack v := some v.popBack

/-- `dynamic_array<T>`, with the store its buffer is in. -/
def Container.dynamicArray (T : Type) : Container T where
  State := Store T × Arr
  size s := s.2.size
  index s i := (s.1.view (s.2.data + i)).join
  pushBack s v := some
    (DynamicArray.emplaceBack TypedDynamicMemory.allocate s.1 s.2 (.value v))
  popBack s := some (DynamicArray.popBack s.1 s.2)

/-- A stack is its container. -/
structure Stack {T : Type} (K : Container T) where
  c : K.State

namespace Stack

variable {T : Type} {K : Container T}

def size (s : Stack K) : Nat := K.size s.c

def empty (s : Stack K) : Bool := K.size s.c = 0

/-- `_c[_c.size() - 1]`, with the size of an empty container wrapping around. -/
def top (s : Stack K) : Option T :=
  K.index s.c (if K.size s.c = 0 then 2 ^ 64 - 1 else K.size s.c - 1)

def push (s : Stack K) (v : T) : Option (Stack K) := (K.pushBack s.c v).map Stack.mk

def pop (s : Stack K) : Option (Stack K) := (K.popBack s.c).map Stack.mk

inductive Call (T : Type) where
  | push (v : T)
  | emplace (v : T)
  | pop
  | top
  | size
  | empty
deriving Repr, DecidableEq

inductive Out (T : Type) where
  | done
  | elem (v : T)
  | number (n : Nat)
  | test (b : Bool)
deriving Repr, DecidableEq

def call (s : Stack K) : Call T → Option (Stack K × Out T)
  | .push v => (s.push v).map fun s => (s, .done)
  | .emplace v => (s.push v).map fun s => (s, .done)
  | .pop => s.pop.map fun s => (s, .done)
  | .top => s.top.map fun v => (s, .elem v)
  | .size => some (s, .number s.size)
  | .empty => some (s, .test s.empty)

/-- The calls the interface allows: nothing is taken from an empty stack. -/
def Call.Legal (s : Stack K) : Call T → Prop
  | .pop | .top => 0 < s.size
  | .push _ | .emplace _ | .size | .empty => True

instance (s : Stack K) : (c : Call T) → Decidable (c.Legal s)
  | .pop | .top => inferInstanceAs (Decidable (0 < s.size))
  | .push _ | .emplace _ | .size | .empty => isTrue trivial

/-- A call that the interface allows, or none. -/
def step (s : Stack K) (c : Call T) : Option (Stack K × Out T) :=
  if c.Legal s then s.call c else none

end Stack

end Ycetl.Ref
