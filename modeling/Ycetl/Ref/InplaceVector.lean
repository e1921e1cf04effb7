import Mathlib.Algebra.Group.Nat.Defs
import Ycetl.Lib.Refinement

/-!
# `inplace_vector`

The elements are in an array inside the object, whose slots all have a value
from the start; what is past the size are values that were left there. No
member function asks whether there is room. A write past the array has no
result, and the size of an empty vector that is popped wraps around.
-/

namespace Ycetl.Ref

open Ycetl.Lib

structure InplaceVector (T : Type) (N : Nat) where
  storage : Vector T N
  size : Nat
deriving Repr, DecidableEq

namespace InplaceVector

variable {T : Type} {N : Nat}

/-- `_storage[i] = x;` -/
def put (v : InplaceVector T N) (i : Nat) (x : T) : Option (InplaceVector T N) :=
  if h : i < N then some { v with storage := v.storage.set i x h } else none

/-- `_storage[i] = x;` for `k` slots from `i` on. -/
def fillLoop (x : T) : Nat → Nat → InplaceVector T N → Option (InplaceVector T N)
  | 0, _, v => some v
  | k + 1, i, v => (v.put i x).bind (fillLoop x k (i + 1))

/-- `_storage[_size++] = x;` -/
def pushBack (v : InplaceVector T N) (x : T) : Option (InplaceVector T N) :=
  (v.put v.size x).map fun v => { v with size := v.size + 1 }

/-- `--_size`, of a `size_t`. -/
def popBack (v : InplaceVector T N) : InplaceVector T N :=
  { v with size := if v.size = 0 then 2 ^ 64 - 1 else v.size - 1 }

def clear (v : InplaceVector T N) : InplaceVector T N := { v with size := 0 }

/-- `resize(n, x)`; `resize(n)` has the default value for `x`. -/
def resize (v : InplaceVector T N) (n : Nat) (x : T) : Option (InplaceVector T N) :=
  (if v.size < n then fillLoop x (n - v.size) v.size v else some v).map fun v =>
    { v with size := n }

def index (v : InplaceVector T N) (i : Nat) : Option T := v.storage[i]?

def front (v : InplaceVector T N) : Option T := v.index 0

/-- `_storage[_size - 1]` -/
def back (v : InplaceVector T N) : Option T := v.index v.popBack.size

def empty (v : InplaceVector T N) : Bool := v.size = 0

def full (v : InplaceVector T N) : Bool := v.size = N

/-- What iteration from `begin()` to `end()` reads. -/
def iterate (v : InplaceVector T N) : List (Option T) := (List.range v.size).map v.index

/-- The loop of `operator==` from `i` on, with `k` rounds left. -/
def eqLoop [BEq T] (v o : InplaceVector T N) : Nat → Nat → Option Bool
  | 0, _ => some true
  | k + 1, i => do
      let x ← v.index i
      let y ← o.index i
      if x == y then eqLoop v o k (i + 1) else some false

/-- `operator==` -/
def eq [BEq T] (v o : InplaceVector T N) : Option Bool :=
  if v.size ≠ o.size then some false else eqLoop v o v.size 0

/-! ## Programs -/

inductive Ctor (T : Type) where
  | none
  | sized (n : Nat)
  | filled (n : Nat) (v : T)
  | range (il : List T)
deriving Repr, DecidableEq

/-- `T _storage[N]{}; size_type _size = 0;` -/
def fresh [Inhabited T] : InplaceVector T N := ⟨Vector.replicate N default, 0⟩

def construct [Inhabited T] : Ctor T → Option (InplaceVector T N)
  | .none => some fresh
  | .sized n => (fillLoop default n 0 fresh).map fun v => { v with size := n }
  | .filled n x => (fillLoop x n 0 fresh).map fun v => { v with size := n }
  | .range il => il.foldlM pushBack fresh

inductive Call (T : Type) where
  | pushBack (v : T)
  | emplaceBack (v : T)
  | popBack
  | clear
  | resize (n : Nat)
  | resizeWith (n : Nat) (v : T)
  | assign (i : Nat) (v : T)
  | index (i : Nat)
  | front
  | back
  | empty
  | full
deriving Repr, DecidableEq

inductive Out (T : Type) where
  | done
  | elem (v : T)
  | test (b : Bool)
deriving Repr, DecidableEq

def call [Inhabited T] (v : InplaceVector T N) : Call T → Option (InplaceVector T N × Out T)
  | .pushBack x => (v.pushBack x).map fun v => (v, .done)
  | .emplaceBack x => (v.pushBack x).bind fun w => (w.index v.size).map fun y => (w, .elem y)
  | .popBack => some (v.popBack, .done)
  | .clear => some (v.clear, .done)
  | .resize n => (v.resize n default).map fun v => (v, .done)
  | .resizeWith n x => (v.resize n x).map fun v => (v, .done)
  | .assign i x => (v.put i x).map fun v => (v, .done)
  | .index i => (v.index i).map fun x => (v, .elem x)
  | .front => v.front.map fun x => (v, .elem x)
  | .back => v.back.map fun x => (v, .elem x)
  | .empty => some (v, .test v.empty)
  | .full => some (v, .test v.full)

/-- The calls the interface allows: elements that are there. Whether there is
room is seen by the call itself. -/
def Call.Legal (v : InplaceVector T N) : Call T → Prop
  | .popBack | .front | .back => 0 < v.size
  | .assign i _ | .index i => i < v.size
  | _ => True

instance (v : InplaceVector T N) : (c : Call T) → Decidable (c.Legal v)
  | .popBack | .front | .back => inferInstanceAs (Decidable (0 < v.size))
  | .assign i _ | .index i => inferInstanceAs (Decidable (i < v.size))
  | .pushBack _ | .emplaceBack _ | .clear | .resize _ | .resizeWith _ _ | .empty | .full =>
      isTrue trivial

/-- A call that the interface allows, or none. -/
def step [Inhabited T] (v : InplaceVector T N) (c : Call T) :
    Option (InplaceVector T N × Out T) :=
  if c.Legal v then v.call c else none

/-- An object is constructed, and calls are made on it. -/
def run [Inhabited T] (c : Ctor T) (calls : List (Call T)) :
    Option (InplaceVector T N × List (Out T)) :=
  (construct c).bind fun v => answersFrom step v calls

end InplaceVector

end Ycetl.Ref
