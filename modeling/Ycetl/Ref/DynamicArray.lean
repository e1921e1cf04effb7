import Ycetl.Lib.Lifetimes
import Ycetl.Lib.Loops

/-!
# `dynamic_array` and the memories it takes its buffers from

A typed memory hands out runs of slots and never takes one back: `deallocate`
is a no-op in `typed_static_memory`, and in `typed_dynamic_memory` it leaves
the block to the destructor of the backend. All that a memory decides is
therefore which offset an `allocate` returns and how far the next free slot
moves. Slot 0 is the null pointer.

An array is the offset of its buffer with its `_size` and `_capacity`. The
elements live in the store, and the functions below are the member functions
of the header, statement by statement, with the loops as counted loops. An
argument is a `Src`: a value of the caller's, or one that is copied or moved
from a slot; the two overloads of `insert` and of `push_back` differ in
nothing else. Sizes and offsets are natural numbers.
-/

namespace Ycetl.Ref

open Ycetl.Lib

/-! ## The memories -/

/-- What `allocate(size)` does at a given next free slot: the offset it
returns, and the next free slot afterwards. -/
abbrev Allocate : Type := Nat → Nat → Nat × Nat

def typedStaticMemorySize : Nat := 1024

namespace TypedStaticMemory

/-- One slot more than the size, to reserve offset 0. -/
def capacity : Nat := typedStaticMemorySize + 1

def remainingSize (offset : Nat) : Nat := capacity - offset

/-- The offset starts at 1. -/
def allocatedSize (offset : Nat) : Nat := offset - 1

def allocate : Allocate := fun offset size =>
  if size = 0 then (0, offset)
  else if remainingSize offset < size then (0, offset)
  else (offset, offset + size)

end TypedStaticMemory

namespace TypedDynamicMemory

/-- The blocks of `std::allocator`, none of which is freed while an array can
still see it: each one is fresh. -/
def allocate : Allocate := fun offset size =>
  if size = 0 then (0, offset) else (offset, offset + size)

end TypedDynamicMemory

/-! ## The array -/

structure Arr where
  data : Nat
  size : Nat
  capacity : Nat
deriving Repr, DecidableEq

namespace Arr

/-- An array without a buffer: `none()`, 0, 0. -/
def none : Arr := ⟨0, 0, 0⟩

end Arr

namespace DynamicArray

variable {T : Type}

/-- `construct_n(ptr, n, args...)`. -/
def constructN (s : Store T) (p n : Nat) (src : Src T) : Store T :=
  upLoop (fun i s => s.constructAt (p + i) src) 0 n s

/-- `copy_construct_n(src, n, dest)`, from slots. -/
def copyConstructN (s : Store T) (p n dest : Nat) : Store T :=
  upLoop (fun i s => s.constructAt (dest + i) (.copy (p + i))) 0 n s

/-- `copy_construct_n(src, n, dest)`, from an initializer list. -/
def copyConstructList (s : Store T) (vs : List T) (dest : Nat) : Store T :=
  match vs with
  | [] => s
  | v :: rest => copyConstructList (s.constructAt dest (.value v)) rest (dest + 1)

def destroyRange (s : Store T) (a : Arr) (first last : Nat) : Store T :=
  upLoop (fun i s => s.destroyAt (a.data + i)) first (last - first) s

section

variable (alloc : Allocate)

/-- The call of the memory: the offset, and the store with that much handed
out. -/
def allocate (s : Store T) (n : Nat) : Nat × Store T :=
  ((alloc s.offset n).1, { s with offset := (alloc s.offset n).2 })

/-- `dynamic_array(memory, n)` and `dynamic_array(memory, n, v)`. -/
def ofSize (s : Store T) (n : Nat) (v : T) : Store T × Arr :=
  let (data, s) := allocate alloc s n
  (constructN s data n (.value v), ⟨data, n, n⟩)

/-- `dynamic_array(memory, first, n)`. -/
def ofRange (s : Store T) (vs : List T) : Store T × Arr :=
  let (data, s) := allocate alloc s vs.length
  (copyConstructList s vs data, ⟨data, vs.length, vs.length⟩)

/-- `dynamic_array(const dynamic_array &)`. A compiler rejects its use, as the
`memory()` of a const source is not const; the model takes it for what it is
written to do. -/
def ofCopy (s : Store T) (other : Arr) : Store T × Arr :=
  let (data, s) := allocate alloc s other.capacity
  (copyConstructN s other.data other.size data, ⟨data, other.size, other.capacity⟩)

def reserve (s : Store T) (a : Arr) (newCap : Nat) : Store T × Arr :=
  if newCap ≤ a.capacity then (s, a)
  else
    let (newBuf, s) := allocate alloc s newCap
    let s := upLoop
      (fun i s => s.constructAt (newBuf + i) (.move (a.data + i))) 0 a.size s
    let s := destroyRange s a 0 a.size
    (s, { a with data := newBuf, capacity := newCap })

/-- `resize(new_size)` and `resize(new_size, v)`. -/
def resize (s : Store T) (a : Arr) (newSize : Nat) (src : Src T) : Store T × Arr :=
  let (s, a) :=
    if a.capacity < newSize then reserve alloc s a newSize else (s, a)
  let s :=
    if a.size < newSize then constructN s (a.data + a.size) (newSize - a.size) src
    else if newSize < a.size then destroyRange s a newSize a.size
    else s
  (s, { a with size := newSize })

/-- The growth step of `emplace_back` and `insert`. -/
def ensureRoom (s : Store T) (a : Arr) : Store T × Arr :=
  if a.size = a.capacity then
    reserve alloc s a (if a.capacity ≠ 0 then a.capacity * 2 else 4)
  else (s, a)

def emplaceBack (s : Store T) (a : Arr) (src : Src T) : Store T × Arr :=
  let (s, a) := ensureRoom alloc s a
  (s.constructAt (a.data + a.size) src, { a with size := a.size + 1 })

/-- The loop of `insert` that opens the gap, from the last slot down. -/
def shiftUp (s : Store T) (a : Arr) (idx : Nat) : Store T :=
  downLoop
    (fun i s =>
      if i < a.size then s.assign (a.data + i) (.move (a.data + (i - 1)))
      else s.constructAt (a.data + i) (.move (a.data + (i - 1))))
    a.size (a.size - idx) s

def insert (s : Store T) (a : Arr) (idx : Nat) (src : Src T) : Store T × Arr :=
  let (s, a) := ensureRoom alloc s a
  let s := shiftUp s a idx
  (s.constructAt (a.data + idx) src, { a with size := a.size + 1 })

end

def popBack (s : Store T) (a : Arr) : Store T × Arr :=
  (s.destroyAt (a.data + (a.size - 1)), { a with size := a.size - 1 })

def clear (s : Store T) (a : Arr) : Store T × Arr :=
  (destroyRange s a 0 a.size, { a with size := 0 })

/-- Also the destructor. -/
def clearAndDeallocateBuffer (s : Store T) (a : Arr) : Store T × Arr :=
  (destroyRange s a 0 a.size,
    ⟨if 0 < a.capacity then 0 else a.data, 0, 0⟩)

/-- The loop of both `erase` overloads that closes a gap of `n` slots. -/
def shiftDown (s : Store T) (a : Arr) (idx n : Nat) : Store T :=
  upLoop (fun i s => s.constructAt (a.data + i) (.move (a.data + (i + n))))
    idx (a.size - n - idx) s

/-- `erase(pos)`. -/
def erase (s : Store T) (a : Arr) (idx : Nat) : Store T × Arr :=
  let s := s.destroyAt (a.data + idx)
  (shiftDown s a idx 1, { a with size := a.size - 1 })

/-- `erase(first, last)`. -/
def eraseRange (s : Store T) (a : Arr) (first last : Nat) : Store T × Arr :=
  let s := destroyRange s a first last
  (shiftDown s a first (last - first), { a with size := a.size - (last - first) })

/-! ## Calls -/

inductive Ctor (T : Type) where
  | none
  | sized (n : Nat)
  | filled (n : Nat) (v : T)
  | range (vs : List T)

inductive Call (T : Type) where
  | reserve (n : Nat)
  | resize (n : Nat)
  | resizeWith (n : Nat) (v : T)
  | pushBack (v : T)
  | popBack
  | clear
  | clearAndDeallocateBuffer
  | insert (pos : Nat) (v : T)
  | erase (pos : Nat)
  | eraseRange (first last : Nat)
deriving Repr, DecidableEq

def construct [Inhabited T] (alloc : Allocate) (s : Store T) :
    Ctor T → Store T × Arr
  | .none => (s, Arr.none)
  | .sized n => ofSize alloc s n default
  | .filled n v => ofSize alloc s n v
  | .range vs => ofRange alloc s vs

def call [Inhabited T] (alloc : Allocate) (s : Store T) (a : Arr) :
    Call T → Store T × Arr
  | .reserve n => reserve alloc s a n
  | .resize n => resize alloc s a n (.value default)
  | .resizeWith n v => resize alloc s a n (.value v)
  | .pushBack v => emplaceBack alloc s a (.value v)
  | .popBack => popBack s a
  | .clear => clear s a
  | .clearAndDeallocateBuffer => clearAndDeallocateBuffer s a
  | .insert pos v => insert alloc s a pos (.value v)
  | .erase pos => erase s a pos
  | .eraseRange first last => eraseRange s a first last

/-- The pointer a call returns, in the buffer it leaves: `insert` and `erase`
return an iterator, `emplace_back` a reference. -/
def returned (a : Arr) : Call T → Option Nat
  | .pushBack _ => some (a.data + (a.size - 1))
  | .insert pos _ | .erase pos => some (a.data + pos)
  | .eraseRange first _ => some (a.data + first)
  | _ => Option.none

/-- Where a pointer is, counted from `begin()`, if it is not outside the array. -/
def position (a : Arr) (p : Nat) : Option Nat :=
  if a.data ≤ p ∧ p ≤ a.data + a.size then some (p - a.data) else Option.none

/-- The calls the interface allows: positions inside the array, and no
`pop_back` on an empty one. -/
def Call.Legal (a : Arr) : Call T → Prop
  | .popBack => 0 < a.size
  | .insert pos _ => pos ≤ a.size
  | .erase pos => pos < a.size
  | .eraseRange first last => first ≤ last ∧ last ≤ a.size
  | _ => True

instance (a : Arr) (c : Call T) : Decidable (c.Legal a) := by
  cases c <;> unfold Call.Legal <;> infer_instance

/-- Calls whose argument is a reference to an element. `push_back` hands its
argument on to `emplace_back`, and `vector` hands its arguments on to the array
it wraps. -/
inductive OwnCall where
  | pushBack
  | resize (n : Nat)
  | insert (pos : Nat)
deriving Repr, DecidableEq

/-- The call with `a[j]` as its argument. It is read where the call reads it. -/
def ownCall (alloc : Allocate) (s : Store T) (a : Arr) (j : Nat) :
    OwnCall → Store T × Arr
  | .pushBack => emplaceBack alloc s a (.copy (a.data + j))
  | .resize n => resize alloc s a n (.copy (a.data + j))
  | .insert pos => insert alloc s a pos (.copy (a.data + j))

/-! ## Any number of arrays over one memory -/

structure World (T : Type) where
  store : Store T
  arrays : Nat → Option Arr

inductive Op (T : Type) where
  | construct (i : Nat) (c : Ctor T)
  | copyConstruct (i j : Nat)
  | moveConstruct (i j : Nat)
  | moveAssign (i j : Nat)
  | call (i : Nat) (c : Call T)
  | destroy (i : Nat)

namespace World

/-- Slot 0 of the memory is taken from the start. -/
def initial : World T := ⟨Store.fresh 1, fun _ => Option.none⟩

/-- Array `i` and the store after a member function of it. -/
def put (w : World T) (i : Nat) (r : Store T × Arr) : World T :=
  ⟨r.1, Function.update w.arrays i (some r.2)⟩

/-- The source of a move is left without a buffer. -/
def release (w : World T) (i : Nat) : World T := w.put i (w.store, Arr.none)

def step [Inhabited T] (alloc : Allocate) (w : World T) : Op T → Option (World T)
  | .construct i c =>
      match w.arrays i with
      | none => some (w.put i (DynamicArray.construct alloc w.store c))
      | some _ => none
  | .copyConstruct i j =>
      match w.arrays i, w.arrays j with
      | none, some b => some (w.put i (ofCopy alloc w.store b))
      | _, _ => none
  | .moveConstruct i j =>
      match w.arrays i, w.arrays j with
      | none, some b => some ((w.release j).put i (w.store, b))
      | _, _ => none
  | .moveAssign i j =>
      match w.arrays i, w.arrays j with
      | some a, some b =>
          if i = j then some w
          else
            let (s, _) := clearAndDeallocateBuffer w.store a
            some (((w.put i (s, Arr.none)).release j).put i (s, b))
      | _, _ => none
  | .call i c =>
      match w.arrays i with
      | some a =>
          if c.Legal a then some (w.put i (DynamicArray.call alloc w.store a c))
          else none
      | none => none
  | .destroy i =>
      match w.arrays i with
      | some a =>
          let (s, _) := clearAndDeallocateBuffer w.store a
          some ⟨s, Function.update w.arrays i none⟩
      | none => none

/-- A step, and the position of the pointer it returns. -/
def answer [Inhabited T] (alloc : Allocate) (w : World T) (op : Op T) :
    Option (World T × Option (Option Nat)) :=
  (w.step alloc op).map fun w' =>
    (w', match op with
      | .call i c => (w'.arrays i).bind fun a => (returned a c).map (position a)
      | _ => none)

end World

end DynamicArray

end Ycetl.Ref
