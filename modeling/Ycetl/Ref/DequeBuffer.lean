import Ycetl.Ref.Deque
import Ycetl.Ref.DynamicArray

/-!
# `deque` in the slots of its buffer

A deque as the members of the class have it: `_buf` is a `dynamic_array`, whose
elements lie in the store and are all alive, whether they are on the ring or
not. `Ref/Deque.lean` has the elements of `_buf` as a list, which is enough as
long as arguments are values. An argument that refers to an element is read
where the push reads it, and that is after it has made room.
-/

namespace Ycetl.Ref

open Ycetl.Lib

structure DequeBuffer where
  buf : Arr
  head : Nat
  size : Nat
deriving Repr, DecidableEq

namespace DequeBuffer

variable {T : Type}

/-- `deque()`. -/
def empty : DequeBuffer := ⟨Arr.none, 0, 0⟩

def cap (d : DequeBuffer) : Nat := d.buf.size

def tailIndex (d : DequeBuffer) : Nat :=
  if d.cap = 0 then 0 else (d.head + d.size) % d.cap

/-- The slot that `operator[]` refers to. -/
def slot (d : DequeBuffer) (i : Nat) : Nat := d.buf.data + (d.head + i) % d.cap

/-- The elements from the front, `none` where one has been moved from. -/
def elements (s : Store T) (d : DequeBuffer) : List (Option T) :=
  (List.range d.size).map fun i => (s.view (d.slot i)).join

section

variable (alloc : Allocate) [Inhabited T]

/-- The elements are moved to a new buffer, which `_buf` then takes over. -/
def grow (s : Store T) (d : DequeBuffer) (newCap : Nat) : Store T × DequeBuffer :=
  let (s, fresh) := DynamicArray.resize alloc s Arr.none newCap (.value default)
  let s := upLoop (fun i s => s.assign (fresh.data + i) (.move (d.slot i))) 0 d.size s
  let (s, _) := DynamicArray.clearAndDeallocateBuffer s d.buf
  (s, ⟨fresh, 0, d.size⟩)

def ensureRoom (s : Store T) (d : DequeBuffer) : Store T × DequeBuffer :=
  if d.cap < d.size + 1 then
    grow alloc s d (if d.cap = 0 then Deque.initialCapacity else d.cap * 2)
  else (s, d)

def pushBack (s : Store T) (d : DequeBuffer) (src : Src T) : Store T × DequeBuffer :=
  let (s, d) := ensureRoom alloc s d
  (s.assign (d.buf.data + d.tailIndex) src, { d with size := d.size + 1 })

def pushFront (s : Store T) (d : DequeBuffer) (src : Src T) : Store T × DequeBuffer :=
  let (s, d) := ensureRoom alloc s d
  let head := (d.head + d.cap - 1) % d.cap
  (s.assign (d.buf.data + head) src, { d with head := head, size := d.size + 1 })

end

end DequeBuffer

end Ycetl.Ref
