import Ycetl.Lib.Loops
import Ycetl.Lib.Records

/-!
# Working memory and its holders

`typed_dynamic_memory` is a `trivial_shared_ptr` to a backend, and the backend
is an allocation table: every block it took from `std::allocator` stays in the
table until the destructor gives all of them back. Every synthetic pointer
carries a copy of the memory it points into, so the backend lives as long as
the last memory object or pointer does.

Backends, counts and blocks are numbered in the order in which they are made,
and a pointer is such a number; a record that was deleted leaves its number
behind. Three lists of the heap are records of what happened that the code
does not read: which backend asked for a block, what `deallocate` of the
allocator was called with, and which backends were deleted. A read of a
deleted record, an access outside the table, or a call through a null pointer
is a call without a result. Counts and sizes are natural numbers.
-/

namespace Ycetl.Ref

open Ycetl.Lib

/-! ## The allocation table -/

/-- `size_and_pointer`. -/
structure SizeAndPointer where
  ptr : Option Nat
  size : Nat
deriving Repr, DecidableEq

def SizeAndPointer.init : SizeAndPointer := ⟨none, 0⟩

/-- `typed_dynamic_memory_backend`. -/
structure Backend where
  arrayAllocationVector : Option (List SizeAndPointer)
  currentArrayVectorSize : Nat
  arraySlotsTaken : Nat
deriving Repr, DecidableEq

namespace Backend

def initialVectorSize : Nat := 100

def vectorGrowthFactor : Nat := 2

def init : Backend := ⟨none, 0, 0⟩

/-- `new size_and_pointer<stored_type>[n]`. -/
def newVector (n : Nat) : List SizeAndPointer := List.replicate n .init

/-- `v[i] = e`. -/
def write (v : List SizeAndPointer) (i : Nat) (e : SizeAndPointer) :
    Option (List SizeAndPointer) :=
  if i < v.length then some (v.set i e) else none

/-- `for (i = 0; i < n; ++i) v[i] = old[i];` -/
def copyVector (old v : List SizeAndPointer) (n : Nat) : Option (List SizeAndPointer) :=
  upLoop
    (fun i r => do
      let v ← r
      let e ← old[i]?
      write v i e)
    0 n (some v)

/-- The first half of `allocate`: a table with a free slot. -/
def ensureVector (B : Backend) : Option Backend :=
  if B.currentArrayVectorSize = 0 then
    some ⟨some (newVector initialVectorSize), initialVectorSize, 0⟩
  else if B.arraySlotsTaken ≥ B.currentArrayVectorSize then do
    let newSize := B.currentArrayVectorSize * vectorGrowthFactor
    let old ← B.arrayAllocationVector
    let v ← copyVector old (newVector newSize) B.currentArrayVectorSize
    pure ⟨some v, newSize, B.arraySlotsTaken⟩
  else some B

/-- `_array_allocation_vector[_array_slots_taken++] = e`. -/
def record (B : Backend) (e : SizeAndPointer) : Option Backend := do
  let v ← B.arrayAllocationVector
  let v ← write v B.arraySlotsTaken e
  pure ⟨some v, B.currentArrayVectorSize, B.arraySlotsTaken + 1⟩

/-- Both `deallocate`s are empty. -/
def deallocate (B : Backend) (_ptr : Option Nat) (_size : Nat) : Backend := B

/-- What the destructor hands to `deallocate` of the allocator, in order. -/
def destructor (B : Backend) : Option (List SizeAndPointer) :=
  match B.arrayAllocationVector with
  | none => some []
  | some v =>
      upLoop
        (fun i r => do
          let freed ← r
          let e ← v[i]?
          pure (freed ++ [e]))
        0 B.arraySlotsTaken (some [])

end Backend

/-! ## The heap -/

structure Heap where
  backends : List (Option Backend)
  counts : List (Option Nat)
  /-- The blocks of the allocator, with the backend that asked for each. -/
  blocks : List (Nat × SizeAndPointer)
  /-- The calls of `deallocate` of the allocator. -/
  released : List SizeAndPointer
  /-- The backends that were deleted. -/
  destroyed : List Nat
deriving Repr, DecidableEq

namespace Heap

def empty : Heap := ⟨[], [], [], [], []⟩

def backend? (H : Heap) (b : Nat) : Option Backend := record? H.backends b

def count? (H : Heap) (c : Nat) : Option Nat := record? H.counts c

/-- `new backend_type()`. -/
def newBackend (H : Heap) : Heap × Nat :=
  ({ H with backends := H.backends ++ [some .init] }, H.backends.length)

/-- `new std::size_t(1)`. -/
def newCount (H : Heap) : Heap × Nat :=
  ({ H with counts := H.counts ++ [some 1] }, H.counts.length)

def setCount (H : Heap) (c : Nat) (n : Option Nat) : Heap :=
  { H with counts := H.counts.set c n }

/-- `delete` of a backend. -/
def deleteBackend (H : Heap) (b : Nat) : Option Heap := do
  let B ← H.backend? b
  let freed ← B.destructor
  pure { H with
    backends := H.backends.set b none
    released := H.released ++ freed
    destroyed := H.destroyed ++ [b] }

/-- `allocate` of a backend. -/
def allocate (H : Heap) (b size : Nat) : Option (Heap × Option Nat) := do
  let B ← H.backend? b
  if size = 0 then
    pure (H, none)
  else
    let B ← B.ensureVector
    let k := H.blocks.length
    let B ← B.record ⟨some k, size⟩
    pure ({ H with
      backends := H.backends.set b (some B)
      blocks := H.blocks ++ [(b, ⟨some k, size⟩)] }, some k)

/-- `deallocate` of a backend. -/
def deallocate (H : Heap) (b : Nat) (ptr : Option Nat) (size : Nat) : Option Heap := do
  let B ← H.backend? b
  pure { H with backends := H.backends.set b (some (B.deallocate ptr size)) }

end Heap

/-! ## The shared pointer -/

/-- `trivial_shared_ptr`. -/
structure SharedPtr where
  ptr : Option Nat
  count : Option Nat
deriving Repr, DecidableEq

namespace SharedPtr

def null : SharedPtr := ⟨none, none⟩

/-- `trivial_shared_ptr(T *p)`. -/
def ofPtr (H : Heap) (p : Nat) : Heap × SharedPtr :=
  let r := H.newCount
  (r.1, ⟨some p, some r.2⟩)

/-- `trivial_shared_ptr(const trivial_shared_ptr &other)`. -/
def copy (H : Heap) (other : SharedPtr) : Option (Heap × SharedPtr) :=
  match other.count with
  | none => some (H, other)
  | some c => do
      let n ← H.count? c
      pure (H.setCount c (some (n + 1)), other)

/-- `delete ptr`, which does nothing for a null pointer. -/
def deletePtr (H : Heap) (p : SharedPtr) : Option Heap :=
  match p.ptr with
  | none => some H
  | some b => H.deleteBackend b

/-- `reset`, after which both pointers are null. A count of zero has no
decrement. -/
def reset (H : Heap) (p : SharedPtr) : Option (Heap × SharedPtr) :=
  match p.count with
  | none => some (H, null)
  | some c => do
      match ← H.count? c with
      | 0 => none
      | 1 =>
          let H ← deletePtr H p
          pure (H.setCount c none, null)
      | n + 2 => pure (H.setCount c (some (n + 1)), null)

end SharedPtr

/-! ## Memory objects, pointers and handlers -/

/-- A `typed_dynamic_memory`, by itself, inside a handler, or as the
`_typed_memory` of a synthetic pointer whose `_ptr` is the second field. -/
structure Handle where
  memory : SharedPtr
  ptr : Option Nat
deriving Repr, DecidableEq

/-- All objects there are. An object that was destroyed leaves its number
behind, and a handler is the list of its memories by element type. -/
structure World (Ty : Type) where
  heap : Heap
  handles : List (Option Handle)
  multitypes : List (List (Ty × Nat))

namespace World

variable {Ty : Type}

def empty : World Ty := ⟨.empty, [], []⟩

def handle? (w : World Ty) (h : Nat) : Option Handle := record? w.handles h

/-- A new object. -/
def construct (w : World Ty) (H : Heap) (x : Handle) : World Ty :=
  { w with heap := H, handles := w.handles ++ [some x] }

/-- A new value of an object, or its end. -/
def put (w : World Ty) (H : Heap) (h : Nat) (x : Option Handle) : World Ty :=
  { w with heap := H, handles := w.handles.set h x }

/-- `typed_dynamic_memory()`. -/
def create (w : World Ty) : World Ty :=
  let b := w.heap.newBackend
  let r := SharedPtr.ofPtr b.1 b.2
  w.construct r.1 ⟨r.2, none⟩

/-- The copy of an object. -/
def copy (w : World Ty) (h : Nat) : Option (World Ty) := do
  let x ← w.handle? h
  let (H, p) ← SharedPtr.copy w.heap x.memory
  pure (w.construct H ⟨p, x.ptr⟩)

def reset (w : World Ty) (h : Nat) : Option (World Ty) := do
  let x ← w.handle? h
  let (H, p) ← x.memory.reset w.heap
  pure (w.put H h (some ⟨p, x.ptr⟩))

/-- The destructor of an object. -/
def destroy (w : World Ty) (h : Nat) : Option (World Ty) := do
  let x ← w.handle? h
  let (H, _) ← x.memory.reset w.heap
  pure (w.put H h none)

/-- `h = g`. -/
def assign (w : World Ty) (h g : Nat) : Option (World Ty) :=
  if h = g then some w
  else do
    let w ← w.reset h
    let y ← w.handle? g
    let (H, p) ← SharedPtr.copy w.heap y.memory
    pure (w.put H h (some ⟨p, y.ptr⟩))

/-- `pointer(*this, raw)`: a pointer with a copy of the memory. -/
def pointer (w : World Ty) (m : SharedPtr) (raw : Option Nat) : Option (World Ty) := do
  let (H, p) ← SharedPtr.copy w.heap m
  pure (w.construct H ⟨p, raw⟩)

def allocate (w : World Ty) (h n : Nat) : Option (World Ty) := do
  let x ← w.handle? h
  let b ← x.memory.ptr
  let (H, raw) ← w.heap.allocate b n
  pointer { w with heap := H } x.memory raw

/-- `none()` of the memory. -/
def nullPointer (w : World Ty) (h : Nat) : Option (World Ty) := do
  let x ← w.handle? h
  w.pointer x.memory none

/-- `deallocate(p, n)`, which takes the pointer by value. -/
def deallocate (w : World Ty) (h p n : Nat) : Option (World Ty) := do
  let arg := w.handles.length
  let w ← w.copy p
  let q ← w.handle? arg
  let x ← w.handle? h
  let b ← x.memory.ptr
  let H ← w.heap.deallocate b q.ptr n
  destroy { w with heap := H } arg

/-- The default constructors of the memories of a handler. -/
def createAll (w : World Ty) : List Ty → World Ty × List (Ty × Nat)
  | [] => (w, [])
  | t :: ts =>
      let r := createAll w.create ts
      (r.1, (t, w.handles.length) :: r.2)

variable [DecidableEq Ty]

/-- `get_handler<T>()`. -/
def getHandler (tuple : List (Ty × Nat)) (t : Ty) : Option Nat :=
  (tuple.find? fun e => e.1 = t).map Prod.snd

/-- The memory of a handler for a type. -/
def handlerFor (w : World Ty) (m : Nat) (t : Ty) : Option Nat :=
  (w.multitypes[m]?).bind fun tuple => getHandler tuple t

/-- The copies in the constructor from a larger handler. -/
def copyAll (w : World Ty) (larger : Nat) : List Ty → Option (World Ty × List (Ty × Nat))
  | [] => some (w, [])
  | t :: ts => do
      let h ← w.handlerFor larger t
      let w' ← w.copy h
      let (w'', tuple) ← copyAll w' larger ts
      pure (w'', (t, w.handles.length) :: tuple)

/-- The destructors of the memories of a handler. -/
def destroyAll (w : World Ty) : List (Ty × Nat) → Option (World Ty)
  | [] => some w
  | e :: tuple => do
      let w ← w.destroy e.2
      destroyAll w tuple

inductive Op (Ty : Type) where
  | create
  | copy (h : Nat)
  | assign (h g : Nat)
  | reset (h : Nat)
  | destroy (h : Nat)
  | allocate (h n : Nat)
  | none (h : Nat)
  | deallocate (h p n : Nat)
  | createMultitype (ts : List Ty)
  | downgrade (m : Nat) (ts : List Ty)
  | allocateFor (m : Nat) (t : Ty) (n : Nat)
  | deallocateFor (m : Nat) (t : Ty) (p n : Nat)
  | destroyMultitype (m : Nat)

/-- A handler and its memories. -/
def addMultitype (r : World Ty × List (Ty × Nat)) : World Ty :=
  { r.1 with multitypes := r.1.multitypes ++ [r.2] }

def step (w : World Ty) : Op Ty → Option (World Ty)
  | .create => some w.create
  | .copy h => w.copy h
  | .assign h g => w.assign h g
  | .reset h => w.reset h
  | .destroy h => w.destroy h
  | .allocate h n => w.allocate h n
  | .none h => w.nullPointer h
  | .deallocate h p n => w.deallocate h p n
  | .createMultitype ts => some (addMultitype (w.createAll ts))
  | .downgrade m ts => (w.copyAll m ts).map addMultitype
  | .allocateFor m t n => do
      let h ← w.handlerFor m t
      w.allocate h n
  | .deallocateFor m t p n => do
      let h ← w.handlerFor m t
      w.deallocate h p n
  | .destroyMultitype m => do
      let tuple ← w.multitypes[m]?
      w.destroyAll tuple.reverse

/-! ### What a caller has to keep -/

/-- The object exists. -/
def Alive (w : World Ty) (h : Nat) : Prop := (w.handle? h).isSome = true

/-- The object exists and was not reset. -/
def Usable (w : World Ty) (h : Nat) : Prop :=
  ((w.handle? h).bind fun x => x.memory.ptr).isSome = true

/-- A call on objects that exist. Memory is only asked for and given back
through an object that was not reset. -/
def Legal (w : World Ty) : Op Ty → Prop
  | .create | .createMultitype _ => True
  | .copy h | .reset h | .destroy h | .none h => w.Alive h
  | .assign h g => w.Alive h ∧ w.Alive g
  | .allocate h _ => w.Usable h
  | .deallocate h p _ => w.Usable h ∧ w.Alive p
  | .downgrade m ts => m < w.multitypes.length ∧
      ∀ t ∈ ts, ∃ h ∈ w.handlerFor m t, w.Alive h
  | .allocateFor m t _ => ∃ h ∈ w.handlerFor m t, w.Usable h
  | .deallocateFor m t p _ => (∃ h ∈ w.handlerFor m t, w.Usable h) ∧ w.Alive p
  | .destroyMultitype m => ∃ tuple ∈ w.multitypes[m]?, ∀ e ∈ tuple, w.Alive e.2

instance (w : World Ty) (h : Nat) : Decidable (w.Alive h) :=
  inferInstanceAs (Decidable (_ = true))

instance (w : World Ty) (h : Nat) : Decidable (w.Usable h) :=
  inferInstanceAs (Decidable (_ = true))

instance (w : World Ty) : (op : Op Ty) → Decidable (w.Legal op)
  | .create | .createMultitype _ => isTrue trivial
  | .copy _ | .reset _ | .destroy _ | .none _ | .allocate _ _ =>
      inferInstanceAs (Decidable (_ = true))
  | .assign _ _ | .deallocate _ _ _ | .downgrade _ _ | .deallocateFor _ _ _ _ =>
      inferInstanceAs (Decidable (_ ∧ _))
  | .allocateFor m t _ => inferInstanceAs (Decidable (∃ h ∈ w.handlerFor m t, w.Usable h))
  | .destroyMultitype m =>
      inferInstanceAs (Decidable (∃ tuple ∈ w.multitypes[m]?, ∀ e ∈ tuple, w.Alive e.2))

end World

end Ycetl.Ref
