import Ycetl.Lib.Probes

/-!
# The open-addressing tables

`unordered_map`, `unordered_set`, `unordered_multimap` and
`unordered_multiset` are four copies of one table: a `dynamic_array` of
slots, a count of live entries, linear probing from the hashed bucket,
tombstones on erase, and a rehash into twice the slots at 70% occupancy. The
table is written once here over an entry type `V` and the projection
`key : V → K` that the header in question hashes and compares, and each
container is that table at its own entry type.

The slot array is the list of the elements of `_slots`. `size_type` is 64 bits
wide; the only products that can leave it are those of `maybe_grow`, and they
wrap there. A reduction modulo a zero capacity and a read past the array are
calls without a result.
-/

namespace Ycetl.Ref

open Ycetl.Lib

/-- The modulus of `std::size_t` arithmetic. -/
def sizeMod : Nat := 2 ^ 64

def wrap (n : Nat) : Nat := n % sizeMod

/-- `size_type(-1)`, the index no slot has. -/
def npos : Nat := sizeMod - 1

inductive SlotState where
  | empty
  | filled
  | tombstone
deriving Repr, DecidableEq

/-- A slot; `kv` is meaningful only while the slot is filled. -/
structure Slot (V : Type) where
  state : SlotState
  kv : V
deriving Repr, DecidableEq

/-- A `Hash` and a `KeyEqual` that agree: the requirements the standard puts
on the pair. -/
structure Hashing (K : Type) where
  hasher : K → UInt64
  eq : K → K → Bool
  eq_refl : ∀ k, eq k k = true
  eq_symm : ∀ {a b}, eq a b = true → eq b a = true
  eq_trans : ∀ {a b c}, eq a b = true → eq b c = true → eq a c = true
  hash_eq : ∀ {a b}, eq a b = true → hasher a = hasher b

/-- The hash of the concrete runs: an integer hashes to itself. -/
def natHashing : Hashing Nat where
  hasher n := UInt64.ofNat n
  eq a b := a == b
  eq_refl := by simp
  eq_symm := by simp
  eq_trans := by simp
  hash_eq := by simp

structure Table (V : Type) where
  slots : List (Slot V)
  size : Nat
deriving Repr, DecidableEq

def initialCapacity : Nat := 8

/-- Grow at 70% occupancy. -/
def maxLoadPct : Nat := 70

namespace Table

variable {K V : Type}

def empty : Table V := ⟨[], 0⟩

def cap (t : Table V) : Nat := t.slots.length

/-- `storage_type new_slots; new_slots.resize(n)`. -/
def freshSlots [Inhabited V] (n : Nat) : List (Slot V) :=
  List.replicate n ⟨.empty, default⟩

def filledAt (slots : List (Slot V)) (i : Nat) : Bool :=
  match slots[i]? with
  | some s => s.state = .filled
  | none => false

/-- `iterator(this, i)`: the constructor advances to the next filled slot. -/
def iterAt (t : Table V) (i : Nat) : Nat := nextMarked (filledAt t.slots) t.cap i

def begin (t : Table V) : Nat := t.iterAt 0

def endIter (t : Table V) : Nat := t.iterAt t.cap

/-- The slots a range-for over the table visits. -/
def iterate (t : Table V) : List Nat := sweep (filledAt t.slots) t.cap t.begin

def clear (t : Table V) : Table V :=
  ⟨t.slots.map fun s => { s with state := .empty }, 0⟩

section

variable [Inhabited V] (H : Hashing K) (key : V → K)

/-- `_hasher(k) % _slots.size()`, which the callers ask for only when there are
slots. -/
def bucketOf (t : Table V) (k : K) : Nat := (H.hasher k).toNat % t.cap

/-- The probe sequence of `k` in a table of `cap` slots. -/
def path (k : K) (cap : Nat) : List Nat := probes ((H.hasher k).toNat % cap) cap

/-- `rehash`'s inner loop: the entry goes to the first empty slot. -/
def placeLoop (v : V) : List Nat → List (Slot V) → List (Slot V)
  | [], ns => ns
  | i :: rest, ns =>
      match ns[i]? with
      | some ⟨.empty, _⟩ => ns.set i ⟨.filled, v⟩
      | _ => placeLoop v rest ns

/-- `rehash`'s outer loop over the old slots. -/
def rehashLoop (newCap : Nat) : List (Slot V) → List (Slot V) → List (Slot V)
  | [], ns => ns
  | ⟨.filled, v⟩ :: rest, ns =>
      rehashLoop newCap rest (placeLoop v (path H (key v) newCap) ns)
  | _ :: rest, ns => rehashLoop newCap rest ns

def rehash (newCap : Nat) (t : Table V) : Option (Table V) :=
  if newCap = 0 ∧ t.slots.any (fun s => s.state = .filled) then none
  else some { t with slots := rehashLoop H key newCap t.slots (freshSlots newCap) }

/-- The test of `maybe_grow`, in `size_t` arithmetic. -/
def growthDue (t : Table V) : Bool :=
  wrap (t.cap * maxLoadPct) < wrap ((t.size + 1) * 100)

def maybeGrow (t : Table V) : Option (Table V) :=
  if t.cap = 0 then some { t with slots := freshSlots initialCapacity }
  else if growthDue t then rehash H key (wrap (t.cap * 2)) t
  else some t

/-- `find_slot`'s loop over the probe sequence. -/
def findLoop (slots : List (Slot V)) (k : K) : List Nat → Nat
  | [] => npos
  | i :: rest =>
      match slots[i]? with
      | some ⟨.empty, _⟩ => npos
      | some ⟨.filled, v⟩ => if H.eq (key v) k then i else findLoop slots k rest
      | some ⟨.tombstone, _⟩ => findLoop slots k rest
      | none => npos

def findSlot (t : Table V) (k : K) : Nat :=
  if t.cap = 0 then npos else findLoop H key t.slots k (path H k t.cap)

def find (t : Table V) (k : K) : Nat :=
  let i := findSlot H key t k
  if i = npos then t.endIter else t.iterAt i

def contains (t : Table V) (k : K) : Bool := findSlot H key t k ≠ npos

/-- The probe loop shared by `insert_slot` and `insert_or_assign`: the first
tombstone seen is reused once an empty slot shows that the key is absent.
`upd` is what the loop does to an entry that is already there. The result is
the slots, the index, and whether an entry was stored. -/
def insertLoop (upd : V → V) (v : V) (slots : List (Slot V)) :
    List Nat → Nat → List (Slot V) × Nat × Bool
  | [], _ => (slots, npos, false)
  | i :: rest, firstTombstone =>
      match slots[i]? with
      | some ⟨.empty, _⟩ =>
          let target := if firstTombstone ≠ npos then firstTombstone else i
          (slots.set target ⟨.filled, v⟩, target, true)
      | some ⟨.tombstone, _⟩ =>
          insertLoop upd v slots rest
            (if firstTombstone = npos then i else firstTombstone)
      | some ⟨.filled, w⟩ =>
          if H.eq (key w) (key v) then (slots.set i ⟨.filled, upd w⟩, i, false)
          else insertLoop upd v slots rest firstTombstone
      | none => (slots, npos, false)

/-- The loop with its preamble `_hasher(k) % cap` and its `++_size`. -/
def insertProbe (upd : V → V) (t : Table V) (v : V) :
    Option (Table V × Nat × Bool) :=
  if t.cap = 0 then none
  else
    let r := insertLoop H key upd v t.slots (path H (key v) t.cap) npos
    some (⟨r.1, if r.2.2 then t.size + 1 else t.size⟩, r.2.1, r.2.2)

def insertSlot (t : Table V) (v : V) : Option (Table V × Nat × Bool) :=
  insertProbe H key id t v

/-- `insert`, both overloads: the index and flag of `insert_slot`. -/
def insert (t : Table V) (v : V) : Option (Table V × Nat × Bool) := do
  let t ← maybeGrow H key t
  let (t, i, ins) ← insertSlot H key t v
  pure (t, t.iterAt i, ins)

/-- `erase` of a table with unique keys. -/
def erase (t : Table V) (k : K) : Table V × Nat :=
  let i := findSlot H key t k
  if i = npos then (t, 0)
  else (⟨t.slots.modify i fun s => { s with state := .tombstone }, t.size - 1⟩, 1)

/-! ### The tables that keep duplicates -/

/-- `insert_impl`'s loop: the first slot that is not filled. -/
def insertFreeLoop (v : V) (slots : List (Slot V)) :
    List Nat → List (Slot V) × Nat × Bool
  | [] => (slots, npos, false)
  | i :: rest =>
      match slots[i]? with
      | some ⟨.filled, _⟩ => insertFreeLoop v slots rest
      | some _ => (slots.set i ⟨.filled, v⟩, i, true)
      | none => (slots, npos, false)

/-- `insert_impl`; the fall-through returns `end()`. -/
def insertImpl (t : Table V) (v : V) : Option (Table V × Nat) := do
  let t ← maybeGrow H key t
  if t.cap = 0 then none
  else
    let r := insertFreeLoop v t.slots (path H (key v) t.cap)
    let t' : Table V := ⟨r.1, if r.2.2 then t.size + 1 else t.size⟩
    some (t', if r.2.2 then t'.iterAt r.2.1 else t'.endIter)

def countLoop (slots : List (Slot V)) (k : K) : List Nat → Nat → Nat
  | [], c => c
  | i :: rest, c =>
      match slots[i]? with
      | some ⟨.empty, _⟩ => c
      | some ⟨.filled, v⟩ =>
          countLoop slots k rest (if H.eq (key v) k then c + 1 else c)
      | some ⟨.tombstone, _⟩ => countLoop slots k rest c
      | none => c

def count (t : Table V) (k : K) : Nat :=
  if t.cap = 0 then 0 else countLoop H key t.slots k (path H k t.cap) 0

def eraseLoop (k : K) : List Nat → List (Slot V) → Nat → List (Slot V) × Nat
  | [], slots, removed => (slots, removed)
  | i :: rest, slots, removed =>
      match slots[i]? with
      | some ⟨.empty, _⟩ => (slots, removed)
      | some ⟨.filled, v⟩ =>
          if H.eq (key v) k then
            eraseLoop k rest (slots.set i ⟨.tombstone, v⟩) (removed + 1)
          else eraseLoop k rest slots removed
      | some ⟨.tombstone, _⟩ => eraseLoop k rest slots removed
      | none => (slots, removed)

def eraseAll (t : Table V) (k : K) : Table V × Nat :=
  if t.cap = 0 then (t, 0)
  else
    let r := eraseLoop H key k (path H k t.cap) t.slots 0
    (⟨r.1, t.size - r.2⟩, r.2)

end

end Table

/-! ## The four containers -/

/-- What a call hands back: an iterator and whether it inserted, a reference
to a mapped value, a number of erased entries, or nothing. -/
inductive TableOut (T : Type) where
  | iter (i : Nat) (inserted : Bool)
  | ref (i : Nat) (value : T)
  | erased (n : Nat)
  | found (i : Nat)
  | done
deriving Repr, DecidableEq

namespace UnorderedMap

variable {K T : Type} [Inhabited K] [Inhabited T] (H : Hashing K)

def insert (t : Table (K × T)) (v : K × T) :
    Option (Table (K × T) × Nat × Bool) :=
  Table.insert H Prod.fst t v

/-- `s.kv.second = x`. -/
def withValue (x : T) (w : K × T) : K × T := (w.1, x)

/-- `insert_or_assign`; its fall-through returns `end()`. -/
def insertOrAssign (t : Table (K × T)) (k : K) (x : T) :
    Option (Table (K × T) × Nat × Bool) := do
  let t ← Table.maybeGrow H Prod.fst t
  let (t, i, ins) ← Table.insertProbe H Prod.fst (withValue x) t (k, x)
  pure (t, if i = npos then t.endIter else t.iterAt i, ins)

/-- `operator[]`: the slot the returned reference lives in. -/
def index (t : Table (K × T)) (k : K) : Option (Table (K × T) × Nat × T) := do
  let t ← Table.maybeGrow H Prod.fst t
  let (t, i, _) ← Table.insertSlot H Prod.fst t (k, default)
  let s ← t.slots[i]?
  pure (t, i, s.kv.2)

/-- `m[k] = x`: the write through the reference `operator[]` returns. -/
def indexAssign (t : Table (K × T)) (k : K) (x : T) :
    Option (Table (K × T) × Nat) := do
  let (t, i, _) ← index H t k
  pure ({ t with slots := t.slots.modify i fun s => ⟨s.state, withValue x s.kv⟩ }, i)

inductive Op (K T : Type) where
  | insert (v : K × T)
  | insertOrAssign (k : K) (x : T)
  | index (k : K)
  | indexAssign (k : K) (x : T)
  | erase (k : K)
  | find (k : K)
  | clear

def step (t : Table (K × T)) : Op K T → Option (Table (K × T) × TableOut T)
  | .insert v => (insert H t v).map fun r => (r.1, .iter r.2.1 r.2.2)
  | .insertOrAssign k x =>
      (insertOrAssign H t k x).map fun r => (r.1, .iter r.2.1 r.2.2)
  | .index k => (index H t k).map fun r => (r.1, .ref r.2.1 r.2.2)
  | .indexAssign k x => (indexAssign H t k x).map fun r => (r.1, .ref r.2 x)
  | .erase k => some ((Table.erase H Prod.fst t k).1,
      .erased (Table.erase H Prod.fst t k).2)
  | .find k => some (t, .found (Table.find H Prod.fst t k))
  | .clear => some (t.clear, .done)

end UnorderedMap

namespace UnorderedSet

variable {K : Type} [Inhabited K] (H : Hashing K)

def insert (t : Table K) (k : K) : Option (Table K × Nat × Bool) :=
  Table.insert H id t k

/-- `emplace` builds the key and inserts it. -/
def emplace (t : Table K) (k : K) : Option (Table K × Nat × Bool) := insert H t k

inductive Op (K : Type) where
  | insert (k : K)
  | emplace (k : K)
  | erase (k : K)
  | find (k : K)
  | clear

def step (t : Table K) : Op K → Option (Table K × TableOut Unit)
  | .insert k => (insert H t k).map fun r => (r.1, .iter r.2.1 r.2.2)
  | .emplace k => (emplace H t k).map fun r => (r.1, .iter r.2.1 r.2.2)
  | .erase k => some ((Table.erase H id t k).1, .erased (Table.erase H id t k).2)
  | .find k => some (t, .found (Table.find H id t k))
  | .clear => some (t.clear, .done)

end UnorderedSet

/-- The calls of the two tables that keep duplicates. -/
inductive MultiOp (V K : Type) where
  | insert (v : V)
  | erase (k : K)
  | find (k : K)
  | contains (k : K)
  | count (k : K)
  | clear

/-- What such a call hands back. -/
inductive MultiOut where
  | iter (i : Nat)
  | number (n : Nat)
  | answer (b : Bool)
  | done
deriving Repr, DecidableEq

/-- One call on a table that keeps duplicates. -/
def Table.multiStep {K V : Type} [Inhabited V] (H : Hashing K) (key : V → K)
    (t : Table V) : MultiOp V K → Option (Table V × MultiOut)
  | .insert v => (Table.insertImpl H key t v).map fun r => (r.1, .iter r.2)
  | .erase k => some ((Table.eraseAll H key t k).1,
      .number (Table.eraseAll H key t k).2)
  | .find k => some (t, .iter (Table.find H key t k))
  | .contains k => some (t, .answer (Table.contains H key t k))
  | .count k => some (t, .number (Table.count H key t k))
  | .clear => some (t.clear, .done)

namespace UnorderedMultimap

variable {K T : Type} [Inhabited K] [Inhabited T] (H : Hashing K)

def insert (t : Table (K × T)) (v : K × T) : Option (Table (K × T) × Nat) :=
  Table.insertImpl H Prod.fst t v

def step (t : Table (K × T)) (op : MultiOp (K × T) K) :
    Option (Table (K × T) × MultiOut) :=
  Table.multiStep H Prod.fst t op

end UnorderedMultimap

namespace UnorderedMultiset

variable {K : Type} [Inhabited K] (H : Hashing K)

def insert (t : Table K) (k : K) : Option (Table K × Nat) :=
  Table.insertImpl H id t k

/-- `emplace` builds the key and inserts it. -/
def emplace (t : Table K) (k : K) : Option (Table K × Nat) := insert H t k

/-- The calls of the table, and `emplace`, which only the set has. -/
inductive Op (K : Type) where
  | call (op : MultiOp K K)
  | emplace (k : K)

def step (t : Table K) : Op K → Option (Table K × MultiOut)
  | .call op => Table.multiStep H id t op
  | .emplace k => (emplace H t k).map fun r => (r.1, .iter r.2)

end UnorderedMultiset

end Ycetl.Ref
