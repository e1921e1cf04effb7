import Ycetl.Lib.WeakOrder
import Ycetl.Ref.DynamicArray

/-!
# The sorted arrays

`map`, `set`, `multimap` and `multiset` keep their entries in a
`dynamic_array`, sorted by key. The four headers share their two binary
searches and their erase loop; what differs is the entry type and the
projection to the key, and whether an insert looks for an equivalent key
first. The functions below are written once over an entry type `V` and its
`key`, and run on the array of `Ref.DynamicArray`, so that every element that
is read, shifted or destroyed is one of its slots.

`_data[i]` has a value only for an index below the size. An index that does
not, or an element without a value, is a call without a result.
-/

namespace Ycetl.Ref

open Ycetl.Lib

/-- `std::less` on numbers, the order of the concrete runs. -/
def natLess : WeakOrder Nat where
  lt a b := decide (a < b)
  irrefl := by simp
  trans := by
    intro a b c hab hbc
    simp only [decide_eq_true_eq] at hab hbc ⊢
    omega
  incomp_trans := by
    intro a b c hab hba hbc hcb
    simp only [decide_eq_false_iff_not] at hab hba hbc hcb ⊢
    omega

/-- The array `_data` and the store its elements live in. -/
structure Ordered (V : Type) where
  store : Store V
  data : Arr

namespace Ordered

variable {K V : Type}

def empty : Ordered V := ⟨Store.fresh 1, Arr.none⟩

def size (t : Ordered V) : Nat := t.data.size

/-- `_data[i]`. -/
def at? (t : Ordered V) (i : Nat) : Option V :=
  if i < t.size then (t.store.view (t.data.data + i)).join else none

/-- What iteration from `begin()` to `end()` reads. -/
def iterate (t : Ordered V) : List (Option V) := (List.range t.size).map t.at?

/-- `_data.insert(_data.begin() + i, v)`. -/
def insertAt (t : Ordered V) (i : Nat) (v : V) : Ordered V :=
  let r := DynamicArray.insert TypedDynamicMemory.allocate t.store t.data i (.value v)
  ⟨r.1, r.2⟩

/-- A write to the element `_data[i]`. -/
def write (t : Ordered V) (i : Nat) (v : V) : Ordered V :=
  { t with store := t.store.assign (t.data.data + i) (.value v) }

/-- `for (j = i; j + removed < n; ++j) _data[j] = std::move(_data[j + removed]);` -/
def shiftAssign (t : Ordered V) (i removed : Nat) : Store V :=
  upLoop
    (fun j s => s.assign (t.data.data + j) (.move (t.data.data + (j + removed))))
    i (t.size - removed - i) t.store

/-- `for (j = 0; j < removed; ++j) _data.pop_back();` -/
def popLoop (t : Ordered V) (removed : Nat) : Ordered V :=
  upLoop
    (fun _ (t : Ordered V) =>
      let r := DynamicArray.popBack t.store t.data
      ⟨r.1, r.2⟩)
    0 removed t

/-- The two loops of `erase`, which close a gap of `removed` elements. -/
def removeAt (t : Ordered V) (i removed : Nat) : Ordered V :=
  popLoop { t with store := shiftAssign t i removed } removed

def clear (t : Ordered V) : Ordered V :=
  let r := DynamicArray.clear t.store t.data
  ⟨r.1, r.2⟩

section

variable (C : WeakOrder K) (key : V → K)

def lowerBoundIndex (t : Ordered V) (k : K) : Option Nat :=
  bisect (fun mid => (t.at? mid).map fun v => C.lt (key v) k) t.size

def upperBoundIndex (t : Ordered V) (k : K) : Option Nat :=
  bisect (fun mid => (t.at? mid).map fun v => !C.lt k (key v)) t.size

/-- `i < _data.size() && !_cmp(k, _data[i].first)`. -/
def hit (t : Ordered V) (k : K) (i : Nat) : Option Bool :=
  if i < t.size then (t.at? i).map fun v => !C.lt k (key v) else some false

/-- `find`, as an index; `end()` is the size. -/
def find (t : Ordered V) (k : K) : Option Nat := do
  let i ← lowerBoundIndex C key t k
  let b ← hit C key t k i
  pure (if b then i else t.size)

def contains (t : Ordered V) (k : K) : Option Bool := do
  let i ← find C key t k
  pure (i ≠ t.size)

/-! ### Unique keys -/

/-- `insert`, both overloads. -/
def insert (t : Ordered V) (v : V) : Option (Ordered V × Nat × Bool) := do
  let i ← lowerBoundIndex C key t (key v)
  let b ← hit C key t (key v) i
  pure (if b then (t, i, false) else (insertAt t i v, i, true))

def erase (t : Ordered V) (k : K) : Option (Ordered V × Nat) := do
  let i ← lowerBoundIndex C key t k
  let b ← hit C key t k i
  pure (if b then (removeAt t i 1, 1) else (t, 0))

/-! ### Equivalent keys -/

def count (t : Ordered V) (k : K) : Option Nat := do
  let hi ← upperBoundIndex C key t k
  let lo ← lowerBoundIndex C key t k
  pure (hi - lo)

def equalRange (t : Ordered V) (k : K) : Option (Nat × Nat) := do
  let lo ← lowerBoundIndex C key t k
  let hi ← upperBoundIndex C key t k
  pure (lo, hi)

/-- `insert` of the containers that keep equivalent keys. -/
def insertEqual (t : Ordered V) (v : V) : Option (Ordered V × Nat) := do
  let i ← upperBoundIndex C key t (key v)
  pure (insertAt t i v, i)

def eraseEqual (t : Ordered V) (k : K) : Option (Ordered V × Nat) := do
  let lo ← lowerBoundIndex C key t k
  let hi ← upperBoundIndex C key t k
  pure (if lo = hi then (t, 0) else (removeAt t lo (hi - lo), hi - lo))

end

end Ordered

/-! ## The four containers -/

/-- What a call hands back: an iterator and whether it inserted, a reference
to a mapped value, a number of erased entries, an iterator, or nothing. -/
inductive OrderedOut (T : Type) where
  | iter (i : Nat) (inserted : Bool)
  | ref (i : Nat) (value : T)
  | erased (n : Nat)
  | found (i : Nat)
  | done
deriving Repr, DecidableEq

namespace OrderedMap

variable {K T : Type} (C : WeakOrder K)

def insert (t : Ordered (K × T)) (v : K × T) : Option (Ordered (K × T) × Nat × Bool) :=
  Ordered.insert C Prod.fst t v

def insertOrAssign (t : Ordered (K × T)) (k : K) (x : T) :
    Option (Ordered (K × T) × Nat × Bool) := do
  let i ← Ordered.lowerBoundIndex C Prod.fst t k
  let b ← Ordered.hit C Prod.fst t k i
  if b then
    let v ← t.at? i
    pure (t.write i (v.1, x), i, false)
  else pure (t.insertAt i (k, x), i, true)

/-- `operator[]`: the index of the element the reference is to. -/
def index [Inhabited T] (t : Ordered (K × T)) (k : K) :
    Option (Ordered (K × T) × Nat × T) := do
  let i ← Ordered.lowerBoundIndex C Prod.fst t k
  let b ← Ordered.hit C Prod.fst t k i
  let t' := if b then t else t.insertAt i (k, default)
  let v ← t'.at? i
  pure (t', i, v.2)

/-- `m[k] = x`: the write through the reference `operator[]` returns. -/
def indexAssign [Inhabited T] (t : Ordered (K × T)) (k : K) (x : T) :
    Option (Ordered (K × T) × Nat) := do
  let (t', i, _) ← index C t k
  let v ← t'.at? i
  pure (t'.write i (v.1, x), i)

/-- `at`, both overloads: the index of the element the reference is to, and
the mapped value there if the index is that of an element. -/
def atKey (t : Ordered (K × T)) (k : K) : Option (Nat × Option T) := do
  let i ← Ordered.lowerBoundIndex C Prod.fst t k
  pure (i, (t.at? i).map Prod.snd)

inductive Op (K T : Type) where
  | insert (v : K × T)
  | insertOrAssign (k : K) (x : T)
  | index (k : K)
  | indexAssign (k : K) (x : T)
  | erase (k : K)
  | find (k : K)
  | clear

def step [Inhabited T] (t : Ordered (K × T)) :
    Op K T → Option (Ordered (K × T) × OrderedOut T)
  | .insert v => (insert C t v).map fun r => (r.1, .iter r.2.1 r.2.2)
  | .insertOrAssign k x =>
      (insertOrAssign C t k x).map fun r => (r.1, .iter r.2.1 r.2.2)
  | .index k => (index C t k).map fun r => (r.1, .ref r.2.1 r.2.2)
  | .indexAssign k x => (indexAssign C t k x).map fun r => (r.1, .ref r.2 x)
  | .erase k => (Ordered.erase C Prod.fst t k).map fun r => (r.1, .erased r.2)
  | .find k => (Ordered.find C Prod.fst t k).map fun i => (t, .found i)
  | .clear => some (t.clear, .done)

end OrderedMap

namespace OrderedSet

variable {K : Type} (C : WeakOrder K)

def insert (t : Ordered K) (k : K) : Option (Ordered K × Nat × Bool) :=
  Ordered.insert C id t k

/-- `emplace` builds the key and inserts it. -/
def emplace (t : Ordered K) (k : K) : Option (Ordered K × Nat × Bool) := insert C t k

inductive Op (K : Type) where
  | insert (k : K)
  | emplace (k : K)
  | erase (k : K)
  | find (k : K)
  | clear

def step (t : Ordered K) : Op K → Option (Ordered K × OrderedOut Unit)
  | .insert k => (insert C t k).map fun r => (r.1, .iter r.2.1 r.2.2)
  | .emplace k => (emplace C t k).map fun r => (r.1, .iter r.2.1 r.2.2)
  | .erase k => (Ordered.erase C id t k).map fun r => (r.1, .erased r.2)
  | .find k => (Ordered.find C id t k).map fun i => (t, .found i)
  | .clear => some (t.clear, .done)

end OrderedSet

/-- The calls of the two containers that keep equivalent keys. -/
inductive OrderedMultiOp (V K : Type) where
  | insert (v : V)
  | erase (k : K)
  | find (k : K)
  | contains (k : K)
  | count (k : K)
  | equalRange (k : K)
  | clear

/-- What such a call hands back. -/
inductive OrderedMultiOut where
  | iter (i : Nat)
  | number (n : Nat)
  | range (lo hi : Nat)
  | answer (b : Bool)
  | done
deriving Repr, DecidableEq

/-- One call on a container that keeps equivalent keys. -/
def Ordered.multiStep {K V : Type} (C : WeakOrder K) (key : V → K) (t : Ordered V) :
    OrderedMultiOp V K → Option (Ordered V × OrderedMultiOut)
  | .insert v => (Ordered.insertEqual C key t v).map fun r => (r.1, .iter r.2)
  | .erase k => (Ordered.eraseEqual C key t k).map fun r => (r.1, .number r.2)
  | .find k => (Ordered.find C key t k).map fun i => (t, .iter i)
  | .contains k => (Ordered.contains C key t k).map fun b => (t, .answer b)
  | .count k => (Ordered.count C key t k).map fun n => (t, .number n)
  | .equalRange k => (Ordered.equalRange C key t k).map fun r => (t, .range r.1 r.2)
  | .clear => some (t.clear, .done)

namespace OrderedMultimap

variable {K T : Type} (C : WeakOrder K)

def step (t : Ordered (K × T)) (op : OrderedMultiOp (K × T) K) :
    Option (Ordered (K × T) × OrderedMultiOut) :=
  Ordered.multiStep C Prod.fst t op

end OrderedMultimap

namespace OrderedMultiset

variable {K : Type} (C : WeakOrder K)

/-- `emplace` builds the key and inserts it. -/
def emplace (t : Ordered K) (k : K) : Option (Ordered K × Nat) :=
  Ordered.insertEqual C id t k

/-- The calls of the array, and `emplace`, which only the set has. -/
inductive Op (K : Type) where
  | call (op : OrderedMultiOp K K)
  | emplace (k : K)

def step (t : Ordered K) : Op K → Option (Ordered K × OrderedMultiOut)
  | .call op => Ordered.multiStep C id t op
  | .emplace k => (emplace C t k).map fun r => (r.1, .iter r.2)

end OrderedMultiset

end Ycetl.Ref
