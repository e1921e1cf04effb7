import Ycetl.Lib.Runs
import Ycetl.Lib.WordRows

/-!
# `bitset`

A bitset of `N` bits in an array of 64-bit words, bit `i` in word `i / 64` at
position `i % 64`. `N` is a template parameter of type `std::size_t`, and the
number of words is computed from it in that type. The array has one word where
that number is zero, so that there is always something to store in.

A word is reached by its index, and an index past the array is a call without
a result. The operators that take a bitset by value answer a new one. A run has
a pool of bitsets of one size, and its calls name them by their place in it.
-/

namespace Ycetl.Ref

open Ycetl.Lib

namespace Bitset

def bitsPerWord : UInt64 := 64

def wordCount (N : UInt64) : UInt64 := (N + bitsPerWord - 1) / bitsPerWord

/-- At least one word so empty `bitset<0>` still has well-defined storage. -/
def storageCount (N : UInt64) : Nat := if wordCount N = 0 then 1 else (wordCount N).toNat

/-- Mask of bits actually inside the bitset within the last word. -/
def tailMask (N : UInt64) : BitVec 64 :=
  if N = 0 ∨ N % bitsPerWord = 0 then ~~~0#64
  else (1#64 <<< (N.toNat % 64)) - 1#64

theorem storageCount_pos (N : UInt64) : 0 < storageCount N := by
  rw [storageCount]
  split
  · exact Nat.one_pos
  next h =>
    rw [Nat.pos_iff_ne_zero, ← UInt64.toNat_zero]
    exact fun h₀ => h (UInt64.toNat_inj.mp h₀)

end Bitset

/-- `_words`, an array of `storage_count` words. -/
structure Bitset (N : UInt64) where
  words : List (BitVec 64)
  length_words : words.length = Bitset.storageCount N
deriving Repr, DecidableEq

namespace Bitset

variable {N : UInt64}

def clearTail (b : Bitset N) : Bitset N :=
  if wordCount N ≠ 0 then
    ⟨b.words.modify ((wordCount N).toNat - 1) (· &&& tailMask N),
      (List.length_modify ..).trans b.length_words⟩
  else b

/-- `bitset()`. -/
def empty : Bitset N := ⟨List.replicate (storageCount N) 0#64, List.length_replicate⟩

/-- `bitset(word_type)`: bits 0..63 take the low `N` bits. -/
def ofWord (v : BitVec 64) : Bitset N :=
  clearTail (if wordCount N ≠ 0 then
      ⟨(empty : Bitset N).words.set 0 v, List.length_set.trans empty.length_words⟩
    else empty)

def test (b : Bitset N) (i : Nat) : Option Bool :=
  b.words[i / 64]?.map fun w : BitVec 64 => (w >>> (i % 64) &&& 1#64) != 0#64

/-- `_words[k] = f(_words[k])`. -/
def modifyWord (b : Bitset N) (k : Nat) (f : BitVec 64 → BitVec 64) : Option (Bitset N) :=
  if k < storageCount N then
    some ⟨b.words.modify k f, (List.length_modify ..).trans b.length_words⟩
  else none

/-- `for (auto &w : _words) w = f(w);` -/
def mapWords (b : Bitset N) (f : BitVec 64 → BitVec 64) : Bitset N :=
  ⟨b.words.map f, (List.length_map f).trans b.length_words⟩

/-- `for (i = 0; i < storage_count; ++i) _words[i] = f(_words[i], o._words[i]);` -/
def zipWords (b o : Bitset N) (f : BitVec 64 → BitVec 64 → BitVec 64) : Bitset N :=
  ⟨List.zipWith f b.words o.words, by
    rw [List.length_zipWith, b.length_words, o.length_words, Nat.min_self]⟩

/-- `set(i, v)`. -/
protected def set (b : Bitset N) (i : Nat) (v : Bool) : Option (Bitset N) :=
  let mask := 1#64 <<< (i % 64)
  modifyWord b (i / 64) fun w => if v then w ||| mask else w &&& ~~~mask

/-- `set()`. -/
def setAll (b : Bitset N) : Bitset N := clearTail (b.mapWords fun _ => ~~~0#64)

/-- `reset(i)`. -/
protected def reset (b : Bitset N) (i : Nat) : Option (Bitset N) := b.set i false

/-- `reset()`. -/
def resetAll (b : Bitset N) : Bitset N := b.mapWords fun _ => 0#64

/-- `flip(i)`. -/
protected def flip (b : Bitset N) (i : Nat) : Option (Bitset N) :=
  modifyWord b (i / 64) fun w => w ^^^ 1#64 <<< (i % 64)

/-- `flip()`. -/
def flipAll (b : Bitset N) : Bitset N := clearTail (b.mapWords fun w => ~~~w)

/-- The loop of `count`: `while (w) { w &= w - 1; ++c; }`. -/
def countWord (w : BitVec 64) (c : Nat) : Nat :=
  if w = 0 then c else countWord (w &&& (w - 1)) (c + 1)
termination_by w.toNat
decreasing_by exact clear_lowest_lt ‹_›

def count (b : Bitset N) : Nat := b.words.foldl (fun c w => countWord w c) 0

protected def any (b : Bitset N) : Bool := b.words.any fun w => w != 0#64

protected def none (b : Bitset N) : Bool := !b.any

protected def all (b : Bitset N) : Bool := b.count == N.toNat

/-- `operator&=`. -/
def andAssign (b o : Bitset N) : Bitset N := zipWords b o (· &&& ·)

/-- `operator|=`. -/
def orAssign (b o : Bitset N) : Bitset N := zipWords b o (· ||| ·)

/-- `operator^=`. -/
def xorAssign (b o : Bitset N) : Bitset N := clearTail (zipWords b o (· ^^^ ·))

/-- `operator&`, on a copy of the first. -/
protected def and (a b : Bitset N) : Bitset N := a.andAssign b

/-- `operator|`. -/
protected def or (a b : Bitset N) : Bitset N := a.orAssign b

/-- `operator^`. -/
protected def xor (a b : Bitset N) : Bitset N := a.xorAssign b

/-- `operator~`. -/
def complement (b : Bitset N) : Bitset N := b.flipAll

/-- `operator==`. -/
def eq (a b : Bitset N) : Bool := (a.words.zip b.words).all fun p => !(p.1 != p.2)

/-- A call of a run. An index into the pool names the bitset the call is on,
and the second one its other operand. -/
inductive Op where
  | create
  | createWord (v : BitVec 64)
  | set (a i : Nat) (v : Bool)
  | setAll (a : Nat)
  | reset (a i : Nat)
  | resetAll (a : Nat)
  | flip (a i : Nat)
  | flipAll (a : Nat)
  | andAssign (a o : Nat)
  | orAssign (a o : Nat)
  | xorAssign (a o : Nat)
  | and (a o : Nat)
  | or (a o : Nat)
  | xor (a o : Nat)
  | complement (a : Nat)
deriving Repr, DecidableEq

section

variable {β : Type} (s : List β)

/-- A member function that changes the object it is called on. -/
def onOne (a : Nat) (f : β → Option β) : Option (List β) :=
  s[a]?.bind fun b => (f b).map fun b' => s.set a b'

/-- The same with a second object, which it reads. -/
def onTwo (a o : Nat) (f : β → β → β) : Option (List β) :=
  s[o]?.bind fun c => onOne s a fun b => some (f b c)

/-- An operator of one object that answers a new one. -/
def newOfOne (a : Nat) (f : β → β) : Option (List β) :=
  s[a]?.map fun b => s ++ [f b]

/-- An operator of two objects that answers a new one. -/
def newOfTwo (a o : Nat) (f : β → β → β) : Option (List β) :=
  s[o]?.bind fun c => newOfOne s a fun b => f b c

end

def step (s : List (Bitset N)) : Op → Option (List (Bitset N))
  | .create => some (s ++ [empty])
  | .createWord v => some (s ++ [ofWord v])
  | .set a i v => onOne s a (·.set i v)
  | .setAll a => onOne s a fun b => some b.setAll
  | .reset a i => onOne s a (·.reset i)
  | .resetAll a => onOne s a fun b => some b.resetAll
  | .flip a i => onOne s a (·.flip i)
  | .flipAll a => onOne s a fun b => some b.flipAll
  | .andAssign a o => onTwo s a o andAssign
  | .orAssign a o => onTwo s a o orAssign
  | .xorAssign a o => onTwo s a o xorAssign
  | .and a o => newOfTwo s a o Bitset.and
  | .or a o => newOfTwo s a o Bitset.or
  | .xor a o => newOfTwo s a o Bitset.xor
  | .complement a => newOfOne s a complement

/-- The objects the call names are among the first `n`, and its index is below
`N`. -/
def Op.Legal (N : UInt64) (n : Nat) : Op → Prop
  | .create | .createWord _ => True
  | .set a i _ | .reset a i | .flip a i => a < n ∧ i < N.toNat
  | .setAll a | .resetAll a | .flipAll a | .complement a => a < n
  | .andAssign a o | .orAssign a o | .xorAssign a o => a < n ∧ o < n
  | .and a o | .or a o | .xor a o => a < n ∧ o < n

instance (N : UInt64) (n : Nat) : ∀ op : Op, Decidable (op.Legal N n)
  | .create | .createWord _ => inferInstanceAs (Decidable True)
  | .set .. | .reset .. | .flip .. => inferInstanceAs (Decidable (_ ∧ _))
  | .setAll _ | .resetAll _ | .flipAll _ | .complement _ => inferInstanceAs (Decidable (_ < _))
  | .andAssign .. | .orAssign .. | .xorAssign .. => inferInstanceAs (Decidable (_ ∧ _))
  | .and .. | .or .. | .xor .. => inferInstanceAs (Decidable (_ ∧ _))

end Bitset

end Ycetl.Ref
