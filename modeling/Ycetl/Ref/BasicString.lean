import Ycetl.Lib.Pools
import Ycetl.Ref.DynamicArray
import Ycetl.Ref.HashTable

/-!
# `basic_string`

A string is a `dynamic_array` of characters. The functions that search it read
its size and its characters and nothing else, so that they are written over
its `view()`: the row of its characters, whose size is a `size_type` other than
`npos`. Indices are added in `size_type`, and a character past the end is a
call without a result, as is a loop that runs out of rounds.

`append` is about two strings, which may be one. A program has its strings in
one memory, like the arrays they are, and appends between them.
-/

namespace Ycetl.Ref

open Ycetl.Lib

/-- `std::basic_string_view`. -/
structure StringView (CharT : Type) where
  chars : List CharT
  size_lt : chars.length < npos
deriving DecidableEq

namespace StringView

variable {CharT : Type}

def size (s : StringView CharT) : Nat := s.chars.length

/-- `_data[i]`, and `needle[i]`. -/
def at? (s : StringView CharT) (i : Nat) : Option CharT := s.chars[i]?

end StringView

namespace BasicString

variable {CharT : Type}

section

variable [DecidableEq CharT]

/-- `while (j < m && _data[i + j] == needle[j]) ++j;` with `k` characters of
the needle left from `j` on. -/
def matchLoop (s needle : StringView CharT) (i : Nat) : Nat → Nat → Option Nat
  | 0, j => some j
  | k + 1, j => do
      let a ← s.at? (wrap (i + j))
      let b ← needle.at? j
      if a = b then matchLoop s needle i k (j + 1) else pure j

/-- `for (i = from; i + m <= n; ++i)`. -/
def findLoop (s needle : StringView CharT) : Nat → Nat → Option Nat
  | 0, _ => none
  | fuel + 1, i =>
      if wrap (i + needle.size) ≤ s.size then do
        let j ← matchLoop s needle i needle.size 0
        if j = needle.size then pure i else findLoop s needle fuel (wrap (i + 1))
      else some npos

/-- `find(needle, from)`. -/
def find (fuel : Nat) (s needle : StringView CharT) (from' : UInt64) : Option Nat :=
  let n := s.size
  let m := needle.size
  if m = 0 then some (if from'.toNat ≤ n then from'.toNat else npos)
  else if n < m then some npos
  else findLoop s needle fuel from'.toNat

/-- `for (i = from; i < size(); ++i) if (_data[i] == c) return i;` with `k`
characters left from `i` on. -/
def findCharLoop (s : StringView CharT) (c : CharT) : Nat → Nat → Option Nat
  | 0, _ => some npos
  | k + 1, i => do
      let a ← s.at? i
      if a = c then pure i else findCharLoop s c k (i + 1)

/-- `find(c, from)`. -/
def findChar (s : StringView CharT) (c : CharT) (from' : UInt64) : Option Nat :=
  findCharLoop s c (s.size - from'.toNat) from'.toNat

end

/-- `substr(pos, count)`: the characters that are pushed back into the new
string. -/
def substr (s : StringView CharT) (pos count : Nat) : Option (List CharT) :=
  let avail := if pos < s.size then s.size - pos else 0
  let take := if count < avail then count else avail
  slice s.chars pos take

/-! ## Appending -/

open DynamicArray

/-- The strings of a program are their arrays `_data`. -/
abbrev Strings (CharT : Type) := DynamicArray.World CharT

section

variable (alloc : Allocate)

/-- `for (k = 0; k < o.size(); ++k) _data.push_back(o[k]);` from `k` on. String
`i` is the one that is appended to, and string `j` is `o`. -/
def appendLoop : Nat → Strings CharT → Nat → Nat → Nat → Option (Strings CharT)
  | 0, _, _, _, _ => none
  | fuel + 1, w, i, j, k => do
      let o ← w.arrays j
      if k < o.size then do
        let s ← w.arrays i
        appendLoop fuel (w.put i (emplaceBack alloc w.store s (.copy (o.data + k)))) i j (k + 1)
      else pure w

/-- `append(o)`. -/
def append (fuel : Nat) (w : Strings CharT) (i j : Nat) : Option (Strings CharT) := do
  let _ ← w.arrays i
  appendLoop alloc fuel w i j 0

/-- `operator+=(o)`. -/
def plusAssign (fuel : Nat) (w : Strings CharT) (i j : Nat) : Option (Strings CharT) :=
  append alloc fuel w i j

/-- A call of a program over strings: one on the arrays they are, or an
`append` of one string to another. -/
inductive Op (CharT : Type) where
  | array (op : DynamicArray.Op CharT)
  | append (i j : Nat)
  | plusAssign (i j : Nat)

/-- The rounds an `append` of string `j` has if it is not changed by it. -/
def rounds (w : Strings CharT) (j : Nat) : Nat :=
  match w.arrays j with
  | some o => o.size + 1
  | none => 0

def step [Inhabited CharT] (w : Strings CharT) : Op CharT → Option (Strings CharT)
  | .array op => w.step alloc op
  | .append i j => append alloc (rounds w j) w i j
  | .plusAssign i j => plusAssign alloc (rounds w j) w i j

end

end BasicString

end Ycetl.Ref
