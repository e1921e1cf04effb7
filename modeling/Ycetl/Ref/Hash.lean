import Ycetl.Ref.HashTable

/-!
# Hashing integers

`hash.hpp` defines `hash<T>` for the integer types by one macro: the key is
converted to `std::uint64_t` and mixed. The conversion keeps the value modulo
`2 ^ 64`, so it extends a signed key by its sign bit and an unsigned one by
zeros. How wide the types are and whether `char` is signed is up to the
implementation, as long as no type is wider than 64 bits.
-/

namespace Ycetl.Ref

namespace HashDetail

/-- Wang's 64-bit integer mix. -/
def mix64 (x : UInt64) : UInt64 :=
  let x := (~~~x) + (x <<< 21)
  let x := x ^^^ (x >>> 24)
  let x := (x + (x <<< 3)) + (x <<< 8)
  let x := x ^^^ (x >>> 14)
  let x := (x + (x <<< 2)) + (x <<< 4)
  let x := x ^^^ (x >>> 28)
  let x := x + (x <<< 31)
  x

end HashDetail

/-- The types `YCETL_DEFINE_INT_HASH` is used at. -/
inductive IntType where
  | bool
  | char
  | signedChar
  | unsignedChar
  | short
  | unsignedShort
  | int
  | unsignedInt
  | long
  | unsignedLong
  | longLong
  | unsignedLongLong
deriving Repr, DecidableEq

/-- What the implementation chooses: the value bits of each type, and the
signedness of `char`. -/
structure DataModel where
  width : IntType → Nat
  width_le : ∀ t, width t ≤ 64
  charSigned : Bool

namespace DataModel

/-- 64-bit Linux: `long` and `long long` take the whole word. -/
def lp64 : DataModel where
  width
    | .bool => 1
    | .char | .signedChar | .unsignedChar => 8
    | .short | .unsignedShort => 16
    | .int | .unsignedInt => 32
    | .long | .unsignedLong | .longLong | .unsignedLongLong => 64
  width_le t := by cases t <;> decide
  charSigned := true

variable (m : DataModel)

def signed : IntType → Bool
  | .bool | .unsignedChar | .unsignedShort => false
  | .unsignedInt | .unsignedLong | .unsignedLongLong => false
  | .char => m.charSigned
  | .signedChar | .short | .int | .long | .longLong => true

/-- A value of type `t`, as the bits that represent it. -/
abbrev Value (t : IntType) : Type := BitVec (m.width t)

/-- `static_cast<std::uint64_t>(v)`. -/
def toUInt64 (t : IntType) (v : m.Value t) : UInt64 :=
  .ofBitVec (if m.signed t then v.signExtend 64 else v.setWidth 64)

/-- `hash<T>::operator()`. -/
def hash (t : IntType) (v : m.Value t) : UInt64 := HashDetail.mix64 (m.toUInt64 t v)

/-- The default template arguments of a container of integer keys: `hash<T>`
and `==`. -/
def hashing (t : IntType) : Hashing (m.Value t) where
  hasher := m.hash t
  eq a b := a == b
  eq_refl := by simp
  eq_symm := by simp
  eq_trans := by simp
  hash_eq := by simp

end DataModel

/-! ## Strings -/

namespace Fnv1a

def offsetBasis : UInt64 := 14695981039346656037

def prime : UInt64 := 1099511628211

/-- `h ^= byte; h *= prime;` -/
def step (h : UInt64) (byte : UInt8) : UInt64 := (h ^^^ byte.toUInt64) * prime

/-- `fnv1a_hash`, of the bytes of a string. -/
def hash (str : List UInt8) : UInt64 := str.foldl step offsetBasis

end Fnv1a

/-- The default template arguments of a container of string keys. -/
def stringHashing : Hashing (List UInt8) where
  hasher := Fnv1a.hash
  eq a b := a == b
  eq_refl := by simp
  eq_symm := by simp
  eq_trans := by simp
  hash_eq := by simp

/-! ## Random numbers -/

structure Random where
  state : UInt64

namespace Random

/-- `std::uint8_t byte = (x >> (i * 8)) & 0xFF;` -/
def byte (x : UInt64) (i : Nat) : UInt8 := ((x >>> UInt64.ofNat (i * 8)) &&& 0xFF).toUInt8

/-- `random::fnv1a_hash`: its loop is over the bytes of the word. -/
def distribute (x : UInt64) : UInt64 :=
  (List.range 8).foldl (fun hash i => (hash ^^^ (byte x i).toUInt64) * Fnv1a.prime)
    Fnv1a.offsetBasis

def seeded (seed : UInt64) : Random := ⟨if seed = 0 then 1 else seed⟩

def next (r : Random) : UInt64 × Random := (distribute r.state, ⟨distribute r.state⟩)

end Random

end Ycetl.Ref
