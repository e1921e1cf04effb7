import Mathlib.Algebra.Order.Floor.Div

/-!
# Sizes, alignments and the layout of records

An object of a type has a size and an alignment, and the size is a multiple of
the alignment, so that the elements of an array may stand side by side. The
members of a record are laid out one after the other, each at the first place
that is aligned for it, and the record is padded at its end.
-/

namespace Ycetl.Lib

/-! ## Rounding up -/

/-- The least multiple of `a` that is not below `n`. -/
def roundUp (n a : Nat) : Nat := a * (n ⌈/⌉ a)

theorem dvd_roundUp (n a : Nat) : a ∣ roundUp n a := Nat.dvd_mul_right a _

/-! ## Extents -/

/-- How much room an object takes, and where it may stand. -/
@[ext]
structure Extent where
  size : Nat
  align : Nat
  align_pos : 0 < align
  dvd_size : align ∣ size
deriving DecidableEq, Repr

namespace Extent

/-- `n` objects side by side. -/
def array (e : Extent) (n : Nat) : Extent where
  size := n * e.size
  align := e.align
  align_pos := e.align_pos
  dvd_size := Nat.dvd_mul_left_of_dvd e.dvd_size n

/-- Bytes that may stand anywhere. -/
def bytes (n : Nat) : Extent := ⟨n, 1, Nat.one_pos, Nat.one_dvd n⟩

/-- Where the members stand, if the first may stand at `place`. -/
def offsetsFrom (place : Nat) : List Extent → List Nat
  | [] => []
  | e :: es => roundUp place e.align :: offsetsFrom (roundUp place e.align + e.size) es

/-- Where the last member ends. -/
def endFrom (place : Nat) : List Extent → Nat
  | [] => place
  | e :: es => endFrom (roundUp place e.align + e.size) es

def offsets (es : List Extent) : List Nat := offsetsFrom 0 es

/-- The strictest alignment of the members. -/
def alignment (es : List Extent) : Nat := es.foldr (fun e a => max e.align a) 1

theorem alignment_pos (es : List Extent) : 0 < alignment es := by
  cases es with
  | nil => exact Nat.one_pos
  | cons e es => exact Nat.lt_of_lt_of_le e.align_pos (Nat.le_max_left _ _)

/-- A record of these members. -/
def record (es : List Extent) : Extent where
  size := roundUp (endFrom 0 es) (alignment es)
  align := alignment es
  align_pos := alignment_pos es
  dvd_size := dvd_roundUp _ _

end Extent

end Ycetl.Lib
