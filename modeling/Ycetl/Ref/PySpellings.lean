import Ycetl.Ref.Webgpu

/-!
# What typedefs and `ctypes` expressions stand for

`build_py_map` is given the C spelling of the type each typedef stands for, and
answers Python expressions. This module says what the two sides mean, apart
from how the one is made of the other. A spelling is a name with `const` in
front of it, a star behind it and the sizes of an array after that; it is
expanded through the typedefs down to a name that is none. An expression is
a name that is multiplied by numbers, and Python multiplies from the left.
-/

namespace Ycetl.Ref.Webgpu

open Ycetl.Lib

/-- A type that has a name in `ctypes`, or an array. -/
inductive CType where
  | named (s : Text)
  | array (n : Nat) (elem : CType)
deriving DecidableEq

/-! ## Expressions -/

/-- `ty * n * m ...` -/
def readTimes : CType → List Text → Option CType
  | ty, [] => some ty
  | _, [_] => none
  | ty, star :: d :: rest =>
      if star = ['*'] then (numeral? d).bind fun n => readTimes (.array n ty) rest else none

/-- The type a `ctypes` expression denotes. -/
def readExpr (text : Text) : Option CType :=
  match text.splitOn ' ' with
  | [] => none
  | name :: rest => readTimes (.named name) rest

/-! ## Spellings -/

structure Spelling where
  isConst : Bool
  name : Text
  pointer : Bool
  dims : List Nat

namespace Spelling

/-- ` *`, and the sizes in brackets. -/
def suffix (s : Spelling) : Text :=
  (if s.pointer then [' ', '*'] else []) ++ s.dims.flatMap fun n => '[' :: (numeral n ++ [']'])

def text (s : Spelling) : Text :=
  (if s.isConst then "const ".toList else []) ++ (s.name ++ s.suffix)

/-- How many elements an array of these sizes has. -/
def elements (dims : List Nat) : Nat := dims.foldr (· * ·) 1

end Spelling

/-- An identifier is no keyword, and nothing in it separates words. -/
def Identifier (s : Text) : Prop :=
  s ≠ [] ∧ s ≠ "const".toList ∧ ∀ c ∈ s, c ≠ ' ' ∧ c ≠ '*' ∧ c ≠ '['

namespace ApiTree

variable (tree : ApiTree)

def IsTag (s : Text) : Prop :=
  s ∈ tree.enums.map EnumInfo.name ∨ s ∈ tree.records.map RecordInfo.name

def IsTypedef (s : Text) : Prop := s ∈ tree.typedefs.map TypedefInfo.name

/-- The spelling leads on to another typedef: it is not a pointer, and its name
is one of a typedef and of nothing else. -/
def Follows (s : Spelling) : Prop :=
  s.pointer = false ∧ base.lookup s.name = none ∧ ¬ tree.IsTag s.name ∧ tree.IsTypedef s.name

end ApiTree

/-- What a spelling expands to, where `spelling` gives the type each typedef
stands for. The elements of an array are counted over all its sizes. -/
inductive Expands (tags typedefs : Text → Prop) (spelling : Text → Spelling) :
    Spelling → CType → Prop
  | pointer (b : Bool) (s : Text) :
      Expands tags typedefs spelling ⟨b, s, true, []⟩ (.named cVoidP)
  | base (b : Bool) {s c : Text} (h : base.lookup s = some c) :
      Expands tags typedefs spelling ⟨b, s, false, []⟩ (.named c)
  | tag (b : Bool) {s : Text} (hbase : Webgpu.base.lookup s = none) (h : tags s) :
      Expands tags typedefs spelling ⟨b, s, false, []⟩ (.named s)
  | typedef (b : Bool) {s : Text} {ty : CType} (hbase : Webgpu.base.lookup s = none)
      (htag : ¬ tags s) (h : typedefs s) (hty : Expands tags typedefs spelling (spelling s) ty) :
      Expands tags typedefs spelling ⟨b, s, false, []⟩ ty
  | array {b p : Bool} {s : Text} {n : Nat} {dims : List Nat} {ty : CType}
      (hty : Expands tags typedefs spelling ⟨b, s, p, []⟩ ty) :
      Expands tags typedefs spelling ⟨b, s, p, n :: dims⟩
        (.array (Spelling.elements (n :: dims)) ty)

/-- The expansion among the declarations of a tree. -/
abbrev ApiTree.Expands (tree : ApiTree) (spelling : Text → Spelling) : Spelling → CType → Prop :=
  Webgpu.Expands tree.IsTag tree.IsTypedef spelling

/-- The typedefs of the tree are spelled by names it knows, and lead nowhere in
a circle. A typedef with the name of an enum or a record is the one of that
enum or record. -/
structure WellSpelled (tree : ApiTree) (spelling : Text → Spelling) : Prop where
  underlying : ∀ t ∈ tree.typedefs, t.underlying = (spelling t.name).text
  identifiers : ∀ s, tree.IsTag s ∨ tree.IsTypedef s → Identifier s
  known : ∀ t ∈ tree.typedefs, (base.lookup (spelling t.name).name).isSome ∨
    tree.IsTag (spelling t.name).name ∨ tree.IsTypedef (spelling t.name).name
  own_tag : ∀ t ∈ tree.typedefs, tree.IsTag t.name →
    ∃ b, spelling t.name = ⟨b, t.name, false, []⟩
  acyclic : ∃ rank : Text → Nat, ∀ t ∈ tree.typedefs, tree.Follows (spelling t.name) →
    rank (spelling t.name).name < rank t.name

/-- The map the loop of `build_py_map` begins with. -/
def ApiTree.start (tree : ApiTree) : PyTypeMap :=
  ⟨[], tree.enums.map EnumInfo.name, tree.records.map RecordInfo.name⟩

/-- The loop stops, every typedef has an expression that denotes what it
expands to, and whatever order the typedefs are in, the map is the same. -/
structure ResolvesTypedefs (tree : ApiTree) (spelling : Text → Spelling) : Prop where
  terminates : ∃ k ≤ tree.typedefs.length,
    (((fun m : PyTypeMap => (m.pass false tree.typedefs).1)^[k] tree.start).pass false
      tree.typedefs).2 = false
  denotes : ∀ t ∈ tree.typedefs, ∃ text ty,
    (buildPyMap tree).typedefToCtypes.lookup t.name = some text ∧
      tree.Expands spelling (spelling t.name) ty ∧ readExpr text = some ty
  any_order : ∀ ts, ts.Perm tree.typedefs → ∀ s,
    (buildPyMap { tree with typedefs := ts }).typedefToCtypes.lookup s =
      (buildPyMap tree).typedefToCtypes.lookup s

/-- Of the sizes of an array the first is the number of its elements; and if
its element leads on to a typedef, then to one that expands to `c_void_p`. -/
def ArraysSettled (tree : ApiTree) (spelling : Text → Spelling) : Prop :=
  ∀ t ∈ tree.typedefs, ∀ n dims, (spelling t.name).dims = n :: dims →
    Spelling.elements (n :: dims) = n ∧ (tree.Follows (spelling t.name) →
      tree.Expands spelling (spelling (spelling t.name).name) (.named cVoidP))

end Ycetl.Ref.Webgpu
