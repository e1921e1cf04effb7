import Ycetl.Lib.Layouts
import Ycetl.Ref.Macros

/-!
# From a header to the tree

`webgpu_introspect` does not read the header itself. libclang does, and the
tool walks its cursors: what it asks a cursor or a type, and what libclang
answers, is the data of `Cursor` and `CXType`. A type knows its size and its
alignment where it has them; those of the arithmetic types and of pointers are
what the `Target` says. A `typedef` or an elaborated type is only ever asked
for the canonical type it stands for.

`main` sorts what was found by name. `std::sort` leaves elements with equal
names in any order, so sorting is a relation here.
-/

namespace Ycetl.Ref.Webgpu

open Ycetl.Lib

/-! ## Types -/

/-- What the compiler chooses: the extents of the arithmetic types and of
pointers. The signed and the unsigned types of a rank have the same, and the
characters are single bytes. -/
structure Target where
  bool : Extent
  short : Extent
  int : Extent
  long : Extent
  longLong : Extent
  float : Extent
  double : Extent
  pointer : Extent
  sizeT : Extent
  int16 : Extent
  int32 : Extent
  int64 : Extent

/-- A scalar of `n` bytes, aligned to its size. -/
def scalar (n : Nat) (h : 0 < n) : Extent := ⟨n, n, h, Nat.dvd_refl n⟩

/-- Longs and pointers have eight bytes. -/
def lp64 : Target where
  bool := Extent.bytes 1
  short := scalar 2 (by decide)
  int := scalar 4 (by decide)
  long := scalar 8 (by decide)
  longLong := scalar 8 (by decide)
  float := scalar 4 (by decide)
  double := scalar 8 (by decide)
  pointer := scalar 8 (by decide)
  sizeT := scalar 8 (by decide)
  int16 := scalar 2 (by decide)
  int32 := scalar 4 (by decide)
  int64 := scalar 8 (by decide)

/-- The kinds of types that have a `ctypes` type of their own. -/
inductive Builtin where
  | void
  | bool
  | charS
  | sChar
  | charU
  | uChar
  | short
  | uShort
  | int
  | uInt
  | long
  | uLong
  | longLong
  | uLongLong
  | float
  | double
deriving DecidableEq, Repr

def Target.builtin (T : Target) : Builtin → Option Extent
  | .void => none
  | .bool => some T.bool
  | .charS | .sChar | .charU | .uChar => some (Extent.bytes 1)
  | .short | .uShort => some T.short
  | .int | .uInt => some T.int
  | .long | .uLong => some T.long
  | .longLong | .uLongLong => some T.longLong
  | .float => some T.float
  | .double => some T.double

/-- A type, as libclang shows it. A record without a tag has an empty spelling,
and one that is not complete no extent. -/
inductive CXType where
  | builtin (kind : Builtin)
  | pointer (pointee : CXType)
  | enum (integer : CXType)
  | record (spelling : Text) (extent : Option Extent)
  | constantArray (elem : CXType) (size : Nat)
  | incompleteArray (elem : CXType)
  | functionProto (result : CXType) (args : List CXType)
  | functionNoProto (result : CXType)
  | sugar (canonical : CXType)
  | other (extent : Option Extent)

namespace CXType

def extent (T : Target) : CXType → Option Extent
  | builtin kind => T.builtin kind
  | pointer _ => some T.pointer
  | enum integer => integer.extent T
  | record _ e => e
  | constantArray elem n => (elem.extent T).map (·.array n)
  | sugar c => c.extent T
  | other e => e
  | incompleteArray _ | functionProto .. | functionNoProto _ => none

/-- `clang_getCanonicalType`, as far as the kind of the type goes. -/
def canonical : CXType → CXType
  | sugar c => c.canonical
  | t => t

/-- `clang_Type_getSizeOf`: a negative number is an error, and a function has
the size 1 that it has for `sizeof` in GNU C. -/
def getSizeOf (T : Target) (t : CXType) : Int64 :=
  match t.canonical with
  | functionProto .. | functionNoProto _ => 1
  | c =>
      match c.extent T with
      | some e => .ofNat e.size
      | none => -2

end CXType

def Builtin.ctypes : Builtin → Text
  | .void => "None".toList
  | .bool => "c_bool".toList
  | .charS | .sChar => "c_char".toList
  | .charU | .uChar => "c_ubyte".toList
  | .short => "c_short".toList
  | .uShort => "c_ushort".toList
  | .int => "c_int".toList
  | .uInt => "c_uint".toList
  | .long => "c_long".toList
  | .uLong => "c_ulong".toList
  | .longLong => "c_longlong".toList
  | .uLongLong => "c_ulonglong".toList
  | .float => "c_float".toList
  | .double => "c_double".toList

/-- The `default` of `ctypes_for`: keep the right footprint. -/
def ctypesOfSize (size : Int64) : Text :=
  if size = 1 then "c_uint8".toList
  else if size = 2 then "c_uint16".toList
  else if size = 4 then "c_uint32".toList
  else if size = 8 then "c_uint64".toList
  else cVoidP

def ctypesFor (T : Target) : CXType → Text
  | .builtin kind => kind.ctypes
  | .pointer _ => cVoidP
  | .enum integer => ctypesFor T integer
  | .record name e =>
      if name = [] then
        let sizeBytes := (CXType.record name e).getSizeOf T
        "(c_char * ".toList ++ decimal (if 0 < sizeBytes then sizeBytes else 0).toInt ++
          ")".toList
      else name
  | .constantArray elem n => ctypesFor T elem ++ " * ".toList ++ numeral n
  | .sugar c => ctypesFor T c
  | t => ctypesOfSize (t.getSizeOf T)

/-- The loop of `record_dependency`: the canonical type, and the canonical type
of its element as long as it is an array. -/
def CXType.innermost : CXType → CXType
  | sugar c => c.innermost
  | constantArray elem _ => elem.innermost
  | incompleteArray elem => elem.innermost
  | t => t

def recordDependency (t : CXType) : Text :=
  match t.innermost with
  | .record name _ => name
  | _ => []

/-! ## Cursors -/

structure FieldCursor where
  spelling : Text
  type : CXType
  typeSpelling : Text
  /-- In bits, or negative. -/
  offset : Int64

structure StructCursor where
  fromMainHeader : Bool
  spelling : Text
  isDefinition : Bool
  type : CXType
  fields : List FieldCursor

structure EnumCursor where
  fromMainHeader : Bool
  spelling : Text
  isDefinition : Bool
  /-- The children; what is no enumerator is `none`. -/
  children : List (Option EnumValue)

structure TypedefCursor where
  fromMainHeader : Bool
  spelling : Text
  underlying : CXType
  underlyingSpelling : Text

/-- The result and the parameters, if it is a pointer to functions. -/
def TypedefCursor.prototype (decl : TypedefCursor) : Option (CXType × List CXType) :=
  match decl.underlying.canonical with
  | .pointer pointee => match pointee.canonical with
      | .functionProto result args => some (result, args)
      | .functionNoProto result => some (result, [])
      | _ => none
  | _ => none

structure FunctionCursor where
  fromMainHeader : Bool
  spelling : Text
  result : CXType
  args : List CXType

inductive EvalResult where
  | int (v : Int64)
  | other

structure VarCursor where
  fromMainHeader : Bool
  spelling : Text
  isConst : Bool
  value : Option EvalResult

inductive Cursor where
  | structDecl (decl : StructCursor)
  | enumDecl (decl : EnumCursor)
  | typedefDecl (decl : TypedefCursor)
  | functionDecl (decl : FunctionCursor)
  | varDecl (decl : VarCursor)
  | macroDefinition (decl : MacroDefinition)
  | other

/-! ## The visits -/

section

variable (T : Target)

/-- A negative answer is an error, and recorded as `-1`. -/
def clamp (v : Int64) : Int64 := if v < 0 then -1 else v

def fieldInfo (f : FieldCursor) : FieldInfo where
  name := f.spelling
  typeSpelling := f.typeSpelling
  ctypesType := ctypesFor T f.type
  recordDep := recordDependency f.type
  offsetBits := clamp f.offset
  sizeBytes := clamp (f.type.getSizeOf T)

def recordInfo (decl : StructCursor) : RecordInfo where
  name := decl.spelling
  sizeBytes := clamp (decl.type.getSizeOf T)
  fields := decl.fields.map (fieldInfo T)

def visitStruct (decl : StructCursor) (tree : ApiTree) : ApiTree :=
  if !decl.fromMainHeader then tree
  else if decl.spelling = [] then tree
  else if !decl.isDefinition then tree
  else { tree with records := tree.records ++ [recordInfo T decl] }

def visitEnum (decl : EnumCursor) (tree : ApiTree) : ApiTree :=
  if !decl.fromMainHeader then tree
  else if decl.spelling = [] then tree
  else if !decl.isDefinition then tree
  else { tree with enums := tree.enums ++ [⟨decl.spelling, decl.children.filterMap id⟩] }

def visitTypedef (decl : TypedefCursor) (tree : ApiTree) : ApiTree :=
  if !decl.fromMainHeader then tree
  else
    let td : TypedefInfo := match decl.prototype with
      | some (result, args) =>
          ⟨decl.spelling, decl.underlyingSpelling, true, ctypesFor T result,
            args.map (ctypesFor T)⟩
      | none => ⟨decl.spelling, decl.underlyingSpelling, false, [], []⟩
    { tree with typedefs := tree.typedefs ++ [td] }

def visitConstant (decl : VarCursor) (tree : ApiTree) : ApiTree :=
  if !decl.fromMainHeader then tree
  else if !decl.isConst then tree
  else match decl.value with
    | none => tree
    | some (.int v) =>
        { tree with constants := tree.constants ++ [⟨decl.spelling, decimal v.toInt⟩] }
    | some .other => tree

def visitFunction (decl : FunctionCursor) (tree : ApiTree) : ApiTree :=
  if !decl.fromMainHeader then tree
  else { tree with
    functions := tree.functions ++
      [⟨decl.spelling, ctypesFor T decl.result, decl.args.map (ctypesFor T)⟩] }

def tuVisitor (tree : ApiTree) : Cursor → ApiTree
  | .structDecl decl => visitStruct T decl tree
  | .enumDecl decl => visitEnum decl tree
  | .typedefDecl decl => visitTypedef T decl tree
  | .functionDecl decl => visitFunction T decl tree
  | .varDecl decl => visitConstant decl tree
  | .macroDefinition decl => visitMacro decl tree
  | .other => tree

/-- The walk over the translation unit. -/
def collect (cursors : List Cursor) : ApiTree :=
  cursors.foldl (tuVisitor T) ⟨[], [], [], [], []⟩

end

/-- No visit adds anything for it: what other headers declare, what has no name
or is only declared, and what is no constant. -/
def Cursor.Skipped : Cursor → Prop
  | .structDecl s => s.fromMainHeader = false ∨ s.spelling = [] ∨ s.isDefinition = false
  | .enumDecl e => e.fromMainHeader = false ∨ e.spelling = [] ∨ e.isDefinition = false
  | .typedefDecl t => t.fromMainHeader = false
  | .functionDecl f => f.fromMainHeader = false
  | .varDecl v => v.fromMainHeader = false ∨ v.isConst = false ∨ v.value = none ∨
      v.value = some .other
  | .macroDefinition d => macroConstant d = none
  | .other => True

/-! ## Sorting -/

/-- `std::sort` by name may make `l` into `l'`. -/
structure SortsTo {α : Type} (name : α → Text) (l l' : List α) : Prop where
  perm : l'.Perm l
  sorted : l'.Pairwise fun a b => ¬ name b < name a

/-- A name says which element it is. -/
def Named {α : Type} (name : α → Text) (l : List α) : Prop :=
  ∀ a ∈ l, ∀ b ∈ l, name a = name b → a = b

/-- Among the declarations of a kind, the same name is the same declaration. -/
structure ApiTree.Named (tree : ApiTree) : Prop where
  records : Webgpu.Named RecordInfo.name tree.records
  enums : Webgpu.Named EnumInfo.name tree.enums
  typedefs : Webgpu.Named TypedefInfo.name tree.typedefs
  functions : Webgpu.Named FuncInfo.name tree.functions
  constants : Webgpu.Named ConstantInfo.name tree.constants

/-- The sorts of `main`. -/
structure ApiTree.SortsTo (tree tree' : ApiTree) : Prop where
  records : Webgpu.SortsTo RecordInfo.name tree.records tree'.records
  enums : Webgpu.SortsTo EnumInfo.name tree.enums tree'.enums
  typedefs : Webgpu.SortsTo TypedefInfo.name tree.typedefs tree'.typedefs
  functions : Webgpu.SortsTo FuncInfo.name tree.functions tree'.functions
  constants : Webgpu.SortsTo ConstantInfo.name tree.constants tree'.constants

end Ycetl.Ref.Webgpu
