import Ycetl.Ref.Cursors
import Ycetl.Ref.PySpellings

/-!
# What the Python module does

The module that `emit_python` writes is a sequence of statements, and this is
what Python makes of them, apart from how they are written: which names are
bound to what, and which layout a class of structures has. A class is bound
before it has fields. It gets them once, and only as long as nothing has asked
for its layout; to embed it in another structure asks for it, and so does an
array of it. A statement that raises an exception is one without a result.

Of what has no layout (enums, constants, types of functions) only the names are
modelled, and whether Python takes the statement at all: a name may not be a
keyword, a constant must be a literal, and an enum has its own rules for the
names in it.
-/

namespace Ycetl.Ref.Webgpu

open Ycetl.Lib

/-! ## Expressions -/

/-- What stands behind `ty`: ` * n * m ...`, or nothing. -/
def readFactors (ty : CType) (text : Text) : Option CType :=
  match text.splitOn ' ' with
  | [] :: rest => readTimes ty rest
  | _ => none

/-- A `ctypes` expression; its first factor may stand in parentheses. -/
def readCtypes : Text → Option CType
  | '(' :: text => do
      let ty ← readExpr (text.takeWhile (· ≠ ')'))
      match text.dropWhile (· ≠ ')') with
      | [] => none
      | _ :: rest => readFactors ty rest
  | text => readExpr text

/-! ## Names -/

namespace Python

def keywords : List Text :=
  ["False", "None", "True", "and", "as", "assert", "async", "await", "break", "class",
    "continue", "def", "del", "elif", "else", "except", "finally", "for", "from", "global", "if",
    "import", "in", "is", "lambda", "nonlocal", "not", "or", "pass", "raise", "return", "try",
    "while", "with", "yield"].map String.toList

/-- A name that a module may bind, in letters of ASCII. Those with two
underscores in front are Python's own. -/
def isName (s : Text) : Bool :=
  s.head?.any (fun c => !c.isDigit) && s.all (fun c => c.isAlphanum || c = '_') &&
    !(['_', '_'].isPrefixOf s) && keywords.all (· ≠ s)

/-- The enumerators that are members of the class of an enum. One whose value
has been `seen` is written in a comment. -/
def members (seen : List Int64) : List EnumValue → List EnumValue
  | [] => []
  | v :: vs => if v.value ∈ seen then members seen vs else v :: members (v.value :: seen) vs

/-- A name that a member may have: with an underscore in front it can be one of
the class's own, and every class has an `mro`. -/
def isMember (s : Text) : Bool :=
  isName s && !(['_'].isPrefixOf s) && s ≠ "mro".toList

end Python

/-! ## Values and modules -/

inductive PyValue where
  | none
  | simple (e : Extent)
  | structure (k : Nat)
  | array (e : Extent)
  | other
deriving DecidableEq

/-- A class of structures: its fields and where they stand, its extent, and
whether `_fields_` is final. -/
structure PyClass where
  fields : List (Text × Nat)
  extent : Extent
  isFinal : Bool

/-- `class C(Structure): pass` -/
def PyClass.bare : PyClass := ⟨[], Extent.bytes 0, false⟩

structure PyModule where
  names : List (Text × PyValue)
  classes : List PyClass
  functions : List (Text × PyValue × List PyValue)

namespace PyModule

def bind (m : PyModule) (name : Text) (v : PyValue) : PyModule :=
  { m with names := (name, v) :: m.names }

/-- `name = v`, or a class or a function of this name. -/
def assign (m : PyModule) (name : Text) (v : PyValue) : Option PyModule :=
  if Python.isName name then some (m.bind name v) else none

def lookup (m : PyModule) (s : Text) : Option PyValue :=
  if s = "None".toList then some .none else m.names.lookup s

/-- To ask for the layout of a type; that of a class is final from then on. -/
def layout (m : PyModule) : PyValue → Option (Extent × PyModule)
  | .simple e => some (e, m)
  | .array e => some (e, m)
  | .structure k => do
      let c ← m.classes[k]?
      some (c.extent, { m with classes := m.classes.set k { c with isFinal := true } })
  | .none => none
  | .other => none

def eval (m : PyModule) : CType → Option (PyValue × PyModule)
  | .named s => (m.lookup s).map (·, m)
  | .array n elem => do
      let (v, m) ← m.eval elem
      let (e, m) ← m.layout v
      some (.array (e.array n), m)

def evalText (m : PyModule) (text : Text) : Option (PyValue × PyModule) := do
  m.eval (← readCtypes text)

/-- From left to right. -/
def evalAll (m : PyModule) : List Text → Option (List PyValue × PyModule)
  | [] => some ([], m)
  | text :: texts => do
      let (v, m) ← m.evalText text
      let (vs, m) ← m.evalAll texts
      some (v :: vs, m)

def layouts (m : PyModule) : List PyValue → Option (List Extent × PyModule)
  | [] => some ([], m)
  | v :: vs => do
      let (e, m) ← m.layout v
      let (es, m) ← m.layouts vs
      some (e :: es, m)

/-- `_fields_ = [...]`. A structure that contains itself is final by the time
its own layout is made. -/
def setFields (m : PyModule) (k : Nat) (names : List Text) (vs : List PyValue) :
    Option PyModule := do
  let c ← m.classes[k]?
  if c.isFinal then none
  else do
    let (es, m) ← m.layouts vs
    let c ← m.classes[k]?
    if c.isFinal then none
    else some { m with
      classes := m.classes.set k ⟨names.zip (Extent.offsets es), Extent.record es, true⟩ }

/-- The names that the module imports. -/
def imported (T : Target) : List (Text × PyValue) :=
  [("Structure", .other), ("CFUNCTYPE", .other), ("POINTER", .other),
    ("c_bool", .simple T.bool), ("c_char", .simple (Extent.bytes 1)),
    ("c_byte", .simple (Extent.bytes 1)), ("c_ubyte", .simple (Extent.bytes 1)),
    ("c_short", .simple T.short), ("c_ushort", .simple T.short),
    ("c_int", .simple T.int), ("c_uint", .simple T.int),
    ("c_long", .simple T.long), ("c_ulong", .simple T.long),
    ("c_longlong", .simple T.longLong), ("c_ulonglong", .simple T.longLong),
    ("c_int8", .simple (Extent.bytes 1)), ("c_int16", .simple T.int16),
    ("c_int32", .simple T.int32), ("c_int64", .simple T.int64),
    ("c_uint8", .simple (Extent.bytes 1)), ("c_uint16", .simple T.int16),
    ("c_uint32", .simple T.int32), ("c_uint64", .simple T.int64),
    ("c_float", .simple T.float), ("c_double", .simple T.double),
    ("c_size_t", .simple T.sizeT), ("c_void_p", .simple T.pointer),
    ("IntEnum", .other)].map fun p => (p.1.toList, p.2)

end PyModule

/-! ## Statements -/

namespace Python

/-- The statements of the module. A gap is a comment or an empty line. -/
inductive Statement where
  | imports
  | enumClass (e : EnumInfo)
  | constant (c : ConstantInfo)
  | stub (r : RecordInfo)
  | assign (name expr : Text)
  | fieldTable (r : RecordInfo)
  | callback (t : TypedefInfo)
  | functions (fs : List FuncInfo)
  | loader
  | gap (text : Text)

namespace Statement

def text : Statement → Text
  | imports => prelude
  | enumClass e => Python.enumClass e
  | constant c => c.name ++ " = ".toList ++ c.value ++ "\n".toList
  | stub r => Python.stub r
  | assign name expr => name ++ " = ".toList ++ expr ++ "\n".toList
  | fieldTable r => Python.fieldTable r
  | callback t => Python.callback t
  | functions fs => "_FUNCTIONS = [\n".toList ++ fs.flatMap function ++ "]\n\n".toList
  | loader => load
  | gap text => text

def functionRow (m : PyModule) (f : FuncInfo) : Option PyModule := do
  let (ret, m) ← m.evalText (orNone f.returnCtype)
  let (args, m) ← m.evalAll f.argCtypes
  some { m with functions := m.functions ++ [(f.name, ret, args)] }

def exec (T : Target) (m : PyModule) : Statement → Option PyModule
  | imports => some { m with names := PyModule.imported T ++ m.names }
  | enumClass e =>
      let names := (members [] e.values).map EnumValue.name
      if names.all isMember ∧ names.Nodup then m.assign e.name .other else none
  | constant c => do
      let _ ← pySigned? c.value
      m.assign c.name .other
  | stub r =>
      ({ m with classes := m.classes ++ [PyClass.bare] } : PyModule).assign r.name
        (.structure m.classes.length)
  | assign name expr => do
      let (v, m) ← m.evalText expr
      m.assign name v
  | fieldTable r =>
      if r.isOpaque then some m
      else do
        let (vs, m) ← m.evalAll (r.fields.map FieldInfo.ctypesType)
        match m.lookup r.name with
        | some (.structure k) => m.setFields k (r.fields.map FieldInfo.name) vs
        | _ => none
  | callback t =>
      if t.isCallback then do
        let (_, m) ← m.evalText (orNone t.callbackRet)
        let (_, m) ← m.evalAll t.callbackArgs
        m.assign t.name .other
      else some m
  | functions fs => do
      let m ← fs.foldlM functionRow m
      m.assign "_FUNCTIONS".toList .other
  | loader => m.assign "load".toList .other
  | gap _ => some m

end Statement

/-- What the round of `emit_python` for a typedef writes. -/
def aliasStatements (pm : PyTypeMap) (t : TypedefInfo) : List Statement :=
  if (pm.enumNames ++ pm.recordNames).any (· = t.name) then []
  else if t.isCallback then []
  else (pm.typedefToCtypes.lookup t.name).elim [] fun c =>
    if c = t.name then [] else [.assign t.name c]

def constantStatements (cs : List ConstantInfo) : List Statement :=
  if cs.isEmpty then []
  else .gap "# Flag and sentinel constants.\n".toList ::
    cs.map .constant ++ [.gap "\n".toList]

/-- The names of the module that come from no header. -/
def taken (T : Target) : List Text :=
  "_FUNCTIONS".toList :: "load".toList :: (PyModule.imported T).map Prod.fst

/-- The module of a tree, with its field tables in this order. -/
def statements (tree : ApiTree) (tables : List RecordInfo) : List Statement :=
  .imports :: tree.enums.map .enumClass ++ constantStatements tree.constants ++
    tree.records.map .stub ++ .gap "\n".toList ::
    tree.typedefs.flatMap (aliasStatements (buildPyMap tree)) ++ .gap "\n".toList ::
    tables.map .fieldTable ++ .gap callbackTitle ::
    tree.typedefs.map .callback ++ .gap "\n".toList ::
    .functions tree.functions :: [.loader]

end Python

/-- The names that the module of the tree binds. -/
def ApiTree.names (tree : ApiTree) : List Text :=
  tree.records.map RecordInfo.name ++ tree.enums.map EnumInfo.name ++
    tree.constants.map ConstantInfo.name ++ tree.typedefs.map TypedefInfo.name

/-! ## Headers -/

section

variable (T : Target)

/-- The definitions that `visit_struct` records, in their order. -/
def definitions (cursors : List Cursor) : List StructCursor :=
  cursors.filterMap fun
    | .structDecl s =>
        if s.fromMainHeader ∧ s.spelling ≠ [] ∧ s.isDefinition then some s else none
    | _ => none

def functionDecls (cursors : List Cursor) : List FunctionCursor :=
  cursors.filterMap fun
    | .functionDecl f => if f.fromMainHeader then some f else none
    | _ => none

def typedefDecls (cursors : List Cursor) : List TypedefCursor :=
  cursors.filterMap fun
    | .typedefDecl t => if t.fromMainHeader then some t else none
    | _ => none

/-- The results and the parameters of functions and of callbacks. -/
def signatures (cursors : List Cursor) : List (CXType × List CXType) :=
  (functionDecls cursors).map (fun f => (f.result, f.args)) ++
    (typedefDecls cursors).filterMap TypedefCursor.prototype

/-- The record is laid out by the rule, and libclang says so. -/
structure StructCursor.Laid (s : StructCursor) (es : List Extent) : Prop where
  members : s.fields.map (fun f => f.type.extent T) = es.map some
  extent : s.type.extent T = some (Extent.record es)
  offsets : s.fields.map FieldCursor.offset = (Extent.offsets es).map fun o => .ofNat (8 * o)
  size_lt : (Extent.record es).size < 2 ^ 60

/-- If the type is, or is an array of, a record with a tag, then one of these
definitions has the tag, and gives it its extent. -/
def CXType.DefinedBy (t : CXType) (ss : List StructCursor) : Prop :=
  ∀ tag e, t.innermost = .record tag e → tag ≠ [] →
    ∃ s ∈ ss, s.spelling = tag ∧ s.type.extent T = e

/-- An arithmetic type, such as the one an enum has its values in. -/
def CXType.Arithmetic : CXType → Prop
  | .builtin kind => kind ≠ .void
  | .sugar c => c.Arithmetic
  | _ => False

/-- The type keeps its extent when it is written as a `ctypes` expression: a
record without a tag only if its bytes may stand anywhere. -/
def CXType.Kept : CXType → Prop
  | .builtin kind => kind ≠ .void
  | .pointer _ => True
  | .enum integer => integer.Arithmetic
  | .record tag e => ∃ x, e = some x ∧
      (tag = [] → x.align = 1 ∧ x.size < 2 ^ 63) ∧ (x.size = 0 → x.align = 1)
  | .constantArray elem _ => elem.Kept
  | .sugar c => c.Kept
  | .other e => ∃ x, e = some x ∧
      (x = Extent.bytes 1 ∨ x.size = 2 ∧ x = T.int16 ∨ x.size = 4 ∧ x = T.int32 ∨
        x.size = 8 ∧ x = T.int64)
  | .incompleteArray _ | .functionProto .. | .functionNoProto _ => False

/-- What a C compiler makes sure of: a record is defined once, and after the
records that it embeds. All of them are structures of the main header here,
without bit-fields, and not packed. -/
structure ValidHeader (cursors : List Cursor) : Prop where
  laid : ∀ s ∈ definitions cursors, ∃ es, s.Laid T es
  once : ((definitions cursors).map StructCursor.spelling).Nodup
  complete : ∀ pre s post, definitions cursors = pre ++ s :: post →
    ∀ f ∈ s.fields, f.type.DefinedBy T pre
  signatures : ∀ sig ∈ signatures cursors, ∀ t ∈ sig.1 :: sig.2,
    t.DefinedBy T (definitions cursors)

/-- A text with no space and no parenthesis in it is one name. -/
def Word (s : Text) : Prop := ∀ c ∈ s, c ≠ ' ' ∧ c ≠ '('

/-- The spelling of an array has a number between its brackets, and its element
is a pointer or has one of the base names. -/
def ArraySpelled (s : Text) : Prop :=
  ∀ elem n, arrayParts (strip s) = some (elem, n) → (∃ k, n = numeral k) ∧
    ((strip elem).getLast? = some '*' ∨
      ∃ c, base.lookup (strip elem) = some c ∧ c ≠ "None".toList)

/-- What the generator relies on: types that keep their extents, names that are
names in Python and hide no other, and macros that are literals there. -/
structure Bindable (cursors : List Cursor) : Prop where
  fields : ∀ s ∈ definitions cursors, ∀ f ∈ s.fields, f.type.Kept T
  results : ∀ sig ∈ signatures cursors, sig.1.canonical = .builtin .void ∨ sig.1.Kept T
  args : ∀ sig ∈ signatures cursors, ∀ t ∈ sig.2, t.Kept T
  arrays : ∀ t ∈ (collect T cursors).typedefs, ArraySpelled t.underlying
  names : ∀ name ∈ (collect T cursors).names, Python.isName name = true ∧
    name ∉ Python.taken T
  members : ∀ e ∈ (collect T cursors).enums, (e.values.map EnumValue.name).Nodup ∧
    ∀ v ∈ e.values, Python.isMember v.name = true
  literals : ∀ d, .macroDefinition d ∈ cursors → ∀ c, macroConstant d = some c →
    (pyInteger? c.value).isSome
  callbacks : ∀ t ∈ (collect T cursors).typedefs, t.isCallback = true →
    t.name ∉ (collect T cursors).records.map RecordInfo.name

/-! ## What the module says of a header -/

/-- The class is the record: `sizeof` agrees, and if there is anything in it, so
do the alignment, the names of the fields and where libclang says they are. -/
def PyClass.Matches (c : PyClass) (s : StructCursor) : Prop :=
  ∃ e, s.type.extent T = some e ∧ c.extent.size = e.size ∧ (e.size ≠ 0 → c.extent = e ∧
    c.fields.map (fun f => (f.1, Int64.ofNat (8 * f.2))) =
      s.fields.map fun f => (f.spelling, f.offset))

/-- What is passed as `v` has the extent it has in C; nothing is `None`. -/
def PyModule.Passes (m : PyModule) (t : CXType) (v : PyValue) : Prop :=
  t.canonical = .builtin .void ∧ v = .none ∨
    ∃ e, t.extent T = some e ∧ (m.layout v).map Prod.fst = some e

/-- Every definition of the header has its class, and every function its row. -/
structure PyModule.Keeps (m : PyModule) (cursors : List Cursor) : Prop where
  records : ∀ s ∈ definitions cursors, ∃ k c, m.lookup s.spelling = some (.structure k) ∧
    m.classes[k]? = some c ∧ c.Matches T s
  functions : ∃ fs, fs.Perm (functionDecls cursors) ∧ List.Forall₂ (fun f row =>
    row.1 = f.spelling ∧ m.Passes T f.result row.2.1 ∧ List.Forall₂ (m.Passes T) f.args row.2.2)
    fs m.functions

end

end Ycetl.Ref.Webgpu
