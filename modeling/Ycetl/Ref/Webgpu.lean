import Mathlib.Data.List.DropRight
import Ycetl.Lib.Initializers
import Ycetl.Lib.Pools

/-!
# The two generators of WebGPU bindings

`webgpu_introspect.cpp` has a tree of what a header declares, and writes two
files from it. `emit_python` writes the Python module. `emit_tree` writes a
C++ header with eleven arrays of literals, in which what was nested is a slice
of a pool, given by where it begins and by its length. `webgpu_emit_py.cpp`
includes that header, and `build_into` makes the Python module from the arrays.

Between the two programs stands a compiler, which reads the literals:
`Definition.read` and the functions after it say which values an array has, and
that there are none if its initialiser is not one of its type. Reading past
the end of an array, writing past the end of a buffer and a depth first search
that has used up its fuel are calls without a result. Lengths are natural
numbers, numbers are those of their C++ types, and a text is a list of
characters, to which `append` and `<<` add.

Left out of the tree is what neither file is written from.
-/

namespace Ycetl.Ref.Webgpu

open Ycetl.Lib
open Ycetl.Lib.Reading (braced)

/-! ## The tree -/

structure FieldInfo where
  name : Text
  typeSpelling : Text
  ctypesType : Text
  /-- By-value struct this field embeds, if any. -/
  recordDep : Text
  offsetBits : Int64
  sizeBytes : Int64

structure RecordInfo where
  name : Text
  sizeBytes : Int64
  fields : List FieldInfo

/-- `is_opaque`. -/
def RecordInfo.isOpaque (r : RecordInfo) : Bool := r.sizeBytes ≤ 0

structure EnumValue where
  name : Text
  value : Int64

structure EnumInfo where
  name : Text
  values : List EnumValue

structure TypedefInfo where
  name : Text
  underlying : Text
  isCallback : Bool
  callbackRet : Text
  callbackArgs : List Text

structure ConstantInfo where
  name : Text
  value : Text

structure FuncInfo where
  name : Text
  returnCtype : Text
  argCtypes : List Text

structure ApiTree where
  records : List RecordInfo
  enums : List EnumInfo
  typedefs : List TypedefInfo
  functions : List FuncInfo
  constants : List ConstantInfo

/-! ## `py_type_map` -/

structure PyTypeMap where
  typedefToCtypes : List (Text × Text)
  enumNames : List Text
  recordNames : List Text

def cVoidP : Text := "c_void_p".toList

/-- The table `base` of `lookup`. -/
def base : List (Text × Text) :=
  [("void", "None"), ("_Bool", "c_bool"), ("bool", "c_bool"), ("char", "c_char"),
    ("signed char", "c_byte"), ("unsigned char", "c_ubyte"), ("short", "c_short"),
    ("unsigned short", "c_ushort"), ("int", "c_int"), ("unsigned int", "c_uint"),
    ("long", "c_long"), ("unsigned long", "c_ulong"), ("long long", "c_longlong"),
    ("unsigned long long", "c_ulonglong"), ("float", "c_float"), ("double", "c_double"),
    ("size_t", "c_size_t"), ("int8_t", "c_int8"), ("int16_t", "c_int16"),
    ("int32_t", "c_int32"), ("int64_t", "c_int64"), ("uint8_t", "c_uint8"),
    ("uint16_t", "c_uint16"), ("uint32_t", "c_uint32"), ("uint64_t", "c_uint64")].map
    fun p => (p.1.toList, p.2.toList)

/-- Without the spaces at its end. -/
def stripEnd (s : Text) : Text := s.rdropWhile (· = ' ')

/-- Without spaces at both ends, and then without `const` in front. -/
def strip (s : Text) : Text :=
  let s := (stripEnd s).dropWhile (· = ' ')
  if "const ".toList.isPrefixOf s then s.drop 6 else s

/-- `T[N]` as `T` and `N`. -/
def arrayParts (s : Text) : Option (Text × Text) :=
  match s.dropWhile (· ≠ '[') with
  | [] => none
  | _ :: rest =>
      if ']' ∈ rest then some (stripEnd (s.takeWhile (· ≠ '[')), rest.takeWhile (· ≠ ']'))
      else none

/-- The end of `lookup`: a name. -/
def PyTypeMap.lookupName (m : PyTypeMap) (s : Text) : Text :=
  match base.lookup s, m.typedefToCtypes.lookup s with
  | some c, _ => c
  | none, some c => c
  | none, none => if s ∈ m.enumNames then s else if s ∈ m.recordNames then s else cVoidP

theorem arrayParts_lt {s elem n : Text} (h : arrayParts s = some (elem, n)) :
    elem.length < s.length := by
  rw [arrayParts] at h
  split at h
  · cases h
  · next c rest hrest =>
      split at h
      · cases h
        have hlen := congrArg List.length
          (List.takeWhile_append_dropWhile (p := (· ≠ '[')) (l := s))
        rw [List.length_append, hrest, List.length_cons] at hlen
        have hle := (List.rdropWhile_prefix (p := (· = ' ')) (l := s.takeWhile (· ≠ '['))).length_le
        exact Nat.lt_of_le_of_lt hle (by omega)
      · cases h

theorem length_strip_le (s : Text) : (strip s).length ≤ s.length := by
  have hle : ((stripEnd s).dropWhile (· = ' ')).length ≤ s.length :=
    Nat.le_trans (List.dropWhile_suffix _).length_le
      (List.rdropWhile_prefix (p := (· = ' ')) (l := s)).length_le
  rw [strip]
  split
  · rw [List.length_drop]
    exact Nat.le_trans (Nat.sub_le ..) hle
  · exact hle

def PyTypeMap.lookup (m : PyTypeMap) (s : Text) : Text :=
  if (strip s).getLast? = some '*' then cVoidP
  else match _h : arrayParts (strip s) with
    | some (elem, n) => m.lookup elem ++ " * ".toList ++ n
    | none => m.lookupName (strip s)
termination_by s.length
decreasing_by exact Nat.lt_of_lt_of_le (arrayParts_lt _h) (length_strip_le s)

/-- One round of the loop in `build_py_map` for one typedef: what it registers. -/
def PyTypeMap.register (m : PyTypeMap) (t : TypedefInfo) : Option PyTypeMap :=
  if (m.typedefToCtypes.lookup t.name).isSome then none
  else if m.lookup t.underlying = cVoidP ∧ t.underlying ≠ "void *".toList ∧
      '*' ∉ t.underlying ∧ '[' ∉ t.underlying then none
  else some { m with
    typedefToCtypes := (t.name, m.lookup t.underlying) :: m.typedefToCtypes }

/-- A pass over the typedefs, and whether there was progress. -/
def PyTypeMap.pass (m : PyTypeMap) (progress : Bool) : List TypedefInfo → PyTypeMap × Bool
  | [] => (m, progress)
  | t :: ts =>
      match m.register t with
      | some m => m.pass true ts
      | none => m.pass progress ts

/-- How many typedefs are not registered. -/
def PyTypeMap.unresolved (m : PyTypeMap) (ts : List TypedefInfo) : Nat :=
  ts.countP fun t => (m.typedefToCtypes.lookup t.name).isNone

theorem PyTypeMap.unresolved_register {m m' : PyTypeMap} {t : TypedefInfo}
    (h : m.register t = some m') (ts : List TypedefInfo) :
    m'.unresolved ts ≤ m.unresolved ts ∧ (t ∈ ts → m'.unresolved ts < m.unresolved ts) := by
  rw [register] at h
  split at h
  · cases h
  · next hnew =>
      split at h
      · cases h
      · cases h
        have hstay : ∀ u : TypedefInfo, (List.lookup u.name
            ((t.name, m.lookup t.underlying) :: m.typedefToCtypes)).isNone = true →
            (m.typedefToCtypes.lookup u.name).isNone = true := by
          intro u hu
          rw [List.lookup_cons] at hu
          split at hu
          · cases hu
          · exact hu
        have hle : ∀ us : List TypedefInfo, unresolved { m with
            typedefToCtypes := (t.name, m.lookup t.underlying) :: m.typedefToCtypes } us ≤
            m.unresolved us := fun us => List.countP_mono_left fun u _ => hstay u
        refine ⟨hle ts, fun ht => ?_⟩
        obtain ⟨us, vs, rfl⟩ := List.append_of_mem ht
        have hold : (m.typedefToCtypes.lookup t.name).isNone = true := by
          rw [← Option.not_isSome, Bool.not_eq_true']
          exact Bool.eq_false_iff.mpr hnew
        have hgone : (List.lookup t.name
            ((t.name, m.lookup t.underlying) :: m.typedefToCtypes)).isNone = false := by
          rw [List.lookup_cons_self]
          rfl
        have hus := hle us
        have hvs := hle vs
        simp only [unresolved, List.countP_append, List.countP_cons, hold, hgone] at hus hvs ⊢
        simp only [if_pos, Bool.false_eq_true, if_false]
        omega

theorem PyTypeMap.unresolved_pass {m : PyTypeMap} {ts us : List TypedefInfo}
    (hu : ∀ t ∈ us, t ∈ ts) (progress : Bool) :
    (m.pass progress us).1.unresolved ts ≤ m.unresolved ts ∧
      ((m.pass progress us).2 = true → progress = true ∨
        (m.pass progress us).1.unresolved ts < m.unresolved ts) := by
  induction us generalizing m progress with
  | nil => exact ⟨Nat.le_refl _, .inl⟩
  | cons t us ih =>
      have hus : ∀ u ∈ us, u ∈ ts := fun u h => hu u (List.mem_cons_of_mem t h)
      rw [pass]
      split
      · next m' hm =>
          obtain ⟨hle, hlt⟩ := unresolved_register hm ts
          obtain ⟨hle', -⟩ := ih hus true (m := m')
          have hlt := hlt (hu t List.mem_cons_self)
          exact ⟨Nat.le_trans hle' hle, fun _ => .inr (Nat.lt_of_le_of_lt hle' hlt)⟩
      · exact ih hus progress

/-- The loop `while (progress)`. -/
def PyTypeMap.resolve (m : PyTypeMap) (ts : List TypedefInfo) : PyTypeMap :=
  if _h : (m.pass false ts).2 = true then (m.pass false ts).1.resolve ts
  else (m.pass false ts).1
termination_by m.unresolved ts
decreasing_by
  exact ((PyTypeMap.unresolved_pass (fun _ h => h) false).2 _h).resolve_left Bool.false_ne_true

/-- `try_emplace` of whatever is still unresolved. -/
def PyTypeMap.fill (m : PyTypeMap) : List TypedefInfo → PyTypeMap
  | [] => m
  | t :: ts =>
      if (m.typedefToCtypes.lookup t.name).isSome then m.fill ts
      else fill { m with typedefToCtypes := (t.name, cVoidP) :: m.typedefToCtypes } ts

def buildPyMap (tree : ApiTree) : PyTypeMap :=
  let m : PyTypeMap := ⟨[], tree.enums.map EnumInfo.name, tree.records.map RecordInfo.name⟩
  (m.resolve tree.typedefs).fill tree.typedefs

/-! ## The order of the field tables -/

/-- `record_idx`: the last record with a name is the one that is found. -/
def recordIdx (records : List RecordInfo) : List (Text × Nat) :=
  records.zipIdx.foldl (fun m r => (r.1.name, r.2) :: m) []

/-- The records that each record embeds by value. -/
def deps (records : List RecordInfo) : List (List Nat) :=
  records.map fun r => r.fields.filterMap fun f =>
    if f.recordDep = [] then none else (recordIdx records).lookup f.recordDep

inductive Mark where
  | unseen
  | inProgress
  | done
deriving DecidableEq

/-- `visit` of `emit_python`. -/
def visitPython (deps : List (List Nat)) :
    Nat → List Mark × List Nat → Nat → Option (List Mark × List Nat)
  | 0, _, _ => none
  | fuel + 1, (mark, order), i => do
      let m ← mark[i]?
      if m = .done then some (mark, order)
      else if m = .inProgress then some (mark, order)
      else do
        let ds ← deps[i]?
        let (mark, order) ← ds.foldlM (visitPython deps fuel) (mark.set i .inProgress, order)
        some (mark.set i .done, order ++ [i])

/-- `visit` of `emit_tree`, which has one test where the other has two. -/
def visitTree (deps : List (List Nat)) :
    Nat → List Mark × List Nat → Nat → Option (List Mark × List Nat)
  | 0, _, _ => none
  | fuel + 1, (mark, order), i => do
      let m ← mark[i]?
      if m ≠ .unseen then some (mark, order)
      else do
        let ds ← deps[i]?
        let (mark, order) ← ds.foldlM (visitTree deps fuel) (mark.set i .inProgress, order)
        some (mark.set i .done, order ++ [i])

/-- The loop over all records, with fuel for a chain of all of them. -/
def topoSort (visit : List (List Nat) → Nat → List Mark × List Nat → Nat →
    Option (List Mark × List Nat)) (records : List RecordInfo) : Option (List Nat) :=
  ((List.range records.length).foldlM (visit (deps records) (records.length + 1))
    (List.replicate records.length .unseen, [])).map Prod.snd

/-! ## `emit_python` -/

namespace Python

def prelude : Text :=
  ("# Generated by webgpu_introspect. Do not edit by hand.\n" ++
   "# Source: webgpu.h\n" ++
   "from ctypes import (\n" ++
   "    Structure, CFUNCTYPE, POINTER,\n" ++
   "    c_bool, c_char, c_byte, c_ubyte,\n" ++
   "    c_short, c_ushort, c_int, c_uint,\n" ++
   "    c_long, c_ulong, c_longlong, c_ulonglong,\n" ++
   "    c_int8, c_int16, c_int32, c_int64,\n" ++
   "    c_uint8, c_uint16, c_uint32, c_uint64,\n" ++
   "    c_float, c_double, c_size_t, c_void_p,\n" ++
   ")\n" ++
   "from enum import IntEnum\n\n").toList

/-- The loop over the values of an enum, with the values `seen` so far. -/
def enumerators (seen : List Int64) : List EnumValue → Text
  | [] => []
  | v :: vs =>
      if v.value ∈ seen then
        "    # ".toList ++ v.name ++ " = ".toList ++ decimal v.value.toInt ++
          "  (alias)\n".toList ++ enumerators seen vs
      else
        "    ".toList ++ v.name ++ " = ".toList ++ decimal v.value.toInt ++ "\n".toList ++
          enumerators (v.value :: seen) vs

def enumClass (e : EnumInfo) : Text :=
  "class ".toList ++ e.name ++ "(IntEnum):\n".toList ++
    if e.values.isEmpty then "    pass\n\n".toList
    else enumerators [] e.values ++ "\n".toList

def constants (cs : List ConstantInfo) : Text :=
  if cs.isEmpty then []
  else "# Flag and sentinel constants.\n".toList ++
    (cs.flatMap fun c => c.name ++ " = ".toList ++ c.value ++ "\n".toList) ++ "\n".toList

def stub (r : RecordInfo) : Text := "class ".toList ++ r.name ++ "(Structure): pass\n".toList

/-- One round of the loop over the typedefs. -/
def aliasLine (pm : PyTypeMap) (t : TypedefInfo) : Text :=
  if t.name ∈ pm.enumNames ∨ t.name ∈ pm.recordNames then []
  else if t.isCallback then []
  else match pm.typedefToCtypes.lookup t.name with
    | none => []
    | some c => if c = t.name then [] else t.name ++ " = ".toList ++ c ++ "\n".toList

def field (f : FieldInfo) : Text :=
  "    (\"".toList ++ f.name ++ "\", ".toList ++ f.ctypesType ++ "),  # offset=".toList ++
    decimal (f.offsetBits / 8).toInt ++ " size=".toList ++ decimal f.sizeBytes.toInt ++
    " src=".toList ++ f.typeSpelling ++ "\n".toList

def fieldTable (r : RecordInfo) : Text :=
  if r.isOpaque then "# ".toList ++ r.name ++ ": opaque (no layout exposed)\n".toList
  else r.name ++ "._fields_ = [\n".toList ++ r.fields.flatMap field ++ "]\n\n".toList

/-- An empty return type is written as `None`. -/
def orNone (s : Text) : Text := if s = [] then "None".toList else s

def callback (t : TypedefInfo) : Text :=
  if t.isCallback then
    t.name ++ " = CFUNCTYPE(".toList ++ orNone t.callbackRet ++
      (t.callbackArgs.flatMap fun a => ", ".toList ++ a) ++ ")\n".toList
  else []

def function (f : FuncInfo) : Text :=
  "    (\"".toList ++ f.name ++ "\", ".toList ++ orNone f.returnCtype ++ ", [".toList ++
    (f.argCtypes.zipIdx.flatMap fun a => (if a.2 ≠ 0 then ", ".toList else []) ++ a.1) ++
    "]),\n".toList

def load : Text :=
  ("def load(path):\n" ++
   "    \"\"\"dlopen the WebGPU library and bind every function with its\n" ++
   "    ctypes restype/argtypes. Returns the ctypes.CDLL.\"\"\"\n" ++
   "    import ctypes\n" ++
   "    lib = ctypes.CDLL(path)\n" ++
   "    for name, restype, argtypes in _FUNCTIONS:\n" ++
   "        try:\n" ++
   "            fn = getattr(lib, name)\n" ++
   "        except AttributeError:\n" ++
   "            continue  # symbol not exported by this build\n" ++
   "        fn.restype = restype\n" ++
   "        fn.argtypes = argtypes\n" ++
   "    return lib\n").toList

def callbackTitle : Text :=
  "# Callback types — wrap a Python function: cb = WGPUFooCallback(fn)\n".toList

end Python

/-- What `emit_python` writes. -/
def emitPython (tree : ApiTree) : Option Text := do
  let order ← topoSort visitPython tree.records
  let pm := buildPyMap tree
  let tables ← order.mapM fun i => (tree.records[i]?).map Python.fieldTable
  some (Python.prelude ++ tree.enums.flatMap Python.enumClass ++
    Python.constants tree.constants ++
    tree.records.flatMap Python.stub ++ "\n".toList ++
    tree.typedefs.flatMap (Python.aliasLine pm) ++ "\n".toList ++
    tables.flatten ++
    Python.callbackTitle ++ tree.typedefs.flatMap Python.callback ++ "\n".toList ++
    "_FUNCTIONS = [\n".toList ++ tree.functions.flatMap Python.function ++ "]\n\n".toList ++
    Python.load)

/-! ## `emit_tree` -/

def esc (s : Text) : Text := s.flatMap fun c => if c = '"' ∨ c = '\\' then ['\\', c] else [c]

def qstr (s : Text) : Text := '"' :: esc s ++ ['"']

def boolLit (b : Bool) : Text := if b then ['t', 'r', 'u', 'e'] else ['f', 'a', 'l', 's', 'e']

/-- `std::to_string` of a `std::size_t`. -/
def sizeLit (n : Nat) : Text := decimal n

namespace Tree

def aliasLits (tree : ApiTree) (pm : PyTypeMap) : List Text :=
  tree.typedefs.filterMap fun t =>
    if t.name ∈ pm.enumNames ∨ t.name ∈ pm.recordNames then none
    else if t.isCallback then none
    else match pm.typedefToCtypes.lookup t.name with
      | none => none
      | some c => if c = t.name then none else some (braced [qstr t.name, qstr c])

def fieldLit (f : FieldInfo) : Text :=
  braced [qstr f.name, qstr f.ctypesType, qstr f.typeSpelling,
    decimal (f.offsetBits / 8).toInt, decimal f.sizeBytes.toInt]

def recordLit (r : RecordInfo) (first count : Nat) : Text :=
  braced [qstr r.name, boolLit r.isOpaque, sizeLit first, sizeLit count]

def enumeratorLits (seen : List Int64) : List EnumValue → List Text
  | [] => []
  | v :: vs =>
      braced [qstr v.name, decimal v.value.toInt ++ ['L', 'L'], boolLit (v.value ∈ seen)] ::
        enumeratorLits (if v.value ∈ seen then seen else v.value :: seen) vs

def enumLit (e : EnumInfo) (first count : Nat) : Text :=
  braced [qstr e.name, sizeLit first, sizeLit count]

def callbackLit (t : TypedefInfo) (first count : Nat) : Text :=
  braced [qstr t.name, qstr (if t.callbackRet = [] then "None".toList else t.callbackRet),
    sizeLit first, sizeLit count]

def functionLit (f : FuncInfo) (first count : Nat) : Text :=
  braced [qstr f.name, qstr (if f.returnCtype = [] then "None".toList else f.returnCtype),
    sizeLit first, sizeLit count]

def constantLit (c : ConstantInfo) : Text := braced [qstr c.name, qstr c.value]

end Tree

/-- The definition of an array: `std::array<type, size> name = init;` -/
structure Definition where
  type : String
  name : String
  size : Nat
  init : Text

/-- `dump`. -/
def dump (type name : String) (lits : List Text) : Definition :=
  ⟨type, name, lits.length,
    if lits.isEmpty then ['\x7b', '\x7d']
    else ['\x7b', '\x7b', '\n'] ++ Reading.lines lits ++ ['\x7d', '\x7d']⟩

/-- The arrays that `emit_tree` writes. -/
def emitTree (tree : ApiTree) : Option (List Definition) := do
  let topo ← topoSort visitTree tree.records
  let pm := buildPyMap tree
  let fields := pooled (fun r => r.fields.map Tree.fieldLit) Tree.recordLit tree.records
  let enums := pooled (fun e => Tree.enumeratorLits [] e.values) Tree.enumLit tree.enums
  let callbacks := pooled (fun t => t.callbackArgs.map qstr) Tree.callbackLit
    (tree.typedefs.filter fun t => t.isCallback)
  let functions := pooled (fun f => f.argCtypes.map qstr) Tree.functionLit tree.functions
  some [dump "field" "fields" fields.1, dump "record" "records" fields.2,
    dump "std::size_t" "topo" (topo.map sizeLit),
    dump "enumerator" "enum_values" enums.1, dump "enumeration" "enums" enums.2,
    dump "alias" "aliases" (Tree.aliasLits tree pm),
    dump "string_view" "callback_args" callbacks.1, dump "callback" "callbacks" callbacks.2,
    dump "string_view" "function_args" functions.1, dump "function" "functions" functions.2,
    dump "constant" "constants" (tree.constants.map Tree.constantLit)]

/-! ## What the compiler reads -/

structure Field where
  name : Text
  ctype : Text
  src : Text
  offsetBytes : Int64
  sizeBytes : Int64

structure Record where
  name : Text
  isOpaque : Bool
  fieldBegin : Nat
  fieldCount : Nat

structure Enumerator where
  name : Text
  value : Int64
  isAlias : Bool

structure Enumeration where
  name : Text
  valueBegin : Nat
  valueCount : Nat

structure Alias where
  name : Text
  ctype : Text

structure Callback where
  name : Text
  ret : Text
  argBegin : Nat
  argCount : Nat

structure Function where
  name : Text
  ret : Text
  argBegin : Nat
  argCount : Nat

structure Constant where
  name : Text
  value : Text

/-- A `string_view` of a literal ends at its first null character. -/
def stringView : Init → Option Text
  | .string s => some (s.takeWhile (· ≠ '\x00'))
  | _ => none

def boolean : Init → Option Bool
  | .boolean b => some b
  | _ => none

def sizeT : Init → Option Nat
  | .integer (.ofNat n) => some n
  | _ => none

/-- A value that does not fit may not be narrowed in braces. -/
def int64 : Init → Option Int64
  | .integer v => if v = (Int64.ofInt v).toInt then some (Int64.ofInt v) else none
  | _ => none

def Field.read : Init → Option Field
  | .braces [name, ctype, src, offset, size] => do
      some ⟨← stringView name, ← stringView ctype, ← stringView src, ← int64 offset, ← int64 size⟩
  | _ => none

def Record.read : Init → Option Record
  | .braces [name, isOpaque, first, count] => do
      some ⟨← stringView name, ← boolean isOpaque, ← sizeT first, ← sizeT count⟩
  | _ => none

def Enumerator.read : Init → Option Enumerator
  | .braces [name, value, isAlias] => do
      some ⟨← stringView name, ← int64 value, ← boolean isAlias⟩
  | _ => none

def Enumeration.read : Init → Option Enumeration
  | .braces [name, first, count] => do
      some ⟨← stringView name, ← sizeT first, ← sizeT count⟩
  | _ => none

def Alias.read : Init → Option Alias
  | .braces [name, ctype] => do some ⟨← stringView name, ← stringView ctype⟩
  | _ => none

def Callback.read : Init → Option Callback
  | .braces [name, ret, first, count] => do
      some ⟨← stringView name, ← stringView ret, ← sizeT first, ← sizeT count⟩
  | _ => none

def Function.read : Init → Option Function
  | .braces [name, ret, first, count] => do
      some ⟨← stringView name, ← stringView ret, ← sizeT first, ← sizeT count⟩
  | _ => none

def Constant.read : Init → Option Constant
  | .braces [name, value] => do some ⟨← stringView name, ← stringView value⟩
  | _ => none

/-- The elements of an array, if as many are given as it has. -/
def Definition.read {α : Type} (d : Definition) (element : Init → Option α) :
    Option (List α) := do
  let items ← match ← readInit d.init with
    | .braces [] => some []
    | .braces [.braces items] => some items
    | _ => none
  let xs ← items.mapM element
  if xs.length = d.size then some xs else none

/-- The array with this name, if it has the type it is used at. -/
def readArray {α : Type} (ds : List Definition) (type name : String)
    (element : Init → Option α) : Option (List α) := do
  let d ← ds.find? fun d => d.name = name
  if d.type = type then d.read element else none

/-- The arrays of `webgpu_tree`. -/
structure Pools where
  fields : List Field
  records : List Record
  topo : List Nat
  enumValues : List Enumerator
  enums : List Enumeration
  aliases : List Alias
  callbackArgs : List Text
  callbacks : List Callback
  functionArgs : List Text
  functions : List Function
  constants : List Constant

def readPools (ds : List Definition) : Option Pools := do
  some {
    fields := ← readArray ds "field" "fields" Field.read
    records := ← readArray ds "record" "records" Record.read
    topo := ← readArray ds "std::size_t" "topo" sizeT
    enumValues := ← readArray ds "enumerator" "enum_values" Enumerator.read
    enums := ← readArray ds "enumeration" "enums" Enumeration.read
    aliases := ← readArray ds "alias" "aliases" Alias.read
    callbackArgs := ← readArray ds "string_view" "callback_args" stringView
    callbacks := ← readArray ds "callback" "callbacks" Callback.read
    functionArgs := ← readArray ds "string_view" "function_args" stringView
    functions := ← readArray ds "function" "functions" Function.read
    constants := ← readArray ds "constant" "constants" Constant.read }

/-! ## `build_into` -/

/-- The loop `while (u)`, which fills `tmp` from its `n`-th character on. -/
def putDigits (u : UInt64) (tmp : Text) : Option Text :=
  if u = 0 then some tmp
  else if tmp.length < 24 then
    putDigits (u / 10) (tmp ++ [Char.ofNat ('0'.toNat + (u % 10).toNat)])
  else none
termination_by 24 - tmp.length
decreasing_by
  rw [List.length_append, List.length_singleton]
  omega

/-- What `put_int` appends. -/
def putInt (v : Int64) : Option Text :=
  if v = 0 then some ['0']
  else do
    let u := if v < 0 then (-(v + 1)).toUInt64 + 1 else v.toUInt64
    let tmp ← putDigits u []
    some (if v < 0 then '-' :: tmp.reverse else tmp.reverse)

namespace Pools

def prelude : Text :=
  ("# Generated by webgpu_introspect. Do not edit by hand.\n" ++
   "# Source: webgpu.h\n" ++
   "from ctypes import (\n" ++
   "    Structure, CFUNCTYPE, POINTER,\n" ++
   "    c_bool, c_char, c_byte, c_ubyte,\n" ++
   "    c_short, c_ushort, c_int, c_uint,\n" ++
   "    c_long, c_ulong, c_longlong, c_ulonglong,\n" ++
   "    c_int8, c_int16, c_int32, c_int64,\n" ++
   "    c_uint8, c_uint16, c_uint32, c_uint64,\n" ++
   "    c_float, c_double, c_size_t, c_void_p,\n" ++
   ")\n" ++
   "from enum import IntEnum\n\n").toList

def enumerator (v : Enumerator) : Option Text := do
  let value ← putInt v.value
  if v.isAlias then
    some ("    # ".toList ++ v.name ++ " = ".toList ++ value ++ "  (alias)\n".toList)
  else some ("    ".toList ++ v.name ++ " = ".toList ++ value ++ "\n".toList)

def enumClass (p : Pools) (e : Enumeration) : Option Text :=
  if e.valueCount = 0 then
    some ("class ".toList ++ e.name ++ "(IntEnum):\n".toList ++ "    pass\n\n".toList)
  else do
    let values ← slice p.enumValues e.valueBegin e.valueCount
    let text ← appendAll enumerator values
    some ("class ".toList ++ e.name ++ "(IntEnum):\n".toList ++ text ++ "\n".toList)

def constantLines (p : Pools) : Text :=
  if p.constants.length ≠ 0 then
    "# Flag and sentinel constants.\n".toList ++
      (p.constants.flatMap fun c => c.name ++ " = ".toList ++ c.value ++ "\n".toList) ++
      "\n".toList
  else []

def stub (r : Record) : Text := "class ".toList ++ r.name ++ "(Structure): pass\n".toList

def aliasLine (a : Alias) : Text := a.name ++ " = ".toList ++ a.ctype ++ "\n".toList

def field (f : Field) : Option Text := do
  let offset ← putInt f.offsetBytes
  let size ← putInt f.sizeBytes
  some ("    (\"".toList ++ f.name ++ "\", ".toList ++ f.ctype ++ "),  # offset=".toList ++
    offset ++ " size=".toList ++ size ++ " src=".toList ++ f.src ++ "\n".toList)

def fieldTable (p : Pools) (r : Record) : Option Text :=
  if r.isOpaque then some ("# ".toList ++ r.name ++ ": opaque (no layout exposed)\n".toList)
  else do
    let fields ← slice p.fields r.fieldBegin r.fieldCount
    let text ← appendAll field fields
    some (r.name ++ "._fields_ = [\n".toList ++ text ++ "]\n\n".toList)

def callback (p : Pools) (c : Callback) : Option Text := do
  let args ← slice p.callbackArgs c.argBegin c.argCount
  some (c.name ++ " = CFUNCTYPE(".toList ++ c.ret ++
    (args.flatMap fun a => ", ".toList ++ a) ++ ")\n".toList)

def function (p : Pools) (f : Function) : Option Text := do
  let args ← slice p.functionArgs f.argBegin f.argCount
  some ("    (\"".toList ++ f.name ++ "\", ".toList ++ f.ret ++ ", [".toList ++
    (args.zipIdx.flatMap fun a => (if a.2 ≠ 0 then ", ".toList else []) ++ a.1) ++
    "]),\n".toList)

def load : Text :=
  ("def load(path):\n" ++
   "    \"\"\"dlopen the WebGPU library and bind every function with its\n" ++
   "    ctypes restype/argtypes. Returns the ctypes.CDLL.\"\"\"\n" ++
   "    import ctypes\n" ++
   "    lib = ctypes.CDLL(path)\n" ++
   "    for name, restype, argtypes in _FUNCTIONS:\n" ++
   "        try:\n" ++
   "            fn = getattr(lib, name)\n" ++
   "        except AttributeError:\n" ++
   "            continue  # symbol not exported by this build\n" ++
   "        fn.restype = restype\n" ++
   "        fn.argtypes = argtypes\n" ++
   "    return lib\n").toList

def callbackTitle : Text :=
  "# Callback types — wrap a Python function: cb = WGPUFooCallback(fn)\n".toList

end Pools

/-- What `build_into` appends to an empty string. -/
def buildInto (p : Pools) : Option Text := do
  let enums ← appendAll p.enumClass p.enums
  let order ← p.topo.mapM fun i => p.records[i]?
  let tables ← appendAll p.fieldTable order
  let callbacks ← appendAll p.callback p.callbacks
  let functions ← appendAll p.function p.functions
  some (Pools.prelude ++ enums ++ p.constantLines ++
    p.records.flatMap Pools.stub ++ "\n".toList ++
    p.aliases.flatMap Pools.aliasLine ++ "\n".toList ++
    tables ++
    Pools.callbackTitle ++ callbacks ++ "\n".toList ++
    "_FUNCTIONS = [\n".toList ++ functions ++ "]\n\n".toList ++
    Pools.load)

end Ycetl.Ref.Webgpu
