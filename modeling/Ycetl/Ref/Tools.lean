import Ycetl.Ref.Cursors

/-!
# The two programs

`webgpu_introspect` is run on a header and writes up to two files, a Python
module and a C++ header with the same bindings. `webgpu_emit_py` is compiled
with that C++ header: the compiler makes the Python module and bakes it into an
array of fixed size, which the program writes to a file.

What `libclang` makes of the header is a parameter, and so is the sort; neither
is looked into here. Files have texts in them, as bytes, or the definitions of
a C++ header. What is printed is left out, but for what is wrong with the
arguments.
-/

namespace Ycetl.Ref.Webgpu

open Ycetl.Lib

/-! ## The arguments of `webgpu_introspect` -/

inductive CliOption where
  | header
  | python
  | tree
deriving DecidableEq

def CliOption.name : CliOption → Text
  | .header => "--header".toList
  | .python => "--python".toList
  | .tree => "--tree".toList

structure CliArgs where
  header : Text
  pythonOut : Text
  treeOut : Text
deriving DecidableEq

def CliArgs.empty : CliArgs := ⟨[], [], []⟩

/-- Why `parse_cli` returns false. -/
inductive CliError where
  | missingValue (arg : Text)
  | unknownArg (arg : Text)
  | usage
deriving DecidableEq

def CliError.message : CliError → Text
  | .missingValue arg => "missing value for ".toList ++ arg ++ "\n".toList
  | .unknownArg arg => "unknown arg: ".toList ++ arg ++ "\n".toList
  | .usage =>
      "usage: webgpu_introspect --header H.h [--python out.py] [--tree out.hpp]\n".toList

/-- The three comparisons of an argument. -/
def optionOf (a : Text) : Option CliOption :=
  if a = CliOption.header.name then some .header
  else if a = CliOption.python.name then some .python
  else if a = CliOption.tree.name then some .tree
  else none

def CliArgs.set (out : CliArgs) (v : Text) : CliOption → CliArgs
  | .header => { out with header := v }
  | .python => { out with pythonOut := v }
  | .tree => { out with treeOut := v }

/-- The loop of `parse_cli`. -/
def parseArgs : List Text → CliArgs → Except CliError CliArgs
  | [], out => .ok out
  | [a], _ =>
      match optionOf a with
      | some _ => .error (.missingValue a)
      | none => .error (.unknownArg a)
  | a :: v :: rest, out =>
      match optionOf a with
      | some o => parseArgs rest (out.set v o)
      | none => .error (.unknownArg a)

/-- `parse_cli` -/
def parseCli (argv : List Text) : Except CliError CliArgs :=
  match parseArgs (argv.drop 1) .empty with
  | .ok out => if out.header = [] then .error .usage else .ok out
  | .error e => .error e

/-- What `parse_cli` prints. -/
def cliPrints (argv : List Text) : Text :=
  match parseCli argv with
  | .ok _ => []
  | .error e => e.message

/-! ## Files -/

def utf8 (text : Text) : List UInt8 := text.flatMap String.utf8EncodeChar

inductive Content where
  | bytes (bs : List UInt8)
  | header (ds : List Definition)

/-- The files by their paths. -/
abbrev Files : Type := Text → Option Content

/-- What is written to a file that cannot be opened is lost. -/
def Files.write (opens : Text → Bool) (files : Files) (path : Text) (c : Content) : Files :=
  if opens path then Function.update files path (some c) else files

/-! ## The programs -/

section

variable (T : Target) (parse : Text → Option (List Cursor)) (sort : ApiTree → ApiTree)
  (opens : Text → Bool)

/-- `main` of `webgpu_introspect`: its exit status, and the files afterwards. -/
def introspect (argv : List Text) (files : Files) : Option (Nat × Files) :=
  match parseCli argv with
  | .error _ => some (1, files)
  | .ok args =>
      match parse args.header with
      | none => some (1, files)
      | some cursors => do
          let tree := sort (collect T cursors)
          let files ←
            if args.pythonOut = [] then some files
            else (emitPython tree).map fun text =>
              files.write opens args.pythonOut (.bytes (utf8 text))
          let files ←
            if args.treeOut = [] then some files
            else (emitTree tree).map fun ds => files.write opens args.treeOut (.header ds)
          some (0, files)

end

def cap : Nat := 262144

structure Baked where
  len : Nat
  data : List UInt8

/-- `for (char c : s) if (i < CAP) out.data[i++] = c;` -/
def bakeLoop (data : List UInt8) (i : Nat) : List UInt8 → List UInt8
  | [] => data
  | c :: s => if i < cap then bakeLoop (data.set i c) (i + 1) s else bakeLoop data i s

/-- `build`, which the compiler runs on the header that is included. -/
def build (ds : List Definition) : Option Baked := do
  let pools ← readPools ds
  let text ← buildInto pools
  let s := utf8 text
  some ⟨s.length, bakeLoop (List.replicate cap 0) 0 s⟩

/-- `std::fwrite(PY.data.data(), 1, PY.len, f)`, which may not read past the
end of the array. -/
def Baked.fwrite (py : Baked) : Option (List UInt8) :=
  if py.len ≤ py.data.length then some (py.data.take py.len) else none

def emitPath (argv : List Text) : Text := argv[1]?.getD "webgpu_ctypes_from_tree.py".toList

/-- `main` of `webgpu_emit_py`. -/
def emitPy (opens : Text → Bool) (py : Baked) (argv : List Text) (files : Files) :
    Option (Nat × Files) :=
  if opens (emitPath argv) then do
    let bs ← py.fwrite
    some (0, files.write opens (emitPath argv) (.bytes bs))
  else some (1, files)

end Ycetl.Ref.Webgpu
