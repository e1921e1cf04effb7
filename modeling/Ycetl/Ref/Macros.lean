import Ycetl.Lib.IntegerLiterals
import Ycetl.Ref.Webgpu

/-!
# Integer macros

`visit_macro` records an object-like macro of the API as a constant of the tree
when its body is a single value. libclang is asked for the cursor's tokens and
for a few facts about it; what it answers is the `MacroDefinition`.
-/

namespace Ycetl.Ref.Webgpu

open Ycetl.Lib

/-- What libclang says of a macro definition. The tokens are those of its
extent, so the first of them is the name. -/
structure MacroDefinition where
  fromMainHeader : Bool
  isFunctionLike : Bool
  spelling : Text
  tokens : List Text
deriving Repr, DecidableEq

/-- The tokens after the macro name, sans parens. -/
def MacroDefinition.body (decl : MacroDefinition) : List Text :=
  (decl.tokens.drop 1).filter fun tok => tok ≠ ['('] ∧ tok ≠ [')']

/-- The table `limits`. -/
def limits : List (Text × Text) :=
  [("UINT8_MAX".toList, "0xff".toList), ("UINT16_MAX".toList, "0xffff".toList),
   ("UINT32_MAX".toList, "0xffffffff".toList),
   ("UINT64_MAX".toList, "0xffffffffffffffff".toList),
   ("SIZE_MAX".toList, "0xffffffffffffffff".toList),
   ("INT32_MAX".toList, "0x7fffffff".toList),
   ("INT64_MAX".toList, "0x7fffffffffffffff".toList)]

def isSuffix (c : Char) : Bool := c = 'u' || c = 'U' || c = 'l' || c = 'L'

/-- `std::isxdigit`. -/
def isXdigit (c : Char) : Bool :=
  c.isDigit || ('a' ≤ c ∧ c ≤ 'f') || ('A' ≤ c ∧ c ≤ 'F')

/-- Strip integer-literal suffixes and accept decimal / `0x` forms: the digits,
or nothing when there is something else in the token. -/
def literalValue (tok : Text) : Text :=
  let digits := tok.rdropWhile isSuffix
  let hex := ['0', 'x'].isPrefixOf digits || ['0', 'X'].isPrefixOf digits
  let start := if hex then 2 else 0
  if digits.length > start &&
      (digits.drop start).all fun c => if hex then isXdigit c else c.isDigit then
    digits
  else []

/-- The text recorded for the only token of a body; it is empty if there is
none. -/
def macroValue (tok : Text) : Text :=
  match limits.lookup tok with
  | some value => value
  | none => literalValue tok

/-- The constant `visit_macro` pushes, if it does not return before that. -/
def macroConstant (decl : MacroDefinition) : Option ConstantInfo :=
  if !decl.fromMainHeader || decl.isFunctionLike then none
  else if !"WGPU".toList.isPrefixOf decl.spelling then none
  else match decl.body with
    | [tok] =>
        let value := macroValue tok
        if value ≠ [] then some ⟨decl.spelling, value⟩ else none
    | _ => none

def visitMacro (decl : MacroDefinition) (tree : ApiTree) : ApiTree :=
  match macroConstant decl with
  | some c => { tree with constants := tree.constants ++ [c] }
  | none => tree

end Ycetl.Ref.Webgpu
