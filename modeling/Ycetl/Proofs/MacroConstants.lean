import Ycetl.Ref.Macros

/-!
# What integer macros are recorded as

The scanner of `visit_macro` takes suffix letters off the end of a token, looks
for `0x` at its front and lets the rest through when all of it is digits. Of a
C literal that leaves exactly the digits, so what is recorded is a
Python literal for the same number, except for an octal literal: its digits pass
for decimal ones, and Python has no such literal.
-/

namespace Ycetl.Ref.Webgpu

open Ycetl.Lib

theorem isXdigit_eq (c : Char) : isXdigit c = (digit? c).isSome := by
  rw [isXdigit, digit?]
  by_cases h₁ : c.isDigit = true
  · simp [h₁]
  · by_cases h₂ : 'a' ≤ c ∧ c ≤ 'f'
    · simp [h₁, h₂]
    · by_cases h₃ : 'A' ≤ c ∧ c ≤ 'F'
      · simp [h₁, h₂, h₃]
      · simp [h₁, h₂, h₃]

/-- No digit is a suffix letter, hexadecimal ones included. -/
theorem isSuffix_of_digit {c : Char} (hc : (digit? c).isSome = true) : isSuffix c = false := by
  rw [Bool.eq_false_iff]
  intro hs
  simp only [isSuffix, Bool.or_eq_true, decide_eq_true_eq] at hs
  rcases hs with ((rfl | rfl) | rfl) | rfl <;> cases hc

/-- Popping the suffix letters stops at the last digit. -/
theorem rdropWhile_isSuffix (lit : CInteger) : lit.text.rdropWhile isSuffix = lit.digits.text := by
  have hsuffix : ∀ c ∈ (lit.suffix.map SuffixLetter.char).reverse, isSuffix c = true := by
    intro c hc
    obtain ⟨letter, -, rfl⟩ := List.mem_map.mp (List.mem_reverse.mp hc)
    cases letter <;> rfl
  have hstop : lit.digits.text.rdropWhile isSuffix = lit.digits.text := by
    rw [List.rdropWhile_eq_self_iff]
    intro hne
    rw [isSuffix_of_digit lit.digits.isSome_digit?_getLast]
    exact Bool.false_ne_true
  rw [CInteger.text, List.rdropWhile, List.reverse_append,
    List.dropWhile_append_of_pos hsuffix]
  exact hstop

/-- The radix is seen from the front: only a hexadecimal literal has the mark. -/
theorem isPrefixOf_text (d : CDigits) :
    (['0', 'x'].isPrefixOf d.text || ['0', 'X'].isPrefixOf d.text) =
      decide (d.radix = .hexadecimal) := by
  cases d with
  | decimal first rest =>
      have hne : '0' ≠ Nat.digitChar (first + 1) := by
        revert first
        decide
      simp [CDigits.text, CDigits.radix, List.isPrefixOf, hne]
  | octal rest =>
      cases rest with
      | nil => rfl
      | cons d ds =>
          have hne : 'x' ≠ Nat.digitChar d ∧ 'X' ≠ Nat.digitChar d := by
            revert d
            decide
          simp [CDigits.text, CDigits.radix, List.isPrefixOf, hne.1, hne.2]
  | hexadecimal upperX first rest =>
      cases upperX <;> simp [CDigits.text, CDigits.radix]

/-- The scanner lets every literal through, and leaves its digits as they are. -/
theorem literalValue_text (lit : CInteger) : literalValue lit.text = lit.digits.text := by
  simp only [literalValue, rdropWhile_isSuffix, isPrefixOf_text, Bool.and_eq_true,
    decide_eq_true_eq, List.all_eq_true]
  refine if_pos ?_
  cases lit.digits with
  | decimal first rest =>
      refine ⟨by simp [CDigits.radix, CDigits.text], fun c hc => ?_⟩
      rcases List.mem_cons.mp hc with rfl | hc
      · exact isDigit_digitChar _ (by omega)
      · obtain ⟨d, -, rfl⟩ := List.mem_map.mp hc
        exact isDigit_digitChar d d.isLt
  | octal rest =>
      refine ⟨by simp [CDigits.radix, CDigits.text], fun c hc => ?_⟩
      rcases List.mem_cons.mp hc with rfl | hc
      · rfl
      · obtain ⟨d, -, rfl⟩ := List.mem_map.mp hc
        exact isDigit_digitChar d (by omega)
  | hexadecimal upperX first rest =>
      refine ⟨by simp [CDigits.radix, CDigits.text], fun c hc => ?_⟩
      have hc' : c ∈ (first :: rest).map HexDigit.char := hc
      exact (isXdigit_eq c).trans ((HexDigit.spellsDigits_map _).isSome_digit? hc')

theorem head_text (d : CDigits) : d.text.head?.any Char.isDigit = true := by
  cases d with
  | decimal first rest => exact isDigit_digitChar _ (by omega)
  | octal rest => rfl
  | hexadecimal upperX first rest => rfl

/-- No literal is one of the names of the table. -/
theorem lookup_limits (lit : CInteger) : limits.lookup lit.text = none := by
  have hkeys : limits.all (fun row => !row.1.head?.any Char.isDigit) = true := by decide
  have hhead : lit.text.head?.any Char.isDigit = true := by
    rw [CInteger.text, List.head?_append_of_ne_nil _ lit.digits.text_ne_nil]
    exact head_text lit.digits
  rw [List.lookup_eq_none_iff]
  intro row hrow
  rw [bne_iff_ne]
  intro heq
  have hrow' := List.all_eq_true.mp hkeys row hrow
  rw [← heq, hhead] at hrow'
  cases hrow'

theorem macroValue_text (lit : CInteger) : macroValue lit.text = lit.digits.text := by
  rw [macroValue, lookup_limits, literalValue_text]

/-! ## The constants -/

/-- The macros `visit_macro` does not skip by what they are or by their name. -/
def MacroDefinition.Visited (decl : MacroDefinition) : Prop :=
  decl.fromMainHeader = true ∧ decl.isFunctionLike = false ∧ "WGPU".toList <+: decl.spelling

theorem macroConstant_eq_some_iff {decl : MacroDefinition} {lit : CInteger}
    (hbody : decl.body = [lit.text]) {c : ConstantInfo} :
    macroConstant decl = some c ↔
      decl.Visited ∧ c = ⟨decl.spelling, lit.digits.text⟩ := by
  rw [macroConstant, hbody, MacroDefinition.Visited]
  generalize "WGPU".toList = api
  simp only [macroValue_text, if_pos lit.digits.text_ne_nil]
  by_cases hlook : decl.fromMainHeader = true ∧ decl.isFunctionLike = false
  · by_cases hname : api <+: decl.spelling
    · have hprefix : api.isPrefixOf decl.spelling = true := List.isPrefixOf_iff_prefix.mpr hname
      simp [hlook, hname, hprefix, eq_comm]
    · have hprefix : api.isPrefixOf decl.spelling = false :=
        Bool.eq_false_iff.mpr fun h => hname (List.isPrefixOf_iff_prefix.mp h)
      simp [hlook, hname, hprefix]
  · have hskip : (!decl.fromMainHeader || decl.isFunctionLike) = true := by
      simpa [Classical.or_iff_not_imp_left] using hlook
    rw [if_pos hskip]
    refine ⟨fun h => ?_, fun h => ?_⟩
    · cases h
    · exact absurd ⟨h.1.1, h.1.2.1⟩ hlook

/-- `emit_python` writes every constant on a line of its own. -/
theorem mem_constants_written {cs : List ConstantInfo} {c : ConstantInfo} (hc : c ∈ cs) :
    ∃ before after, Python.constants cs =
      before ++ (c.name ++ " = ".toList ++ c.value ++ "\n".toList) ++ after := by
  obtain ⟨cs₁, cs₂, rfl⟩ := List.append_of_mem hc
  let lines := List.flatMap fun c : ConstantInfo =>
    c.name ++ " = ".toList ++ c.value ++ "\n".toList
  refine ⟨"# Flag and sentinel constants.\n".toList ++ lines cs₁, lines cs₂ ++ "\n".toList, ?_⟩
  rw [Python.constants, if_neg (by simp), List.flatMap_append, List.flatMap_cons]
  simp only [lines, List.append_assoc]

/-- What is recorded for the literal is a Python literal with its value, written
to the module as the value of the macro's name; and a decimal or hexadecimal
one is recorded. -/
structure KeepsValue (decl : MacroDefinition) (lit : CInteger) : Prop where
  read : ∀ c, macroConstant decl = some c → pyInteger? c.value = some lit.value
  written : ∀ c, macroConstant decl = some c → ∀ tree, ∃ before after,
    Python.constants (visitMacro decl tree).constants =
      before ++ (decl.spelling ++ " = ".toList ++ c.value ++ "\n".toList) ++ after
  recorded : lit.radix ≠ .octal → (macroConstant decl).isSome = true

/-- Of a macro that is not skipped the value is kept, unless the literal is octal
and not zero. Of one that is skipped only an octal literal may be missing. -/
theorem macro_values_kept_iff (decl : MacroDefinition) (lit : CInteger)
    (hbody : decl.body = [lit.text]) :
    KeepsValue decl lit ↔ (lit.radix ≠ .octal → decl.Visited) ∧
      (lit.radix = .octal → decl.Visited → lit.value = 0) := by
  refine ⟨fun h => ⟨fun hother => ?_, fun hoctal hdecl => ?_⟩,
    fun h => ⟨fun c hc => ?_, fun c hc tree => ?_, fun hother => ?_⟩⟩
  · obtain ⟨c, hc⟩ := Option.isSome_iff_exists.mp (h.recorded hother)
    exact ((macroConstant_eq_some_iff hbody).mp hc).1
  · have hread := h.read _ ((macroConstant_eq_some_iff hbody).mpr ⟨hdecl, rfl⟩)
    rw [pyInteger?_text] at hread
    by_contra hv
    rw [if_pos ⟨hoctal, hv⟩] at hread
    cases hread
  · obtain ⟨hdecl, rfl⟩ := (macroConstant_eq_some_iff hbody).mp hc
    rw [pyInteger?_text, if_neg fun hbad => hbad.2 (h.2 hbad.1 hdecl)]
    rfl
  · obtain ⟨hdecl, rfl⟩ := (macroConstant_eq_some_iff hbody).mp hc
    have hmem : (⟨decl.spelling, lit.digits.text⟩ : ConstantInfo) ∈
        (visitMacro decl tree).constants := by
      simp [visitMacro, hc]
    exact mem_constants_written hmem
  · exact Option.isSome_iff_exists.mpr
      ⟨_, (macroConstant_eq_some_iff hbody).mpr ⟨h.1 hother, rfl⟩⟩

/-- `#define WGPU_LIMIT (0x1FuL)`. -/
theorem limit_macro_kept :
    KeepsValue
      ⟨true, false, "WGPU_LIMIT".toList,
        ["WGPU_LIMIT".toList, ['('], "0x1FuL".toList, [')']]⟩
      ⟨.hexadecimal false ⟨1, false⟩ [⟨15, true⟩], [.u, .L]⟩ := by
  refine (macro_values_kept_iff _ _ ?_).mpr ⟨fun _ => ⟨rfl, rfl, ?_⟩, fun h => ?_⟩
  · decide
  · decide
  · cases h

/-- `#define WGPU_MODE 010` is eight in C. Its digits are recorded as they are,
and they are no literal of Python. -/
theorem mode_macro_not_kept :
    let decl : MacroDefinition :=
      ⟨true, false, "WGPU_MODE".toList, ["WGPU_MODE".toList, "010".toList]⟩
    let lit : CInteger := ⟨.octal [1, 0], []⟩
    decl.body = [lit.text] ∧ lit.value = 8 ∧ decl.Visited ∧
      macroConstant decl = some ⟨"WGPU_MODE".toList, "010".toList⟩ ∧
      pyInteger? "010".toList = none ∧ ¬ KeepsValue decl lit := by
  intro decl lit
  have hrec : macroConstant decl = some ⟨"WGPU_MODE".toList, "010".toList⟩ := by
    have hbody : decl.body = [lit.text] := by decide
    have hdecl : decl.Visited := ⟨rfl, rfl, by decide⟩
    have htext : lit.digits.text = "010".toList := by decide
    rw [macroConstant_eq_some_iff hbody, htext]
    exact ⟨hdecl, rfl⟩
  have hread : pyInteger? "010".toList = none := by decide
  refine ⟨by decide, by decide, ⟨rfl, rfl, by decide⟩, hrec, hread, fun h => ?_⟩
  have hval := h.read _ hrec
  rw [hread] at hval
  cases hval

end Ycetl.Ref.Webgpu
