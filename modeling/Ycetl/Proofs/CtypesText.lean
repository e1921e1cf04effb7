import Ycetl.Proofs.PyExpansions
import Ycetl.Ref.PyModule

/-!
# What the expressions of `ctypes_for` denote

`ctypes_for` writes an array behind its element, and a record without a tag as
bytes in parentheses. Python multiplies from the left, so the text of a type is
read as the type again: its arrays, one inside the other, around a name.
-/

namespace Ycetl.Ref.Webgpu

open Ycetl.Lib

/-! ## Products -/

theorem splitOn_times (e : Text) (n : Nat) :
    (e ++ " * ".toList ++ numeral n).splitOn ' ' = e.splitOn ' ' ++ [['*'], numeral n] := by
  have hstar : ['*'].splitOn ' ' = [['*']] := List.splitOn_eq_singleton (by decide)
  have hnum : (numeral n).splitOn ' ' = [numeral n] :=
    List.splitOn_eq_singleton (space_not_mem_numeral n)
  rw [List.append_assoc, show " * ".toList ++ numeral n = ' ' :: (['*'] ++ ' ' :: numeral n)
    from rfl, List.splitOn_append_cons_self, List.splitOn_append_cons_self, hstar, hnum]
  rfl

theorem readFactors_times (ty : CType) (e : Text) (n : Nat) :
    readFactors ty (e ++ " * ".toList ++ numeral n) = (readFactors ty e).map (.array n) := by
  rw [readFactors, readFactors, splitOn_times]
  match he : e.splitOn ' ' with
  | [] => exact absurd he (List.splitOn_ne_nil _ _)
  | [] :: rest => exact readTimes_append ty rest n
  | (c :: w) :: rest => rfl

theorem paren_not_mem_times (n : Nat) : ')' ∉ " * ".toList ++ numeral n := by
  intro h
  rcases List.mem_append.mp h with h | h
  · revert h
    decide
  · have := isDigit_numeral h
    revert this
    decide

/-- A product is read as an array of what its first factor is read as. -/
theorem readCtypes_times (e : Text) (n : Nat) :
    readCtypes (e ++ " * ".toList ++ numeral n) = (readCtypes e).map (.array n) := by
  match e with
  | [] => exact readExpr_times [] n
  | c :: e =>
      by_cases hc : c = '('
      · subst hc
        rw [List.append_assoc, List.cons_append, readCtypes, readCtypes]
        by_cases hclose : ')' ∈ e
        · obtain ⟨a, rest, rfl, ha⟩ := List.eq_append_cons_of_mem hclose
          have hne : ∀ d ∈ a, decide (d ≠ ')') = true := fun d hd =>
            decide_eq_true fun h => ha (h ▸ hd)
          rw [List.append_assoc, List.takeWhile_append_of_pos hne, List.takeWhile_append_of_pos hne,
            List.dropWhile_append_of_pos hne, List.dropWhile_append_of_pos hne, List.cons_append,
            List.takeWhile_cons_of_neg (by decide), List.takeWhile_cons_of_neg (by decide),
            List.dropWhile_cons_of_neg (by decide), List.dropWhile_cons_of_neg (by decide)]
          show (readExpr (a ++ [])).bind _ = ((readExpr (a ++ [])).bind _).map _
          rw [Option.map_bind]
          refine congrArg _ (funext fun ty => ?_)
          rw [← List.append_assoc]
          exact readFactors_times ty rest n
        · have hne : ∀ d ∈ e ++ (" * ".toList ++ numeral n), decide (d ≠ ')') = true :=
            fun d hd => decide_eq_true fun h => by
              subst h
              exact (List.mem_append.mp hd).elim hclose (paren_not_mem_times n)
          have hne' : ∀ d ∈ e, decide (d ≠ ')') = true := fun d hd =>
            hne d (List.mem_append_left _ hd)
          rw [List.dropWhile_eq_nil_iff.mpr hne, List.dropWhile_eq_nil_iff.mpr hne']
          cases readExpr (List.takeWhile _ (e ++ (" * ".toList ++ numeral n))) <;>
            cases readExpr (List.takeWhile _ e) <;> rfl
      · have hread : ∀ w : Text, readCtypes (c :: w) = readExpr (c :: w) := fun w => by
          rw [readCtypes.eq_2]
          intro w' h
          exact hc (List.cons.inj h).1
        rw [List.cons_append, List.cons_append, hread, hread]
        exact readExpr_times (c :: e) n

/-! ## Types -/

instance wordDecidable (s : Text) : Decidable (Word s) :=
  List.decidableBAll (fun c => c ≠ ' ' ∧ c ≠ '(') s

theorem readCtypes_word {s : Text} (h : Word s) : readCtypes s = some (.named s) := by
  have hread : readCtypes s = readExpr s := by
    match s with
    | [] => rfl
    | c :: w =>
        rw [readCtypes.eq_2]
        intro w' heq
        exact (h c List.mem_cons_self).2 (List.cons.inj heq).1
  rw [hread]
  exact readExpr_word fun hmem => (h _ hmem).1 rfl

/-- Parentheses around an expression change nothing. -/
theorem readCtypes_paren {e : Text} (h : ')' ∉ e) :
    readCtypes ('(' :: (e ++ [')'])) = readExpr e := by
  have hne : ∀ d ∈ e, decide (d ≠ ')') = true := fun d hd => decide_eq_true fun heq => h (heq ▸ hd)
  rw [readCtypes, List.takeWhile_append_of_pos hne, List.dropWhile_append_of_pos hne,
    List.takeWhile_cons_of_neg (by decide), List.dropWhile_cons_of_neg (by decide), List.append_nil]
  exact Option.bind_fun_some _

theorem Builtin.word_ctypes (kind : Builtin) : Word kind.ctypes := by
  cases kind <;> decide

theorem word_cVoidP : Word cVoidP := by decide

theorem word_ctypesOfSize (size : Int64) : Word (ctypesOfSize size) := by
  rw [ctypesOfSize]
  split
  · decide
  · split
    · decide
    · split
      · decide
      · split
        · decide
        · exact word_cVoidP

namespace CXType

variable (T : Target)

theorem extent_canonical (t : CXType) : t.canonical.extent T = t.extent T := by
  fun_induction canonical t with
  | case1 c ih => exact ih
  | case2 t hsugar => rfl

variable {T} in
/-- A type with an extent is as large as libclang says. -/
theorem getSizeOf_eq {t : CXType} {e : Extent} (h : t.extent T = some e) :
    t.getSizeOf T = .ofNat e.size := by
  rw [← extent_canonical] at h
  rw [getSizeOf]
  split
  · next hc => rw [hc] at h; cases h
  · next hc => rw [hc] at h; cases h
  · rw [h]

/-- How many bytes a record without a tag is written as. -/
def blobSize (t : CXType) : Nat :=
  (if 0 < t.getSizeOf T then t.getSizeOf T else 0).toInt.toNat

/-- The type that the expression of `ctypes_for` denotes. -/
def py : CXType → CType
  | builtin kind => .named kind.ctypes
  | pointer _ => .named cVoidP
  | enum integer => integer.py
  | record name e =>
      if name = [] then .array ((record name e).blobSize T) (.named "c_char".toList)
      else .named name
  | constantArray elem n => .array n elem.py
  | sugar c => c.py
  | t => .named (ctypesOfSize (t.getSizeOf T))

/-- The name that the expression of the type has is a word if it is a tag. -/
def TagIsWord : CXType → Prop
  | record tag _ => Word tag
  | enum integer => integer.TagIsWord
  | constantArray elem _ => elem.TagIsWord
  | sugar c => c.TagIsWord
  | _ => True

end CXType

theorem decimal_blobSize (T : Target) (t : CXType) :
    decimal (if 0 < t.getSizeOf T then t.getSizeOf T else 0).toInt = numeral (t.blobSize T) := by
  have hnonneg : 0 ≤ (if 0 < t.getSizeOf T then t.getSizeOf T else 0).toInt := by
    split
    · next h => exact Int.le_of_lt (Int64.lt_iff_toInt_lt.mp h)
    · exact Int.le_refl _
  rw [decimal, if_neg (Int.not_lt.mpr hnonneg), CXType.blobSize]
  congr 1
  omega

theorem readCtypes_ctypesFor (T : Target) {t : CXType} (h : t.TagIsWord) :
    readCtypes (ctypesFor T t) = some (t.py T) := by
  fun_induction ctypesFor T t with
  | case1 kind => exact readCtypes_word kind.word_ctypes
  | case2 pointee => exact readCtypes_word word_cVoidP
  | case3 integer ih => exact ih h
  | case4 e sizeBytes =>
      have htext : "(c_char * ".toList ++
          decimal (if 0 < sizeBytes then sizeBytes else 0).toInt ++ ")".toList =
          '(' :: (("c_char".toList ++ " * ".toList ++
            numeral ((CXType.record [] e).blobSize T)) ++ [')']) := by
        rw [decimal_blobSize]
        rfl
      rw [htext, readCtypes_paren, readExpr_times, readExpr_word (by decide), Option.map_some,
        CXType.py, if_pos rfl]
      intro hmem
      rw [List.append_assoc] at hmem
      exact (List.mem_append.mp hmem).elim (by decide) (paren_not_mem_times _)
  | case5 name e hname =>
      rw [readCtypes_word h, CXType.py, if_neg hname]
  | case6 elem n ih =>
      rw [readCtypes_times, ih h]
      rfl
  | case7 c ih => exact ih h
  | case8 t hbuiltin hpointer henum hrecord harray hsugar =>
      rw [readCtypes_word (word_ctypesOfSize _)]
      cases t with
      | builtin kind => exact absurd rfl (hbuiltin kind)
      | pointer p => exact absurd rfl (hpointer p)
      | enum i => exact absurd rfl (henum i)
      | record name e => exact absurd rfl (hrecord name e)
      | constantArray elem n => exact absurd rfl (harray elem n)
      | sugar c => exact absurd rfl (hsugar c)
      | incompleteArray elem => rfl
      | functionProto result args => rfl
      | functionNoProto result => rfl
      | other e => rfl

end Ycetl.Ref.Webgpu
