import Mathlib.Data.List.DropRight
import Ycetl.Lib.Initializers

/-!
# Integer literals of C and of Python

A literal of C is built here from its digits: decimal, octal behind a zero, or
hexadecimal behind `0x`, with suffix letters after them. It has a text and a
value. Python's grammar is given as a reader of texts. It has no suffixes, it
marks an octal literal by `0o`, and a decimal literal may start with a zero
only when it has no other digits. A single underscore may stand between two
digits and behind a radix mark.

`SpellsDigits b cs ds` says that the characters `cs` are the digits `ds` in base
`b`; what the two languages have in common is said about it.
-/

namespace Ycetl.Lib

/-! ## Digits -/

/-- The digit a character is, in the radices up to sixteen. -/
def digit? (c : Char) : Option Nat :=
  if c.isDigit then some (c.toNat - '0'.toNat)
  else if 'a' ≤ c ∧ c ≤ 'f' then some (c.toNat - 'a'.toNat + 10)
  else if 'A' ≤ c ∧ c ≤ 'F' then some (c.toNat - 'A'.toNat + 10)
  else none

/-- The digit a character is in base `b`. -/
def digitOf (b : Nat) (c : Char) : Option Nat := (digit? c).filter (· < b)

/-- The number with these digits, the most significant one first. -/
def ofBigEndian (b : Nat) (ds : List Nat) : Nat := Nat.ofDigits b ds.reverse

/-- The characters are these digits in base `b`. -/
def SpellsDigits (b : Nat) (cs : Text) (ds : List Nat) : Prop :=
  List.Forall₂ (fun c d => digitOf b c = some d) cs ds

theorem digitOf_digitChar {b d : Nat} (hb : b ≤ 10) (hd : d < b) :
    digitOf b (Nat.digitChar d) = some d := by
  have hdigit : ∀ e < 10, digit? (Nat.digitChar e) = some e := by decide
  rw [digitOf, hdigit d (by omega)]
  simpa using hd

/-- The digits below `k` are digits of every base from `k` to ten. -/
theorem spellsDigits_map {k b : Nat} (hk : k ≤ b) (hb : b ≤ 10) (ds : List (Fin k)) :
    SpellsDigits b (ds.map fun d : Fin k => Nat.digitChar d) (ds.map fun d : Fin k => d.val) := by
  rw [SpellsDigits, List.forall₂_map_left_iff, List.forall₂_map_right_iff, List.forall₂_same]
  exact fun d _ => digitOf_digitChar hb (Nat.lt_of_lt_of_le d.isLt hk)

theorem digit?_of_digitOf {b d : Nat} {c : Char} (h : digitOf b c = some d) :
    digit? c = some d := by
  rw [digitOf, Option.filter_eq_some_iff] at h
  exact h.1

theorem ofBigEndian_eq_foldl (b : Nat) (ds : List Nat) :
    ofBigEndian b ds = ds.foldl (fun acc d => acc * b + d) 0 := by
  rw [ofBigEndian, Nat.ofDigits_eq_foldr, List.foldr_reverse]
  congr 1
  funext acc d
  simp [Nat.mul_comm, Nat.add_comm]

/-- Only zeros make zero. -/
theorem ofBigEndian_eq_zero_iff {b : Nat} (hb : b ≠ 0) (ds : List Nat) :
    ofBigEndian b ds = 0 ↔ ∀ d ∈ ds, d = 0 := by
  refine ⟨fun h d hd => ?_, fun h => ?_⟩
  · exact Nat.digits_zero_of_eq_zero hb h d (List.mem_reverse.mpr hd)
  · rw [ofBigEndian_eq_foldl]
    induction ds with
    | nil => rfl
    | cons d ds ih =>
        rw [List.foldl_cons, h d List.mem_cons_self, Nat.zero_mul]
        exact ih fun e he => h e (List.mem_cons_of_mem _ he)

theorem SpellsDigits.isSome_digit? {b : Nat} {cs : Text} {ds : List Nat}
    (h : SpellsDigits b cs ds) {c : Char} (hc : c ∈ cs) : (digit? c).isSome = true := by
  obtain ⟨i, hi, rfl⟩ := List.getElem_of_mem hc
  have hget := h.get hi (h.length_eq ▸ hi)
  simpa using congrArg Option.isSome (digit?_of_digitOf hget)

/-! ## C -/

inductive SuffixLetter where
  | u
  | U
  | l
  | L
deriving Repr, DecidableEq

def SuffixLetter.char : SuffixLetter → Char
  | .u => 'u'
  | .U => 'U'
  | .l => 'l'
  | .L => 'L'

/-- A digit of a hexadecimal literal; one above nine is a letter of either case. -/
structure HexDigit where
  digit : Fin 16
  upper : Bool
deriving Repr, DecidableEq

def HexDigit.char (d : HexDigit) : Char :=
  if d.upper then (Nat.digitChar d.digit).toUpper else Nat.digitChar d.digit

theorem HexDigit.digitOf_char (d : HexDigit) : digitOf 16 d.char = some d.digit.val := by
  obtain ⟨digit, upper⟩ := d
  revert digit upper
  decide

theorem HexDigit.spellsDigits_map (ds : List HexDigit) :
    SpellsDigits 16 (ds.map HexDigit.char) (ds.map fun d => d.digit.val) := by
  rw [SpellsDigits, List.forall₂_map_left_iff, List.forall₂_map_right_iff, List.forall₂_same]
  exact fun d _ => d.digitOf_char

inductive Radix where
  | decimal
  | octal
  | hexadecimal
deriving Repr, DecidableEq

/-- The digits of a literal. A decimal literal starts with the digit `first + 1`,
and the digits of an octal one are what follows its zero. -/
inductive CDigits where
  | decimal (first : Fin 9) (rest : List (Fin 10))
  | octal (rest : List (Fin 8))
  | hexadecimal (upperX : Bool) (first : HexDigit) (rest : List HexDigit)
deriving Repr, DecidableEq

structure CInteger where
  digits : CDigits
  suffix : List SuffixLetter
deriving Repr, DecidableEq

namespace CDigits

def radix : CDigits → Radix
  | .decimal _ _ => .decimal
  | .octal _ => .octal
  | .hexadecimal _ _ _ => .hexadecimal

def text : CDigits → Text
  | .decimal first rest =>
      Nat.digitChar (first + 1) :: rest.map fun d : Fin 10 => Nat.digitChar d
  | .octal rest => '0' :: rest.map fun d : Fin 8 => Nat.digitChar d
  | .hexadecimal upperX first rest =>
      '0' :: (if upperX then 'X' else 'x') :: (first :: rest).map HexDigit.char

def value : CDigits → Nat
  | .decimal first rest => ofBigEndian 10 ((first + 1) :: rest.map fun d : Fin 10 => d.val)
  | .octal rest => ofBigEndian 8 (rest.map fun d : Fin 8 => d.val)
  | .hexadecimal _ first rest => ofBigEndian 16 ((first :: rest).map fun d => d.digit.val)

end CDigits

namespace CInteger

def radix (c : CInteger) : Radix := c.digits.radix

def text (c : CInteger) : Text := c.digits.text ++ c.suffix.map SuffixLetter.char

def value (c : CInteger) : Nat := c.digits.value

end CInteger

theorem CDigits.text_ne_nil (c : CDigits) : c.text ≠ [] := by
  cases c <;> exact List.cons_ne_nil _ _

/-- Its suffix apart, a literal ends with a digit. -/
theorem CDigits.isSome_digit?_getLast (c : CDigits) :
    (digit? (c.text.getLast c.text_ne_nil)).isSome = true := by
  cases c with
  | decimal first rest =>
      have hfirst : digitOf 10 (Nat.digitChar (first + 1)) = some (first.val + 1) :=
        digitOf_digitChar (by decide) (by omega)
      have hall : SpellsDigits 10 (CDigits.text (.decimal first rest))
          ((first.val + 1) :: rest.map fun d : Fin 10 => d.val) :=
        .cons hfirst (spellsDigits_map (by decide) (by decide) rest)
      exact hall.isSome_digit? (List.getLast_mem _)
  | octal rest =>
      have hall : SpellsDigits 8 (CDigits.text (.octal rest))
          (0 :: rest.map fun d : Fin 8 => d.val) :=
        .cons rfl (spellsDigits_map (by decide) (by decide) rest)
      exact hall.isSome_digit? (List.getLast_mem _)
  | hexadecimal upperX first rest =>
      have hlast : (CDigits.text (.hexadecimal upperX first rest)).getLast
          (CDigits.text_ne_nil _) = ((first :: rest).map HexDigit.char).getLast (by simp) := by
        simp only [CDigits.text]
        rw [List.getLast_cons (by simp), List.getLast_cons (by simp)]
      rw [hlast]
      exact (HexDigit.spellsDigits_map (first :: rest)).isSome_digit? (List.getLast_mem _)

/-! ## Python -/

/-- Digits, each of them with an underscore in front of it or without. -/
def pyDigits (b : Nat) : Text → Nat → Option Nat
  | [], acc => some acc
  | '_' :: c :: cs, acc => (digitOf b c).bind fun d => pyDigits b cs (acc * b + d)
  | c :: cs, acc => (digitOf b c).bind fun d => pyDigits b cs (acc * b + d)

/-- What stands behind a radix mark: at least one digit. -/
def pyRadix (b : Nat) (cs : Text) : Option Nat := if cs = [] then none else pyDigits b cs 0

/-- The value of an integer literal of Python. Behind a zero that is no radix
mark there may only be zeros. -/
def pyInteger? : Text → Option Nat
  | [] => none
  | ['0'] => some 0
  | '0' :: c :: cs =>
      if c = 'x' ∨ c = 'X' then pyRadix 16 cs
      else if c = 'o' ∨ c = 'O' then pyRadix 8 cs
      else if c = 'b' ∨ c = 'B' then pyRadix 2 cs
      else (pyDigits 10 (c :: cs) 0).filter (· = 0)
  | c :: cs => (digitOf 10 c).bind fun d => pyDigits 10 cs d

/-- The value of such a literal, or of one behind a minus sign. -/
def pySigned? : Text → Option Int
  | '-' :: cs => (pyInteger? cs).map fun n : Nat => -(n : Int)
  | cs => (pyInteger? cs).map fun n : Nat => (n : Int)

theorem digitOf_underscore (b : Nat) : digitOf b '_' = none := rfl

theorem pyDigits_cons {b d acc : Nat} {c : Char} (hc : digitOf b c = some d) (cs : Text) :
    pyDigits b (c :: cs) acc = pyDigits b cs (acc * b + d) := by
  have hne : c ≠ '_' := by
    intro h
    rw [h, digitOf_underscore] at hc
    cases hc
  rw [pyDigits, hc, Option.bind_some]
  intro _ _ h _
  exact hne h

theorem pyDigits_eq {b : Nat} {cs : Text} {ds : List Nat} (h : SpellsDigits b cs ds) (acc : Nat) :
    pyDigits b cs acc = some (ds.foldl (fun acc d => acc * b + d) acc) := by
  induction h generalizing acc with
  | nil => rfl
  | cons hc _ ih => rw [pyDigits_cons hc, ih, List.foldl_cons]

theorem pyRadix_eq {b : Nat} {cs : Text} {ds : List Nat} (h : SpellsDigits b cs ds)
    (hne : cs ≠ []) : pyRadix b cs = some (ofBigEndian b ds) := by
  rw [pyRadix, if_neg hne, pyDigits_eq h, ofBigEndian_eq_foldl]

/-- Digits that do not start with a zero are read in base ten. -/
theorem pyInteger?_eq {c : Char} {cs : Text} {ds : List Nat} (h : SpellsDigits 10 (c :: cs) ds)
    (hc : c ≠ '0') : pyInteger? (c :: cs) = some (ofBigEndian 10 ds) := by
  obtain ⟨d, ds, rfl⟩ : ∃ d ds', ds = d :: ds' := by
    cases h with
    | cons _ _ => exact ⟨_, _, rfl⟩
  obtain ⟨hd, hds⟩ := List.forall₂_cons.mp h
  rw [pyInteger?, hd, Option.bind_some, pyDigits_eq hds, ofBigEndian_eq_foldl, List.foldl_cons,
    Nat.zero_mul, Nat.zero_add]
  · intro h _
    exact hc h
  · intro _ _ h _
    exact hc h

theorem pyInteger?_decimal (first : Fin 9) (rest : List (Fin 10)) :
    pyInteger? (CDigits.text (.decimal first rest)) =
      some (CDigits.value (.decimal first rest)) := by
  have hfirst : digitOf 10 (Nat.digitChar (first + 1)) = some (first.val + 1) :=
    digitOf_digitChar (by decide) (by omega)
  have hne : Nat.digitChar (first + 1) ≠ '0' := by
    intro h
    rw [h] at hfirst
    cases hfirst
  exact pyInteger?_eq (.cons hfirst (spellsDigits_map (by decide) (by decide) rest)) hne

theorem spellsDigits_numeral {n : Nat} (hn : n ≠ 0) :
    SpellsDigits 10 (numeral n) (Nat.digits 10 n).reverse := by
  rw [numeral, if_neg hn, SpellsDigits, List.forall₂_reverse_iff, List.forall₂_map_left_iff,
    List.forall₂_same]
  exact fun d hd => digitOf_digitChar (by decide) (Nat.digits_lt_base (by decide) hd)

theorem pyInteger?_numeral (n : Nat) : pyInteger? (numeral n) = some n := by
  by_cases hn : n = 0
  · subst hn
    rfl
  · obtain ⟨c, cs, hcs⟩ := List.exists_cons_of_ne_nil (numeral_ne_nil n)
    have hspells := spellsDigits_numeral hn
    have hc : c ≠ '0' := fun hc => head?_numeral hn (by rw [hcs, hc]; rfl)
    rw [hcs] at hspells
    rw [hcs, pyInteger?_eq hspells hc, ofBigEndian, List.reverse_reverse, Nat.ofDigits_digits]

theorem pyInteger?_hexadecimal (upperX : Bool) (first : HexDigit) (rest : List HexDigit) :
    pyInteger? (CDigits.text (.hexadecimal upperX first rest)) =
      some (CDigits.value (.hexadecimal upperX first rest)) := by
  have hx : (if upperX then 'X' else 'x') = 'x' ∨ (if upperX then 'X' else 'x') = 'X' := by
    cases upperX
    · exact .inl rfl
    · exact .inr rfl
  rw [CDigits.text, pyInteger?, if_pos hx, CDigits.value]
  exact pyRadix_eq (HexDigit.spellsDigits_map _) (by simp)

/-- Behind a zero Python reads more zeros and nothing else. -/
theorem pyInteger?_octal (rest : List (Fin 8)) :
    pyInteger? (CDigits.text (.octal rest)) =
      if CDigits.value (.octal rest) = 0 then some 0 else none := by
  cases rest with
  | nil => rfl
  | cons d ds =>
      have hd : digitOf 8 (Nat.digitChar d) = some d.val := digitOf_digitChar (by decide) d.isLt
      have hmark : ∀ c, digitOf 8 c = none → Nat.digitChar d ≠ c := by
        intro c hc h
        rw [h, hc] at hd
        cases hd
      have hread : pyDigits 10 ((d :: ds).map fun d : Fin 8 => Nat.digitChar d) 0 =
          some (ofBigEndian 10 ((d :: ds).map fun d : Fin 8 => d.val)) := by
        rw [ofBigEndian_eq_foldl]
        exact pyDigits_eq (spellsDigits_map (by decide) (by decide) (d :: ds)) 0
      have hzero : ofBigEndian 10 ((d :: ds).map fun d : Fin 8 => d.val) = 0 ↔
          CDigits.value (.octal (d :: ds)) = 0 := by
        rw [CDigits.value, ofBigEndian_eq_zero_iff (by decide), ofBigEndian_eq_zero_iff (by decide)]
      rw [CDigits.text, List.map_cons, pyInteger?,
        if_neg (fun h => h.elim (hmark 'x' rfl) (hmark 'X' rfl)),
        if_neg (fun h => h.elim (hmark 'o' rfl) (hmark 'O' rfl)),
        if_neg (fun h => h.elim (hmark 'b' rfl) (hmark 'B' rfl))]
      rw [List.map_cons] at hread
      rw [hread]
      by_cases hv : CDigits.value (.octal (d :: ds)) = 0
      · rw [if_pos hv, hzero.mpr hv]
        rfl
      · rw [if_neg hv, Option.filter_some, if_neg]
        simpa only [decide_eq_true_eq, hzero] using hv

/-- Python reads the digits of a C literal as the number they are in C, unless
they are octal and not all of them are zeros. -/
theorem pyInteger?_text (c : CDigits) :
    pyInteger? c.text = if c.radix = .octal ∧ c.value ≠ 0 then none else some c.value := by
  cases c with
  | decimal first rest =>
      rw [pyInteger?_decimal, if_neg (fun h => Radix.noConfusion h.1)]
  | octal rest =>
      rw [pyInteger?_octal]
      by_cases hv : CDigits.value (.octal rest) = 0
      · rw [if_pos hv, if_neg (fun h => h.2 hv), hv]
      · rw [if_neg hv, if_pos ⟨rfl, hv⟩]
  | hexadecimal upperX first rest =>
      rw [pyInteger?_hexadecimal, if_neg (fun h => Radix.noConfusion h.1)]

theorem isSome_pySigned? {cs : Text} (h : (pyInteger? cs).isSome) : (pySigned? cs).isSome := by
  have hhead : ∀ rest, cs ≠ '-' :: rest := by
    rintro rest rfl
    rw [pyInteger?] at h
    · cases h
    · intro h _
      cases h
    · intro _ _ h _
      cases h
  rw [pySigned?]
  · exact Option.isSome_map.trans h
  · exact hhead

/-- Python reads an integer as it was written. -/
theorem pySigned?_decimal (v : Int) : pySigned? (decimal v) = some v := by
  rw [decimal]
  split
  · rw [pySigned?, pyInteger?_numeral, Option.map_some]
    exact congrArg some (by omega)
  · rw [pySigned?, pyInteger?_numeral, Option.map_some]
    · exact congrArg some (by omega)
    · intro cs hcs
      have hdigit := isDigit_numeral (hcs ▸ List.mem_cons_self : '-' ∈ numeral v.natAbs)
      exact absurd hdigit (by decide)

end Ycetl.Lib
