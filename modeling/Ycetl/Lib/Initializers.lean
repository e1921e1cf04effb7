import Mathlib.Data.Nat.Digits.Lemmas

/-!
# Decimal numerals and braced initialisers

Texts are lists of characters. A number is written as a decimal numeral, with
a sign when it is negative. The other half of this file reads: an initialiser
is a string literal, an integer literal, a truth value, or a list of
initialisers in braces, and the reader is an automaton that takes one
character at a time. `Reads w i` says that the text `w` is read as the
initialiser `i` wherever one is expected, and what is put together from texts
that are read is read again.

The reader knows what a generator of tables needs: quoted characters and no
other escapes, decimal literals without a suffix or with `LL`, and a comma
after the last item of a list. A literal without a suffix has a type that its
value fits in. One with `LL` has the type `long long`, and none if it does not
fit there.
-/

namespace Ycetl.Lib

abbrev Text := List Char

/-! ## Numerals -/

/-- A number in decimal digits. -/
def numeral (n : Nat) : Text :=
  if n = 0 then ['0'] else ((Nat.digits 10 n).map Nat.digitChar).reverse

def decimal (v : Int) : Text :=
  if v < 0 then '-' :: numeral v.natAbs else numeral v.natAbs

def digitValue (c : Char) : Nat := c.toNat - '0'.toNat

/-- The value of a decimal literal: no zeros in front. -/
def numeral? (w : Text) : Option Nat :=
  if w = ['0'] then some 0
  else if w = [] ∨ w.head? = some '0' ∨ w.all Char.isDigit = false then none
  else some (Nat.ofDigits 10 (w.reverse.map digitValue))

theorem digitValue_digitChar : ∀ d < 10, digitValue (Nat.digitChar d) = d := by decide

theorem isDigit_digitChar : ∀ d < 10, (Nat.digitChar d).isDigit = true := by decide

theorem digitChar_ne_zero : ∀ d < 10, d ≠ 0 → Nat.digitChar d ≠ '0' := by decide

theorem isDigit_numeral {n : Nat} {c : Char} (hc : c ∈ numeral n) : c.isDigit = true := by
  rw [numeral] at hc
  split at hc
  · rw [List.mem_singleton.mp hc]
    rfl
  · obtain ⟨d, hd, rfl⟩ := List.mem_map.mp (List.mem_reverse.mp hc)
    exact isDigit_digitChar d (Nat.digits_lt_base (by decide) hd)

theorem numeral_ne_nil (n : Nat) : numeral n ≠ [] := by
  rw [numeral]
  split
  · exact List.cons_ne_nil _ _
  · next h =>
      rw [Ne, List.reverse_eq_nil_iff, List.map_eq_nil_iff]
      exact Nat.digits_ne_nil_iff_ne_zero.mpr h

/-- A numeral has no zeros in front. -/
theorem head?_numeral {n : Nat} (hn : n ≠ 0) : (numeral n).head? ≠ some '0' := by
  have hne : Nat.digits 10 n ≠ [] := Nat.digits_ne_nil_iff_ne_zero.mpr hn
  have hlast := Nat.getLast_digit_ne_zero 10 hn
  rw [numeral, if_neg hn, List.head?_reverse, List.getLast?_map, List.getLast?_eq_some_getLast hne]
  intro h
  exact digitChar_ne_zero _ (Nat.digits_lt_base (by decide) (List.getLast_mem hne)) hlast
    (Option.some.inj h)

/-- A numeral has the value it was made of. -/
theorem numeral?_numeral (n : Nat) : numeral? (numeral n) = some n := by
  by_cases hn : n = 0
  · subst hn
    rfl
  · have hall : (numeral n).all Char.isDigit = true :=
      List.all_eq_true.mpr fun c hc => isDigit_numeral hc
    have hzero : numeral n ≠ ['0'] := fun he => head?_numeral hn (by rw [he]; rfl)
    rw [numeral?, if_neg hzero, if_neg]
    · have hmap : ((Nat.digits 10 n).map Nat.digitChar).map digitValue = Nat.digits 10 n := by
        rw [List.map_map]
        refine (List.map_congr_left fun d hd => ?_).trans (List.map_id _)
        exact digitValue_digitChar d (Nat.digits_lt_base (by decide) hd)
      rw [numeral, if_neg hn, List.reverse_reverse, hmap, Nat.ofDigits_digits]
    · intro hor
      rcases hor with h | h | h
      · exact numeral_ne_nil n h
      · exact head?_numeral hn h
      · rw [hall] at h
        cases h

/-! ## The reader -/

/-- What an initialiser has the value of. -/
inductive Init where
  | string (s : Text)
  | integer (v : Int)
  | boolean (b : Bool)
  | braces (items : List Init)

/-- Inside what the reader is. -/
inductive Inside where
  | gap
  | word (w : Text)
  | quotes (s : Text)
  | escape (s : Text)

/-- `minus` is set after a sign, `after` when an item has been read, and the
stack has the items of the braces that are open, the innermost first. -/
structure Reading where
  inside : Inside
  minus : Bool
  after : Bool
  stack : List (List Init)

def isWordChar (c : Char) : Bool := c.isAlphanum

/-- A keyword or an integer literal. -/
def readWord (minus : Bool) (w : Text) : Option Init :=
  if w = ['t', 'r', 'u', 'e'] ∨ w = ['f', 'a', 'l', 's', 'e'] then
    if minus then none else some (.boolean (w = ['t', 'r', 'u', 'e']))
  else do
    let n ← numeral? (w.takeWhile Char.isDigit)
    let suffix := w.dropWhile Char.isDigit
    if suffix = [] ∨ suffix = ['L', 'L'] ∧ n < 2 ^ 63 then
      some (.integer (if minus then -(n : Int) else n))
    else none

namespace Reading

/-- An item has been read. -/
def give (r : Reading) (i : Init) : Option Reading :=
  match r.after, r.stack with
  | false, top :: rest => some ⟨.gap, false, true, (top ++ [i]) :: rest⟩
  | _, _ => none

/-- A character that is not inside a word or a literal. -/
def stepGap (r : Reading) (c : Char) : Option Reading :=
  if c = ' ' ∨ c = '\n' then some r
  else if c = '"' then if r.minus then none else some { r with inside := .quotes [] }
  else if isWordChar c then some { r with inside := .word [c] }
  else if c = '-' then if r.minus || r.after then none else some { r with minus := true }
  else if c = '\x7b' then
    if r.minus || r.after then none else some { r with stack := [] :: r.stack }
  else if c = ',' then if r.after then some { r with after := false } else none
  else if c = '\x7d' then
    if r.minus then none
    else match r.stack with
      | top :: next :: rest => some ⟨.gap, false, true, (next ++ [.braces top]) :: rest⟩
      | _ => none
  else none

/-- A word has ended. -/
def flush (r : Reading) : Option Reading :=
  match r.inside with
  | .gap => some r
  | .word w => (readWord r.minus w).bind { r with inside := .gap }.give
  | _ => none

def step (r : Reading) (c : Char) : Option Reading :=
  match r.inside with
  | .gap => r.stepGap c
  | .word w =>
      if isWordChar c then some { r with inside := .word (w ++ [c]) }
      else r.flush.bind fun r => r.stepGap c
  | .quotes s =>
      if c = '"' then { r with inside := .gap }.give (.string s)
      else if c = '\\' then some { r with inside := .escape s }
      else if c = '\n' then none
      else some { r with inside := .quotes (s ++ [c]) }
  | .escape s =>
      if c = '"' ∨ c = '\\' then some { r with inside := .quotes (s ++ [c]) } else none

def run (r : Reading) (w : Text) : Option Reading := w.foldlM step r

/-- Where an initialiser is expected, and where one has been read. -/
def before (stack : List (List Init)) : Reading := ⟨.gap, false, false, stack⟩

def past (stack : List (List Init)) : Reading := ⟨.gap, false, true, stack⟩

end Reading

/-- The initialiser that a text spells. -/
def readInit (w : Text) : Option Init := do
  let r ← (Reading.before [[]]).run w
  let r ← r.flush
  match r.after, r.stack with
  | true, [[i]] => some i
  | _, _ => none

/-! ## What is read -/

namespace Reading

variable {r r' : Reading} {w w' : Text} {c : Char} {i : Init} {top : List Init}
  {rest : List (List Init)} {minus : Bool}

theorem run_cons (r : Reading) (c : Char) (w : Text) :
    r.run (c :: w) = (r.step c).bind fun r => r.run w := rfl

theorem run_append (r : Reading) (w w' : Text) :
    r.run (w ++ w') = (r.run w).bind fun r => r.run w' := by
  rw [run, List.foldlM_append]
  rfl

theorem step_gap (minus after : Bool) (stack : List (List Init)) (c : Char) :
    step ⟨.gap, minus, after, stack⟩ c = stepGap ⟨.gap, minus, after, stack⟩ c := rfl

theorem step_word (v : Text) (minus after : Bool) (stack : List (List Init)) (c : Char) :
    step ⟨.word v, minus, after, stack⟩ c =
      if isWordChar c then some ⟨.word (v ++ [c]), minus, after, stack⟩
      else (flush ⟨.word v, minus, after, stack⟩).bind fun r => r.stepGap c := rfl

theorem step_quotes (v : Text) (minus after : Bool) (stack : List (List Init)) (c : Char) :
    step ⟨.quotes v, minus, after, stack⟩ c =
      if c = '"' then give ⟨.gap, minus, after, stack⟩ (.string v)
      else if c = '\\' then some ⟨.escape v, minus, after, stack⟩
      else if c = '\n' then none
      else some ⟨.quotes (v ++ [c]), minus, after, stack⟩ := rfl

theorem step_escape (v : Text) (minus after : Bool) (stack : List (List Init)) (c : Char) :
    step ⟨.escape v, minus, after, stack⟩ c =
      if c = '"' ∨ c = '\\' then some ⟨.quotes (v ++ [c]), minus, after, stack⟩ else none := rfl

/-- The characters that end a word. -/
def Ends (c : Char) : Prop := c = ',' ∨ c = '\x7d'

theorem Ends.not_word (hc : Ends c) : isWordChar c = false := by
  rcases hc with rfl | rfl <;> rfl

/-- A text that is read as an initialiser wherever one is expected. -/
def Reads (w : Text) (i : Init) : Prop :=
  ∀ top rest c, Ends c →
    (before (top :: rest)).run (w ++ [c]) = (past ((top ++ [i]) :: rest)).run [c]

theorem Reads.run (h : Reads w i) (hc : Ends c) (top : List Init) (rest : List (List Init))
    (w' : Text) :
    (before (top :: rest)).run (w ++ c :: w') = (past ((top ++ [i]) :: rest)).run (c :: w') := by
  have hw := h top rest c hc
  rw [List.append_cons, run_append, hw]
  exact (run_append _ [c] w').symm

/-- The characters of a word are read one by one. -/
theorem run_word (minus : Bool) (hw : ∀ c ∈ w, isWordChar c = true) (v : Text)
    (stack : List (List Init)) :
    run ⟨.word v, minus, false, stack⟩ w = some ⟨.word (v ++ w), minus, false, stack⟩ := by
  induction w generalizing v with
  | nil =>
      rw [List.append_nil]
      rfl
  | cons c w ih =>
      rw [run_cons, step_word, if_pos (hw c List.mem_cons_self), Option.bind_some,
        ih (fun d hd => hw d (List.mem_cons_of_mem c hd)), List.append_assoc]
      rfl

theorem stepGap_word (minus : Bool) (hc : isWordChar c = true) (stack : List (List Init)) :
    stepGap ⟨.gap, minus, false, stack⟩ c = some ⟨.word [c], minus, false, stack⟩ := by
  have hne : ∀ d, isWordChar d = false → c ≠ d := by
    rintro d hd rfl
    rw [hc] at hd
    cases hd
  rw [stepGap, if_neg (not_or.mpr ⟨hne ' ' rfl, hne '\n' rfl⟩), if_neg (hne '"' rfl), if_pos hc]

/-- A word, after a sign or not. -/
theorem run_wordInit (hne : w ≠ []) (hw : ∀ c ∈ w, isWordChar c = true)
    (hi : readWord minus w = some i) (hc : Ends c) (top : List Init) (rest : List (List Init)) :
    run ⟨.gap, minus, false, top :: rest⟩ (w ++ [c]) =
      (past ((top ++ [i]) :: rest)).run [c] := by
  obtain ⟨d, w, rfl⟩ := List.exists_cons_of_ne_nil hne
  have hd := stepGap_word minus (hw d List.mem_cons_self) (top :: rest)
  have hw' := run_word minus (fun e he => hw e (List.mem_cons_of_mem d he)) [d]
    (top :: rest)
  have hflush : flush ⟨.word (d :: w), minus, false, top :: rest⟩ =
      some (past ((top ++ [i]) :: rest)) := by
    simp only [flush, hi, Option.bind_some, give, past]
  rw [List.cons_append, run_cons, step_gap, hd, Option.bind_some, run_append, hw', Option.bind_some,
    run_cons, step_word, if_neg (by rw [hc.not_word]; exact Bool.false_ne_true)]
  rw [List.singleton_append, hflush]
  rfl

theorem isWordChar_of_isDigit (h : c.isDigit = true) : isWordChar c = true := by
  rw [isWordChar, Char.isAlphanum, h, Bool.or_true]

/-- The two spellings of a number, with and without a suffix. -/
theorem readWord_numeral (minus : Bool) {n : Nat} {suffix : Text}
    (hs : suffix = [] ∨ suffix = ['L', 'L'] ∧ n < 2 ^ 63) :
    readWord minus (numeral n ++ suffix) = some (.integer (if minus then -(n : Int) else n)) := by
  have hall : ∀ c ∈ numeral n, Char.isDigit c = true := fun c hc => isDigit_numeral hc
  have hkey : ¬ (numeral n ++ suffix = ['t', 'r', 'u', 'e'] ∨
      numeral n ++ suffix = ['f', 'a', 'l', 's', 'e']) := by
    obtain ⟨d, w, hw⟩ := List.exists_cons_of_ne_nil (numeral_ne_nil n)
    have hd : Char.isDigit d = true := hall d (by rw [hw]; exact List.mem_cons_self)
    rw [hw]
    intro hor
    rcases hor with h | h
    · rw [(List.cons.inj h).1] at hd
      cases hd
    · rw [(List.cons.inj h).1] at hd
      cases hd
  have hsuffix : suffix.takeWhile Char.isDigit = [] ∧
      suffix.dropWhile Char.isDigit = suffix := by
    rcases hs with rfl | ⟨rfl, -⟩
    · exact ⟨rfl, rfl⟩
    · exact ⟨rfl, rfl⟩
  have htake : (numeral n ++ suffix).takeWhile Char.isDigit = numeral n := by
    rw [List.takeWhile_append_of_pos hall, hsuffix.1, List.append_nil]
  have hdrop : (numeral n ++ suffix).dropWhile Char.isDigit = suffix := by
    rw [List.dropWhile_append_of_pos hall, hsuffix.2]
  rw [readWord, if_neg hkey, htake, hdrop, numeral?_numeral]
  exact if_pos hs

/-- A numeral, with its sign. -/
theorem reads_decimal {v : Int} {suffix : Text}
    (hs : suffix = [] ∨ suffix = ['L', 'L'] ∧ v.natAbs < 2 ^ 63) :
    Reads (decimal v ++ suffix) (.integer v) := by
  intro top rest c hc
  have hne : numeral v.natAbs ++ suffix ≠ [] := fun h =>
    numeral_ne_nil _ (List.append_eq_nil_iff.mp h).1
  have hword : ∀ d ∈ numeral v.natAbs ++ suffix, isWordChar d = true := by
    intro d hd
    rcases List.mem_append.mp hd with hd | hd
    · exact isWordChar_of_isDigit (isDigit_numeral hd)
    · rcases hs with rfl | ⟨rfl, -⟩
      · cases hd
      · have hL : d = 'L' := by simpa using hd
        rw [hL]
        rfl
  rw [decimal]
  split
  · next hv =>
      have hi := readWord_numeral true hs
      rw [if_pos rfl, show -(v.natAbs : Int) = v by omega] at hi
      rw [List.cons_append, List.cons_append, run_cons]
      exact run_wordInit hne hword hi hc top rest
  · next hv =>
      have hi := readWord_numeral false hs
      rw [if_neg Bool.false_ne_true, show (v.natAbs : Int) = v by omega] at hi
      exact run_wordInit hne hword hi hc top rest

theorem reads_boolean (b : Bool) :
    Reads (if b then ['t', 'r', 'u', 'e'] else ['f', 'a', 'l', 's', 'e']) (.boolean b) := by
  intro top rest c hc
  cases b with
  | true =>
      exact run_wordInit (List.cons_ne_nil _ _) (List.all_eq_true.mp rfl) rfl hc top rest
  | false =>
      exact run_wordInit (List.cons_ne_nil _ _) (List.all_eq_true.mp rfl) rfl hc top rest

/-! ## Braces -/

/-- Items with commas between them. -/
theorem run_items {ws : List Text} {is : List Init} (hne : ws ≠ [])
    (h : List.Forall₂ Reads ws is) (top : List Init) (rest : List (List Init)) (w : Text) :
    run (before (top :: rest)) ([',', ' '].intercalate ws ++ '\x7d' :: w) =
      run (past ((top ++ is) :: rest)) ('\x7d' :: w) := by
  induction h generalizing top with
  | nil => exact absurd rfl hne
  | @cons a i ws is ha h ih =>
      cases h with
      | nil =>
          rw [List.intercalate_singleton]
          exact ha.run (.inr rfl) top rest w
      | @cons b j ws is hb h =>
          rw [List.intercalate_cons_of_ne_nil (List.cons_ne_nil b ws), List.append_assoc,
            List.append_assoc]
          refine (ha.run (.inl rfl) top rest _).trans ?_
          have hcomma : run (past ((top ++ [i]) :: rest)) [',', ' '] =
              some (before ((top ++ [i]) :: rest)) := rfl
          rw [show ',' :: _ = [',', ' '] ++ _ from rfl, run_append, hcomma, Option.bind_some,
            ih (List.cons_ne_nil b ws), List.append_assoc]
          rfl

/-- Items in braces. -/
def braced (ws : List Text) : Text := '\x7b' :: [',', ' '].intercalate ws ++ ['\x7d']

theorem reads_braced {ws : List Text} {is : List Init} (hne : ws ≠ [])
    (h : List.Forall₂ Reads ws is) : Reads (braced ws) (.braces is) := by
  intro top rest c hc
  have hopen : step (before (top :: rest)) '\x7b' = some (before ([] :: top :: rest)) := rfl
  have hclose : step (past (([] ++ is) :: top :: rest)) '\x7d' =
      some (past ((top ++ [.braces is]) :: rest)) := rfl
  rw [braced, List.cons_append, List.cons_append, run_cons, hopen, Option.bind_some,
    List.append_assoc, List.singleton_append, run_items hne h, run_cons, hclose, Option.bind_some]

/-- One item a line, each with a comma after it. -/
def lines (ws : List Text) : Text :=
  ws.flatMap fun w => [' ', ' ', ' ', ' '] ++ w ++ [',', '\n']

theorem run_lines {ws : List Text} {is : List Init} (h : List.Forall₂ Reads ws is)
    (top : List Init) (rest : List (List Init)) :
    run (before (top :: rest)) (lines ws) = some (before ((top ++ is) :: rest)) := by
  induction h generalizing top with
  | nil =>
      rw [List.append_nil]
      rfl
  | @cons a i ws is ha h ih =>
      have hpad : ∀ w, run (before (top :: rest)) ([' ', ' ', ' ', ' '] ++ w) =
          run (before (top :: rest)) w := fun _ => rfl
      have hend : ∀ w, run (past ((top ++ [i]) :: rest)) (',' :: '\n' :: w) =
          run (before ((top ++ [i]) :: rest)) w := fun _ => rfl
      have hline : lines (a :: ws) = [' ', ' ', ' ', ' '] ++ (a ++ ',' :: '\n' :: lines ws) := by
        simp only [lines, List.flatMap_cons, List.append_assoc, List.cons_append, List.nil_append]
      rw [hline, hpad, ha.run (.inl rfl), hend, ih, List.append_assoc]
      rfl

/-- A list of lines in two pairs of braces. -/
theorem readInit_lines {ws : List Text} {is : List Init} (h : List.Forall₂ Reads ws is) :
    readInit (['\x7b', '\x7b', '\n'] ++ lines ws ++ ['\x7d', '\x7d']) =
      some (.braces [.braces is]) := by
  have hopen : ∀ w, run (before [[]]) (['\x7b', '\x7b', '\n'] ++ w) =
      run (before [[], [], []]) w := fun _ => rfl
  have hclose : run (before [[] ++ is, [], []]) ['\x7d', '\x7d'] =
      some (past [[.braces [.braces is]]]) := rfl
  rw [readInit, List.append_assoc, hopen, run_append, run_lines h]
  simp only [Option.bind_eq_bind, Option.bind_some, hclose]
  rfl

end Reading

end Ycetl.Lib
