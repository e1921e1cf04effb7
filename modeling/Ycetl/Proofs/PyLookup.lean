import Ycetl.Proofs.WebgpuOrder
import Ycetl.Ref.PySpellings

/-!
# What `lookup` makes of a spelling

`lookup` works on the text: it strips, looks at the last character, splits at
the first bracket, and what is left is a name. On the text of a spelling these
steps find its parts again, with one exception: of the sizes of an array only
the first is found, and the others are lost.
-/

namespace Ycetl.Ref.Webgpu

open Ycetl.Lib

/-! ## Expressions -/

theorem numeral?_star : numeral? ['*'] = none := by decide

theorem readTimes_append (ty : CType) (ws : List Text) (n : Nat) :
    readTimes ty (ws ++ [['*'], numeral n]) = (readTimes ty ws).map (.array n) := by
  fun_induction readTimes ty ws with
  | case1 ty =>
      rw [List.nil_append, readTimes, if_pos rfl, numeral?_numeral, Option.bind_some, readTimes]
      rfl
  | case2 ty w =>
      rw [List.singleton_append, readTimes]
      split
      · rw [numeral?_star, Option.bind_none]
        rfl
      · rfl
  | case3 ty d rest ih =>
      rw [List.cons_append, List.cons_append, readTimes, if_pos rfl, Option.map_bind]
      exact congrArg _ (funext ih)
  | case4 ty star d rest hstar =>
      rw [List.cons_append, List.cons_append, readTimes, if_neg hstar]
      rfl

theorem space_not_mem_numeral (n : Nat) : ' ' ∉ numeral n := fun h => by
  have := isDigit_numeral h
  revert this
  decide

/-- A product is read as an array of what its first factor is read as. -/
theorem readExpr_times (e : Text) (n : Nat) :
    readExpr (e ++ " * ".toList ++ numeral n) = (readExpr e).map (.array n) := by
  have hsplit : (e ++ " * ".toList ++ numeral n).splitOn ' ' =
      e.splitOn ' ' ++ [['*'], numeral n] := by
    have hstar : ['*'].splitOn ' ' = [['*']] := List.splitOn_eq_singleton (by decide)
    have hnum : (numeral n).splitOn ' ' = [numeral n] :=
      List.splitOn_eq_singleton (space_not_mem_numeral n)
    rw [List.append_assoc, show " * ".toList ++ numeral n = ' ' :: (['*'] ++ ' ' :: numeral n)
      from rfl, List.splitOn_append_cons_self, List.splitOn_append_cons_self, hstar, hnum]
    rfl
  rw [readExpr, readExpr, hsplit]
  cases he : e.splitOn ' ' with
  | nil => exact absurd he (List.splitOn_ne_nil _ _)
  | cons w ws =>
      rw [List.cons_append]
      exact readTimes_append _ ws n

theorem readExpr_word {s : Text} (h : ' ' ∉ s) : readExpr s = some (.named s) := by
  rw [readExpr, List.splitOn_eq_singleton h]
  rfl

/-! ## The parts of a spelling -/

/-- A name that `lookup` finds again, whatever comes after it in a spelling. -/
structure Spellable (s : Text) : Prop where
  ne_nil : s ≠ []
  plain : ∀ c ∈ s, c ≠ '*' ∧ c ≠ '['
  first : s.head? ≠ some ' '
  last : s.getLast? ≠ some ' '
  not_const : ∀ rest : Text, (∀ c, rest.head? = some c → c = ' ' ∨ c = '[') →
    ¬ "const ".toList <+: s ++ rest

theorem spellable_identifier {s : Text} (h : Identifier s) : Spellable s := by
  obtain ⟨hne, hconst, hchars⟩ := h
  refine ⟨hne, fun c hc => (hchars c hc).2, fun h => ?_, fun h => ?_, fun rest hrest hprefix => ?_⟩
  · exact (hchars _ (List.mem_of_mem_head? h)).1 rfl
  · exact (hchars _ (List.mem_of_mem_getLast? h)).1 rfl
  -- Up to the first space or bracket the text is `s`, and it is `const`.
  · obtain ⟨x, hx⟩ := hprefix
    have hleft : (s ++ rest).takeWhile (fun c => c ≠ ' ' ∧ c ≠ '[') = s := by
      rw [List.takeWhile_append_of_pos fun c hc => by simp [hchars c hc]]
      cases rest with
      | nil => rw [List.takeWhile_nil, List.append_nil]
      | cons c rest =>
          have hc := hrest c rfl
          rw [List.takeWhile_cons_of_neg (by simp; tauto), List.append_nil]
    rw [← hx] at hleft
    exact hconst hleft.symm

theorem spellable_base {s c : Text} (h : base.lookup s = some c) : Spellable s := by
  have hall : ∀ p ∈ base, p.1 ≠ [] ∧ (∀ c ∈ p.1, c ≠ '*' ∧ c ≠ '[') ∧
      p.1.head? ≠ some ' ' ∧ p.1.getLast? ≠ some ' ' ∧ p.1.take 2 ≠ ['c', 'o'] ∧
      2 ≤ p.1.length := by
    simp [base]
  obtain ⟨hne, hplain, hfirst, hlast, htake, hlen⟩ := hall (s, c) (lookup_mem h)
  refine ⟨hne, hplain, hfirst, hlast, fun rest _ hprefix => htake ?_⟩
  obtain ⟨x, hx⟩ := hprefix
  have htwo := congrArg (List.take 2) hx
  rw [List.take_append_of_le_length hlen] at htwo
  exact htwo.symm

theorem suffix_head (s : Spelling) (c : Char) (h : s.suffix.head? = some c) :
    c = ' ' ∨ c = '[' := by
  rw [Spelling.suffix] at h
  split at h
  · exact Or.inl (Option.some.inj h).symm
  · cases hd : s.dims with
    | nil =>
        rw [hd] at h
        cases h
    | cons n dims =>
        rw [hd] at h
        exact Or.inr (Option.some.inj h).symm

/-- The last character of a spelling. -/
theorem suffix_last (s : Spelling) : s.suffix.getLast? =
    if s.dims = [] then (if s.pointer then some '*' else none) else some ']' := by
  rw [Spelling.suffix]
  rcases List.eq_nil_or_concat s.dims with hd | ⟨dims, n, hd⟩
  · rw [hd, List.flatMap_nil, List.append_nil, if_pos rfl]
    split <;> rfl
  · have hne : ¬ dims ++ [n] = [] := by simp
    rw [hd, List.concat_eq_append, if_neg hne, List.flatMap_append, List.flatMap_singleton,
      ← List.append_assoc, ← List.cons_append, ← List.append_assoc, List.getLast?_concat]

variable {s : Spelling}

theorem body_last (s : Spelling) : (s.name ++ s.suffix).getLast? =
    if s.dims = [] then (if s.pointer then some '*' else s.name.getLast?) else some ']' := by
  rw [List.getLast?_append, suffix_last]
  split
  · split <;> rfl
  · rfl

theorem stripEnd_of_last {w : Text} (h : w.getLast? ≠ some ' ') : stripEnd w = w := by
  rw [stripEnd, List.rdropWhile_eq_self_iff]
  intro hne hlast
  rw [decide_eq_true_eq] at hlast
  exact h (by rw [List.getLast?_eq_some_getLast hne, hlast])

theorem dropSpaces_of_head {w : Text} (h : w.head? ≠ some ' ') :
    w.dropWhile (· = ' ') = w := by
  cases w with
  | nil => rfl
  | cons c w => exact List.dropWhile_cons_of_neg fun hc => h (by simpa using hc)

/-- Stripping takes `const` off, and there are no spaces to take. -/
theorem strip_text (h : Spellable s.name) : strip s.text = s.name ++ s.suffix := by
  have hlast : (s.name ++ s.suffix).getLast? ≠ some ' ' := by
    rw [body_last]
    split
    · split
      · simp
      · exact h.last
    · simp
  have hhead : (s.name ++ s.suffix).head? ≠ some ' ' := by
    rw [List.head?_append_of_ne_nil _ h.ne_nil]
    exact h.first
  rw [strip, Spelling.text]
  cases s.isConst with
  | false =>
      have hno : ¬ "const ".toList.isPrefixOf (s.name ++ s.suffix) = true := by
        rw [List.isPrefixOf_iff_prefix]
        exact h.not_const s.suffix (suffix_head s)
      rw [if_neg Bool.false_ne_true, List.nil_append, stripEnd_of_last hlast,
        dropSpaces_of_head hhead, if_neg hno]
  | true =>
      have hne : s.name ++ s.suffix ≠ [] := by simp [h.ne_nil]
      have hlast' : ("const ".toList ++ (s.name ++ s.suffix)).getLast? ≠ some ' ' := by
        rw [List.getLast?_append_of_ne_nil _ hne]
        exact hlast
      have hhead' : ("const ".toList ++ (s.name ++ s.suffix)).head? ≠ some ' ' := by
        rw [List.head?_append_of_ne_nil _ (by decide)]
        decide
      have hyes : "const ".toList.isPrefixOf ("const ".toList ++ (s.name ++ s.suffix)) = true := by
        rw [List.isPrefixOf_iff_prefix]
        exact List.prefix_append _ _
      rw [if_pos rfl, stripEnd_of_last hlast', dropSpaces_of_head hhead', if_pos hyes]
      rfl

/-- A name and a star, as the element of an array is looked up. -/
def Spelling.core (s : Spelling) : Spelling := ⟨false, s.name, s.pointer, []⟩

theorem core_text (s : Spelling) :
    s.core.text = s.name ++ (if s.pointer then [' ', '*'] else []) := by
  have hstar : s.core.suffix = if s.pointer then [' ', '*'] else [] := List.append_nil _
  rw [Spelling.text, hstar]
  rfl

theorem arrayParts_text (h : Spellable s.name) : arrayParts (s.name ++ s.suffix) =
    match s.dims with
    | [] => none
    | n :: _ => some (s.core.text, numeral n) := by
  have hplain : ∀ c ∈ s.core.text, decide (c ≠ '[') = true := by
    intro c hc
    rw [core_text] at hc
    rw [decide_eq_true_eq]
    rcases List.mem_append.mp hc with hc | hc
    · exact (h.plain c hc).2
    · split at hc
      · rintro rfl
        revert hc
        decide
      · cases hc
  rw [Spelling.suffix, ← List.append_assoc, ← core_text, arrayParts,
    List.dropWhile_append_of_pos hplain]
  cases hd : s.dims with
  | nil => rfl
  | cons n dims =>
      have hnum : ∀ c ∈ numeral n, decide (c ≠ ']') = true := by
        intro c hc
        have := isDigit_numeral hc
        rw [decide_eq_true_eq]
        rintro rfl
        revert this
        decide
      have hlast : s.core.text.getLast? ≠ some ' ' := by
        rw [core_text]
        split
        · simp
        · rw [List.append_nil]
          exact h.last
      obtain ⟨rest, hrest⟩ : ∃ rest, (n :: dims).flatMap
          (fun n => '[' :: (numeral n ++ [']'])) = '[' :: (numeral n ++ ']' :: rest) :=
        ⟨dims.flatMap fun n => '[' :: (numeral n ++ [']']), by simp⟩
      have hdrop : ('[' :: (numeral n ++ ']' :: rest)).dropWhile (· ≠ '[') =
          '[' :: (numeral n ++ ']' :: rest) := rfl
      have htake : ('[' :: (numeral n ++ ']' :: rest)).takeWhile (· ≠ '[') = [] := rfl
      have hclose : (']' :: rest).takeWhile (· ≠ ']') = [] := rfl
      rw [hrest, hdrop, List.takeWhile_append_of_pos hplain, htake, List.append_nil]
      dsimp only
      rw [if_pos (by simp), List.takeWhile_append_of_pos hnum, hclose, List.append_nil,
        stripEnd_of_last hlast]

/-! ## The lookup -/

/-- What is looked up for a spelling apart from its sizes. -/
def PyTypeMap.element (m : PyTypeMap) (s : Spelling) : Text :=
  if s.pointer then cVoidP else m.lookupName s.name

theorem lookup_of_dims (m : PyTypeMap) (h : Spellable s.name) (hdims : s.dims = []) :
    m.lookup s.text = m.element s := by
  rw [PyTypeMap.lookup, strip_text h, body_last, if_pos hdims, PyTypeMap.element]
  cases hp : s.pointer with
  | true => rw [if_pos rfl, if_pos rfl, if_pos rfl]
  | false =>
      have hstar : s.name.getLast? ≠ some '*' := fun h' =>
        (h.plain _ (List.mem_of_mem_getLast? h')).1 rfl
      have hsuffix : s.suffix = [] := by
        rw [Spelling.suffix, hp, hdims]
        rfl
      rw [if_neg Bool.false_ne_true, if_neg hstar, if_neg Bool.false_ne_true]
      split
      · next e n hparts =>
          rw [arrayParts_text h, hdims] at hparts
          cases hparts
      · rw [hsuffix, List.append_nil]

/-- What comes of a spelling: its element, and the first of its sizes. -/
theorem lookup_text (m : PyTypeMap) (h : Spellable s.name) : m.lookup s.text =
    match s.dims with
    | [] => m.element s
    | n :: _ => m.element s ++ " * ".toList ++ numeral n := by
  cases hd : s.dims with
  | nil => exact lookup_of_dims m h hd
  | cons n dims =>
      have hlast : (s.name ++ s.suffix).getLast? ≠ some '*' := by
        rw [body_last, if_neg (by rw [hd]; exact List.cons_ne_nil n dims)]
        decide
      rw [PyTypeMap.lookup, strip_text h, if_neg hlast]
      split
      · next e k hparts =>
          rw [arrayParts_text h, hd] at hparts
          cases hparts
          rw [lookup_of_dims m (s := s.core) h rfl]
          rfl
      · next hparts =>
          rw [arrayParts_text h, hd] at hparts
          cases hparts

/-- Where the text of a spelling has no star and no bracket, there is only a name. -/
theorem text_plain (h : Spellable s.name) :
    '*' ∉ s.text ∧ '[' ∉ s.text ↔ s.pointer = false ∧ s.dims = [] := by
  have hsub : ∀ c ∈ s.suffix, c ∈ s.text := fun c hc =>
    List.mem_append_right _ (List.mem_append_right _ hc)
  constructor
  · intro hplain
    obtain ⟨hstar, hopen⟩ := hplain
    constructor
    · rw [Bool.eq_false_iff]
      intro hp
      exact hstar (hsub _ (by simp [Spelling.suffix, hp]))
    · rw [List.eq_nil_iff_forall_not_mem]
      intro n hn
      refine hopen (hsub _ (List.mem_append_right _ ?_))
      exact List.mem_flatMap.mpr ⟨n, hn, List.mem_cons_self⟩
  · intro hword
    obtain ⟨hp, hd⟩ := hword
    have hname : '*' ∉ s.name ∧ '[' ∉ s.name :=
      ⟨fun hc => (h.plain _ hc).1 rfl, fun hc => (h.plain _ hc).2 rfl⟩
    have hsuffix : s.suffix = [] := by
      rw [Spelling.suffix, hp, hd]
      rfl
    rw [Spelling.text, hsuffix, List.append_nil]
    split <;> simp [hname]

end Ycetl.Ref.Webgpu
