import Mathlib.Data.List.Sort
import Ycetl.Lib.Bisect

/-!
# Strict weak orders and the lists they sort

A strict weak order is a `less` under which two elements may be equivalent
without being equal. Lists are sorted by it in two ways: ascending, when no
two elements are equivalent, and sorted, when equivalent elements may stand
next to each other. In either a key splits the list three ways, into the
elements below it, equivalent to it and above it, and the two cuts are where
a search for its lower and its upper bound ends.

Sorting is stable: equivalent elements keep their order. `insertionSort` is
such a sort, and inserting at the upper bound is one more step of it.
-/

namespace Ycetl.Lib

structure WeakOrder (K : Type*) where
  lt : K → K → Bool
  irrefl : ∀ a, lt a a = false
  trans : ∀ {a b c}, lt a b = true → lt b c = true → lt a c = true
  /-- Elements that are not comparable to a third are not comparable. -/
  incomp_trans : ∀ {a b c}, lt a b = false → lt b a = false →
    lt b c = false → lt c b = false → lt a c = false

namespace WeakOrder

variable {K V : Type*} (C : WeakOrder K)

/-- Neither is less. -/
def equiv (a b : K) : Bool := !C.lt a b && !C.lt b a

variable {C} {a b c : K}

theorem asymm (h : C.lt a b = true) : C.lt b a = false := by
  cases hba : C.lt b a with
  | false => rfl
  | true => rw [← C.trans h hba, C.irrefl]

/-- An element between two others is on one side. -/
theorem lt_or_lt (h : C.lt a c = true) (b : K) : C.lt a b = true ∨ C.lt b c = true := by
  cases hab : C.lt a b with
  | true => exact Or.inl rfl
  | false =>
      cases hbc : C.lt b c with
      | true => exact Or.inr rfl
      | false =>
          have hba : C.lt b a = false := by
            cases hba : C.lt b a with
            | false => rfl
            | true => rw [← hbc, C.trans hba h]
          have hcb : C.lt c b = false := by
            cases hcb : C.lt c b with
            | false => rfl
            | true => rw [← hab, C.trans h hcb]
          rw [C.incomp_trans hab hba hbc hcb] at h
          cases h

theorem equiv_iff : C.equiv a b = true ↔ C.lt a b = false ∧ C.lt b a = false := by
  rw [equiv, Bool.and_eq_true, Bool.not_eq_true', Bool.not_eq_true']

theorem equiv_refl (a : K) : C.equiv a a = true := equiv_iff.mpr ⟨C.irrefl a, C.irrefl a⟩

theorem equiv_comm (a b : K) : C.equiv a b = C.equiv b a := Bool.and_comm _ _

/-- Equivalent elements compare alike. -/
theorem lt_congr_left (h : C.equiv a b = true) (c : K) : C.lt a c = C.lt b c := by
  obtain ⟨hab, hba⟩ := equiv_iff.mp h
  rw [Bool.eq_iff_iff]
  constructor
  · intro hac
    exact (lt_or_lt hac b).resolve_left (by rw [hab]; simp)
  · intro hbc
    exact (lt_or_lt hbc a).resolve_left (by rw [hba]; simp)

theorem lt_congr_right (h : C.equiv a b = true) (c : K) : C.lt c a = C.lt c b := by
  obtain ⟨hab, hba⟩ := equiv_iff.mp h
  rw [Bool.eq_iff_iff]
  constructor
  · intro hca
    exact (lt_or_lt hca b).resolve_right (by rw [hba]; simp)
  · intro hcb
    exact (lt_or_lt hcb a).resolve_right (by rw [hab]; simp)

theorem equiv_congr (h : C.equiv a b = true) (c : K) : C.equiv c a = C.equiv c b := by
  rw [equiv, equiv, lt_congr_right h, lt_congr_left h]

/-- Not being below is transitive. -/
theorem not_lt_trans (hba : C.lt b a = false) (hcb : C.lt c b = false) :
    C.lt c a = false := by
  by_contra hca
  rw [Bool.not_eq_false] at hca
  rcases lt_or_lt hca b with hlt | hlt
  · rw [hcb] at hlt
    cases hlt
  · rw [hba] at hlt
    cases hlt

theorem lt_of_not_lt_of_lt (hba : C.lt b a = false) (hbc : C.lt b c = true) :
    C.lt a c = true :=
  (lt_or_lt hbc a).resolve_left (by rw [hba]; simp)

/-! ## Sorted lists -/

section

variable (C) (key : V → K)

/-- The key of each element is less than those of all that follow it. -/
def Ascending (l : List V) : Prop := l.Pairwise fun a b => C.lt (key a) (key b) = true

/-- No key is less than one before it. -/
def Sorted (l : List V) : Prop := l.Pairwise fun a b => C.lt (key b) (key a) = false

/-- An element put in front of all that are not below it. -/
def insertFirst (a : V) (l : List V) : List V :=
  l.orderedInsert (fun a b => C.lt (key b) (key a) = false) a

/-- An element put behind all that are not above it. -/
def insertLast (a : V) (l : List V) : List V :=
  l.orderedInsert (fun a b => C.lt (key a) (key b) = true) a

/-- The stable sort by key. -/
def sort (l : List V) : List V :=
  l.insertionSort fun a b => C.lt (key b) (key a) = false

end

variable {key : V → K}

theorem Ascending.sorted {l : List V} (h : C.Ascending key l) : C.Sorted key l :=
  h.imp asymm

/-- The elements below a key come first. -/
theorem Sorted.initial_lt {l : List V} (h : C.Sorted key l) (k : K) :
    Initial (fun e => C.lt (key e) k) l := by
  refine List.Pairwise.imp (fun {a b} hba (hbk : C.lt (key b) k = true) => ?_) h
  exact lt_of_not_lt_of_lt hba hbk

/-- So do those not above it. -/
theorem Sorted.initial_not_lt {l : List V} (h : C.Sorted key l) (k : K) :
    Initial (fun e => !C.lt k (key e)) l := by
  refine List.Pairwise.imp (fun {a b} hba (hkb : (!C.lt k (key b)) = true) => ?_) h
  rw [Bool.not_eq_true'] at hkb ⊢
  exact not_lt_trans hba hkb

/-- A key splits a sorted list into what is below it, its run, and what is
above it, and the two cuts bracket the run. -/
theorem Sorted.split {l : List V} (h : C.Sorted key l) (k : K) :
    ∃ xs es ys, l = xs ++ es ++ ys ∧ (∀ e ∈ xs, C.lt (key e) k = true) ∧
      (∀ e ∈ es, C.equiv (key e) k = true) ∧ (∀ e ∈ ys, C.lt k (key e) = true) ∧
      cut (fun e => C.lt (key e) k) l = xs.length ∧
      cut (fun e => !C.lt k (key e)) l = (xs ++ es).length := by
  have hrest : C.Sorted key (l.dropWhile fun e => C.lt (key e) k) :=
    List.Pairwise.sublist (List.dropWhile_sublist _) h
  have hl := List.takeWhile_append_dropWhile (p := fun e => C.lt (key e) k) (l := l)
  have hr := List.takeWhile_append_dropWhile (p := fun e => !C.lt k (key e))
    (l := l.dropWhile fun e => C.lt (key e) k)
  have hxs : ∀ e ∈ l.takeWhile (fun e => C.lt (key e) k), C.lt (key e) k = true :=
    fun e he => List.mem_takeWhile_imp (p := fun e => C.lt (key e) k) he
  have hnot : ∀ e ∈ l.dropWhile (fun e => C.lt (key e) k), C.lt (key e) k = false := by
    rw [dropWhile_eq_filter (h.initial_lt k)]
    intro e he
    exact Bool.not_eq_true' _ ▸ (List.mem_filter.mp he).2
  generalize l.takeWhile (fun e => C.lt (key e) k) = xs at hl hxs
  generalize l.dropWhile (fun e => C.lt (key e) k) = rest at hl hrest hr hnot
  have hes : ∀ e ∈ rest.takeWhile (fun e => !C.lt k (key e)), C.lt k (key e) = false :=
    fun e he => by
      have := List.mem_takeWhile_imp (p := fun e => !C.lt k (key e)) he
      rwa [Bool.not_eq_true'] at this
  have hys : ∀ e ∈ rest.dropWhile (fun e => !C.lt k (key e)), C.lt k (key e) = true := by
    rw [dropWhile_eq_filter (hrest.initial_not_lt k)]
    intro e he
    simpa using (List.mem_filter.mp he).2
  have hrun : ∀ e ∈ rest.takeWhile (fun e => !C.lt k (key e)), C.lt (key e) k = false :=
    fun e he => hnot e ((List.takeWhile_sublist _).subset he)
  generalize rest.takeWhile (fun e => !C.lt k (key e)) = es at hr hes hrun
  generalize rest.dropWhile (fun e => !C.lt k (key e)) = ys at hr hys
  subst hr hl
  refine ⟨xs, es, ys, (List.append_assoc _ _ _).symm, hxs, fun e he =>
    equiv_iff.mpr ⟨hrun e he, hes e he⟩, hys, cut_append hxs hnot, ?_⟩
  rw [← List.append_assoc]
  refine cut_append (fun e he => ?_) fun e he => by rw [hys e he]; rfl
  rcases List.mem_append.mp he with hx | hm
  · rw [asymm (hxs e hx)]
    rfl
  · rw [hes e hm]
    rfl

/-! ## Stable sorting -/

theorem insertFirst_cons (a b : V) (l : List V) :
    C.insertFirst key a (b :: l) =
      if C.lt (key b) (key a) then b :: C.insertFirst key a l else a :: b :: l := by
  rw [insertFirst, List.orderedInsert_cons]
  cases C.lt (key b) (key a) <;> rfl

theorem insertLast_cons (a b : V) (l : List V) :
    C.insertLast key a (b :: l) =
      if C.lt (key a) (key b) then a :: b :: l else b :: C.insertLast key a l := by
  rw [insertLast, List.orderedInsert_cons]
  rfl

theorem sort_cons (a : V) (l : List V) :
    C.sort key (a :: l) = C.insertFirst key a (C.sort key l) := by
  rw [sort, List.insertionSort_cons]
  rfl

theorem insertLast_eq (a : V) (l : List V) :
    C.insertLast key a l = l.takeWhile (fun e => !C.lt (key a) (key e)) ++
      a :: l.dropWhile (fun e => !C.lt (key a) (key e)) := by
  have hP : (fun b => decide ¬ C.lt (key a) (key b) = true) =
      fun e => !C.lt (key a) (key e) := by
    funext e
    cases C.lt (key a) (key e) <;> rfl
  rw [insertLast, List.orderedInsert_eq_take_drop, hP]

theorem sort_sorted (l : List V) : C.Sorted key (C.sort key l) := by
  have : Std.Total fun a b => C.lt (key b) (key a) = false := ⟨fun a b => by
    cases hab : C.lt (key b) (key a) with
    | false => exact Or.inl rfl
    | true => exact Or.inr (asymm hab)⟩
  have : IsTrans V fun a b => C.lt (key b) (key a) = false :=
    ⟨fun _ _ _ => not_lt_trans⟩
  exact List.pairwise_insertionSort _ l

/-- The two insertions do not disturb each other. -/
theorem insertFirst_insertLast (a b : V) (l : List V) :
    C.insertFirst key a (C.insertLast key b l) =
      C.insertLast key b (C.insertFirst key a l) := by
  induction l with
  | nil =>
      show C.insertFirst key a [b] = C.insertLast key b [a]
      rw [insertFirst_cons, insertLast_cons]
      rfl
  | cons c l ih =>
      rw [insertLast_cons, insertFirst_cons]
      cases hbc : C.lt (key b) (key c) with
      | true =>
          rw [if_pos rfl, insertFirst_cons]
          cases hca : C.lt (key c) (key a) with
          | true =>
              -- `b` is below `a` as well, and stays in front of both.
              rw [C.trans hbc hca, if_pos rfl, if_pos rfl, insertLast_cons, hbc, if_pos rfl,
                insertFirst_cons, hca, if_pos rfl]
          | false =>
              rw [if_neg (by simp : ¬ false = true), insertLast_cons, insertFirst_cons, hca,
                insertLast_cons, hbc, if_neg (by simp : ¬ false = true), if_pos rfl]
      | false =>
          rw [if_neg (by simp), insertFirst_cons]
          cases hca : C.lt (key c) (key a) with
          | true => rw [if_pos rfl, if_pos rfl, insertLast_cons, hbc, if_neg (by simp), ih]
          | false =>
              rw [if_neg (by simp), if_neg (by simp), insertLast_cons,
                not_lt_trans hca hbc, if_neg (by simp), insertLast_cons, hbc,
                if_neg (by simp)]

/-- Sorting one more element puts it behind its equals. -/
theorem sort_concat (l : List V) (a : V) :
    C.sort key (l ++ [a]) = C.insertLast key a (C.sort key l) := by
  induction l with
  | nil => rfl
  | cons b l ih =>
      rw [List.cons_append, sort_cons, ih, insertFirst_insertLast, sort_cons]

theorem insertFirst_of_forall {a : V} {l : List V}
    (h : ∀ b ∈ l, C.lt (key b) (key a) = false) : C.insertFirst key a l = a :: l := by
  cases l with
  | nil => rfl
  | cons b l => rw [insertFirst_cons, h b (by simp), if_neg (by simp)]

theorem filter_insertFirst (p : V → Bool) (a : V) {l : List V} (h : C.Sorted key l) :
    (C.insertFirst key a l).filter p =
      if p a then C.insertFirst key a (l.filter p) else l.filter p := by
  induction l with
  | nil =>
      show [a].filter p = if p a then [a] else []
      rw [List.filter_cons, List.filter_nil]
  | cons b l ih =>
      obtain ⟨hb, hl⟩ := List.pairwise_cons.mp h
      rw [insertFirst_cons]
      cases hba : C.lt (key b) (key a) with
      | true =>
          rw [if_pos rfl, List.filter_cons, ih hl, List.filter_cons]
          cases p b <;> cases p a <;> simp [insertFirst_cons, hba]
      | false =>
          -- Nothing from `b` on is below `a`, with or without the filter.
          have hall : ∀ c ∈ (b :: l).filter p, C.lt (key c) (key a) = false := by
            intro c hc
            rcases List.mem_cons.mp (List.mem_of_mem_filter hc) with rfl | hc
            · exact hba
            · exact not_lt_trans hba (hb c hc)
          rw [if_neg (by simp), List.filter_cons, insertFirst_of_forall hall]

/-- Sorting commutes with leaving elements out. -/
theorem sort_filter (p : V → Bool) (l : List V) :
    C.sort key (l.filter p) = (C.sort key l).filter p := by
  induction l with
  | nil => rfl
  | cons a l ih =>
      rw [sort_cons, filter_insertFirst p a (sort_sorted l), ← ih]
      cases hp : p a with
      | true => rw [List.filter_cons_of_pos hp, if_pos rfl, sort_cons]
      | false => rw [List.filter_cons_of_neg (by rw [hp]; simp), if_neg (by simp)]

theorem sort_perm (l : List V) : (C.sort key l).Perm l := List.perm_insertionSort _ l

/-- Sorting is stable: equivalent elements keep their order. -/
theorem sort_stable (k : K) (l : List V) :
    (C.sort key l).filter (fun e => C.equiv (key e) k) =
      l.filter fun e => C.equiv (key e) k := by
  rw [← sort_filter]
  refine List.Pairwise.insertionSort_eq (List.pairwise_of_forall_mem_list ?_)
  intro a ha b hb
  have hak := (List.mem_filter.mp ha).2
  have hbk := (List.mem_filter.mp hb).2
  rw [lt_congr_left hbk, (equiv_iff.mp hak).2]

end WeakOrder

end Ycetl.Lib
