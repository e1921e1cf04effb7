import Mathlib.Data.List.Basic

/-!
# Numbered records

Objects are numbered in the order in which they are made, and a number is
never used twice: a record that is deleted leaves an empty place. The list of
the places is the table, and what is there to be read is the record at a
number, if there is one.
-/

namespace Ycetl.Lib

variable {α : Type*}

/-- The record with this number. -/
def record? (l : List (Option α)) (i : Nat) : Option α := (l[i]?).join

theorem getElem?_of_record? {l : List (Option α)} {i : Nat} {a : α}
    (h : record? l i = some a) : l[i]? = some (some a) :=
  Option.join_eq_some_iff.mp h

theorem lt_of_record? {l : List (Option α)} {i : Nat} {a : α}
    (h : record? l i = some a) : i < l.length :=
  (List.getElem?_eq_some_iff.mp (getElem?_of_record? h)).1

theorem record?_of_length_le {l : List (Option α)} {i : Nat} (h : l.length ≤ i) :
    record? l i = none := by
  rw [record?, List.getElem?_eq_none h]
  rfl

/-- A new record gets the next number. -/
theorem record?_append (l : List (Option α)) (o : Option α) (i : Nat) :
    record? (l ++ [o]) i = if i = l.length then o else record? l i := by
  rw [record?, record?]
  rcases Nat.lt_trichotomy i l.length with hi | hi | hi
  · rw [List.getElem?_append_left hi, if_neg (by omega)]
  · subst hi
    rw [List.getElem?_concat_length, if_pos rfl]
    rfl
  · rw [List.getElem?_eq_none (by rw [List.length_append, List.length_singleton]; omega),
      if_neg (by omega), List.getElem?_eq_none (by omega)]

theorem record?_set {l : List (Option α)} {i : Nat} (h : i < l.length) (o : Option α)
    (j : Nat) : record? (l.set i o) j = if i = j then o else record? l j := by
  rw [record?, record?, List.getElem?_set, if_pos h]
  split <;> rfl

theorem record?_set_ne {i j : Nat} (h : i ≠ j) (l : List (Option α)) (o : Option α) :
    record? (l.set i o) j = record? l j := by
  rw [record?, record?, List.getElem?_set_ne h]

/-- Writing back what is there changes nothing. -/
theorem set_record?_self (l : List (Option α)) (i : Nat) : l.set i (record? l i) = l := by
  rcases Nat.lt_or_ge i l.length with hi | hi
  · rw [record?, List.getElem?_eq_getElem hi]
    exact List.set_getElem_self hi
  · exact List.set_eq_of_length_le hi

/-- The end of a record that was made last. -/
theorem set_length_append (l : List (Option α)) (o o' : Option α) :
    (l ++ [o]).set l.length o' = l ++ [o'] := by
  rw [List.set_append_right l.length o' (Nat.le_refl _), Nat.sub_self]
  rfl

theorem set_record? {l : List (Option α)} {i : Nat} {a : α} (h : record? l i = some a) :
    l.set i (some a) = l := by
  rw [← h, set_record?_self]

end Ycetl.Lib
