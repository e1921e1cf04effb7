import Mathlib.Data.List.Basic
import Mathlib.Data.List.Nodup
import Mathlib.Data.List.Pairwise

/-!
# First occurrences

`List.eraseDups` keeps the first occurrence of every element. What it answers
has no duplicates and lists the elements in the order in which they occur
first, and it does not matter how often it is applied on the way: a list put
together from parts has the same first occurrences as the list put together
from the first occurrences of the parts.
-/

namespace Ycetl.Lib

variable {τ : Type*} [DecidableEq τ]

/-- A property of the tail of `eraseDups` is proved for shorter lists. -/
theorem eraseDups_induction {P : List τ → Prop} (hnil : P [])
    (hcons : ∀ x xs, P (xs.filter fun b => !b == x) → P (x :: xs)) : ∀ xs, P xs := by
  intro xs
  induction h : xs.length using Nat.strongRecOn generalizing xs with
  | ind n ih =>
      cases xs with
      | nil => exact hnil
      | cons x xs =>
          have hle := List.length_filter_le (fun b => !b == x) xs
          rw [List.length_cons] at h
          exact hcons x xs (ih _ (by omega) _ rfl)

theorem nodup_eraseDups (xs : List τ) : xs.eraseDups.Nodup := by
  induction xs using eraseDups_induction with
  | hnil => simp
  | hcons x xs ih =>
      rw [List.eraseDups_cons, List.nodup_cons]
      exact ⟨by simp, ih⟩

theorem eraseDups_of_nodup {xs : List τ} (h : xs.Nodup) : xs.eraseDups = xs := by
  induction xs with
  | nil => rfl
  | cons x xs ih =>
      rw [List.nodup_cons] at h
      have hf : xs.filter (fun b => !b == x) = xs := by
        rw [List.filter_eq_self]
        intro b hb
        have hne : b ≠ x := fun he => h.1 (he ▸ hb)
        simp [hne]
      rw [List.eraseDups_cons, hf, ih h.2]

theorem removeAll_congr {xs ys : List τ} (h : ∀ x, x ∈ xs ↔ x ∈ ys) (zs : List τ) :
    zs.removeAll xs = zs.removeAll ys := by
  rw [List.removeAll, List.removeAll]
  congr 1
  funext z
  simp [h z]

theorem eraseDups_filter (p : τ → Bool) (xs : List τ) :
    (xs.filter p).eraseDups = xs.eraseDups.filter p := by
  induction xs using eraseDups_induction with
  | hnil => rfl
  | hcons x xs ih =>
      have hcomm : (xs.filter p).filter (fun b => !b == x)
          = (xs.filter fun b => !b == x).filter p := by
        rw [List.filter_filter, List.filter_filter]
        simp only [Bool.and_comm]
      rw [List.eraseDups_cons, List.filter_cons, List.filter_cons]
      split
      · rw [List.eraseDups_cons, hcomm, ih]
      next hx =>
        have hx' : ∀ b ∈ xs.filter p, (!b == x) = true := by
          intro b hb
          have hb' := (List.mem_filter.mp hb).2
          have hne : b ≠ x := fun he => hx (he ▸ hb')
          simp [hne]
        rw [← ih, ← hcomm, List.filter_eq_self.mpr hx']

/-- The first occurrences of a list are those of the first occurrences of its
parts, put together. -/
theorem eraseDups_append_congr {xs xs' ys ys' : List τ} (hx : xs.eraseDups = xs'.eraseDups)
    (hy : ys.eraseDups = ys'.eraseDups) :
    (xs ++ ys).eraseDups = (xs' ++ ys').eraseDups := by
  have hmem : ∀ x, x ∈ xs ↔ x ∈ xs' := by
    intro x
    rw [← List.mem_eraseDups, hx, List.mem_eraseDups]
  rw [List.eraseDups_append, List.eraseDups_append, hx, removeAll_congr hmem,
    List.removeAll, List.removeAll, eraseDups_filter, eraseDups_filter, hy]

theorem eraseDups_eraseDups (xs : List τ) : xs.eraseDups.eraseDups = xs.eraseDups :=
  eraseDups_of_nodup (nodup_eraseDups xs)

theorem eraseDups_map_of_injective {σ : Type*} [DecidableEq σ] {f : τ → σ}
    (hf : Function.Injective f) (xs : List τ) :
    (xs.map f).eraseDups = xs.eraseDups.map f := by
  induction xs using eraseDups_induction with
  | hnil => rfl
  | hcons x xs ih =>
      have hcomm : (xs.map f).filter (fun b => !b == f x)
          = (xs.filter fun b => !b == x).map f := by
        rw [List.filter_map]
        congr 1
        apply List.filter_congr
        intro b hb
        simp [hf.eq_iff]
      rw [List.map_cons, List.eraseDups_cons, hcomm, ih, List.eraseDups_cons, List.map_cons]

/-- Elements that have all occurred add no first occurrence. -/
theorem eraseDups_append_of_subset {xs ys : List τ} (h : ∀ y ∈ ys, y ∈ xs) :
    (xs ++ ys).eraseDups = xs.eraseDups := by
  have hnil : ys.removeAll xs = [] := by
    rw [List.removeAll, List.filter_eq_nil_iff]
    intro y hy
    simpa using h y hy
  rw [List.eraseDups_append, hnil, List.eraseDups_nil, List.append_nil]

theorem idxOf_map_of_injective {σ : Type*} [DecidableEq σ] {f : τ → σ}
    (hf : Function.Injective f) (xs : List τ) (x : τ) : (xs.map f).idxOf (f x) = xs.idxOf x := by
  induction xs with
  | nil => rfl
  | cons y xs ih =>
      rw [List.map_cons]
      by_cases hyx : y = x
      · rw [hyx, List.idxOf_cons_self, List.idxOf_cons_self]
      · rw [List.idxOf_cons_ne _ hyx, List.idxOf_cons_ne _ (hf.ne hyx), ih]

/-- Leaving elements out does not change the order of first occurrences. -/
theorem idxOf_lt_of_filter {p : τ → Bool} {xs : List τ} {a b : τ} (ha : p a = true)
    (hb : p b = true) (h : (xs.filter p).idxOf a < (xs.filter p).idxOf b) :
    xs.idxOf a < xs.idxOf b := by
  induction xs with
  | nil => exact h
  | cons x xs ih =>
      rw [List.filter_cons] at h
      split at h
      · by_cases hxb : x = b
        · rw [hxb, List.idxOf_cons_self] at h
          omega
        rw [List.idxOf_cons_ne _ hxb] at h ⊢
        by_cases hxa : x = a
        · rw [hxa, List.idxOf_cons_self]
          exact Nat.succ_pos _
        · rw [List.idxOf_cons_ne _ hxa] at h ⊢
          exact Nat.succ_lt_succ (ih (Nat.lt_of_succ_lt_succ h))
      next hx =>
        have hxa : x ≠ a := fun he => hx (he ▸ ha)
        have hxb : x ≠ b := fun he => hx (he ▸ hb)
        rw [List.idxOf_cons_ne _ hxa, List.idxOf_cons_ne _ hxb]
        exact Nat.succ_lt_succ (ih h)

/-- What is kept stands in the order of first occurrences. -/
theorem eraseDups_pairwise (xs : List τ) :
    xs.eraseDups.Pairwise fun a b => xs.idxOf a < xs.idxOf b := by
  induction xs using eraseDups_induction with
  | hnil => simp
  | hcons x xs ih =>
      rw [List.eraseDups_cons, List.pairwise_cons]
      have hne : ∀ b ∈ (xs.filter fun b => !b == x).eraseDups, x ≠ b := by
        intro b hb he
        rw [List.mem_eraseDups, List.mem_filter] at hb
        simp [he] at hb
      refine ⟨?_, List.Pairwise.imp_of_mem ?_ ih⟩
      · intro b hb
        rw [List.idxOf_cons_self, List.idxOf_cons_ne _ (hne b hb)]
        exact Nat.succ_pos _
      · intro a b ha hb hab
        have hxa := hne a ha
        have hxb := hne b hb
        rw [List.idxOf_cons_ne _ hxa, List.idxOf_cons_ne _ hxb]
        exact Nat.succ_lt_succ
          (idxOf_lt_of_filter (by simp [Ne.symm hxa]) (by simp [Ne.symm hxb]) hab)

end Ycetl.Lib
