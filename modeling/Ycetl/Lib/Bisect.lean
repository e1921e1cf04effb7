import Mathlib.Data.List.TakeWhile

/-!
# Binary search

A binary search over the indices below `n` asks one question of an index and
closes in on the place where the answer turns from true to false. The search
itself knows nothing of an array: an index that cannot be asked is the answer
`none`, and so is running out of rounds, which `bisect_eq` shows never
happens. For a list on which a predicate holds of an initial segment only,
the place is `cut`, the length of that segment.
-/

namespace Ycetl.Lib

/-- `while (lo < hi)`, with a bound on the rounds. -/
def bisectLoop (test : Nat → Option Bool) : Nat → Nat → Nat → Option Nat
  | 0, lo, hi => if lo < hi then none else some lo
  | fuel + 1, lo, hi =>
      if lo < hi then
        (test (lo + (hi - lo) / 2)).bind fun b =>
          if b then bisectLoop test fuel (lo + (hi - lo) / 2 + 1) hi
          else bisectLoop test fuel lo (lo + (hi - lo) / 2)
      else some lo

def bisect (test : Nat → Option Bool) (n : Nat) : Option Nat := bisectLoop test n 0 n

theorem bisectLoop_eq {test : Nat → Option Bool} {n p : Nat}
    (hlow : ∀ i < p, test i = some true)
    (hhigh : ∀ i, p ≤ i → i < n → test i = some false) (fuel : Nat) {lo hi : Nat}
    (hfuel : hi - lo ≤ fuel) (hlo : lo ≤ p) (hhi : p ≤ hi) (hn : hi ≤ n) :
    bisectLoop test fuel lo hi = some p := by
  induction fuel generalizing lo hi with
  | zero => rw [bisectLoop, if_neg (by omega), show lo = p by omega]
  | succ fuel ih =>
      rw [bisectLoop]
      by_cases hlt : lo < hi
      · rw [if_pos hlt]
        by_cases hmid : lo + (hi - lo) / 2 < p
        · rw [hlow _ hmid, Option.bind_some, if_pos rfl]
          exact ih (by omega) (by omega) hhi hn
        · rw [hhigh _ (by omega) (by omega), Option.bind_some, if_neg (by simp)]
          exact ih (by omega) hlo (by omega) (by omega)
      · rw [if_neg hlt, show lo = p by omega]

/-- A search over answers that turn once finds where. -/
theorem bisect_eq {test : Nat → Option Bool} {n p : Nat} (hp : p ≤ n)
    (hlow : ∀ i < p, test i = some true)
    (hhigh : ∀ i, p ≤ i → i < n → test i = some false) : bisect test n = some p :=
  bisectLoop_eq hlow hhigh n (by omega) (Nat.zero_le p) hp (Nat.le_refl n)

/-! ## The initial segment of a predicate -/

variable {α : Type*}

/-- Where a list leaves the predicate. -/
def cut (P : α → Bool) (l : List α) : Nat := (l.takeWhile P).length

/-- The predicate holds of an initial segment only. -/
def Initial (P : α → Bool) (l : List α) : Prop :=
  l.Pairwise fun a b => P b = true → P a = true

theorem cut_le (P : α → Bool) (l : List α) : cut P l ≤ l.length :=
  (List.takeWhile_prefix P).length_le

/-- The cut of a list that is given in its two parts. -/
theorem cut_append {P : α → Bool} {l₁ l₂ : List α} (h₁ : ∀ a ∈ l₁, P a = true)
    (h₂ : ∀ a ∈ l₂, P a = false) : cut P (l₁ ++ l₂) = l₁.length := by
  induction l₁ with
  | nil =>
      cases l₂ with
      | nil => rfl
      | cons b l₂ =>
          rw [cut, List.nil_append, List.takeWhile_cons_of_neg (by rw [h₂ b (by simp)]; simp)]
  | cons a l₁ ih =>
      rw [cut, List.cons_append, List.takeWhile_cons_of_pos (h₁ a (by simp)),
        List.length_cons, List.length_cons]
      exact congrArg (· + 1) (ih fun b hb => h₁ b (by simp [hb]))

theorem dropWhile_eq_filter {P : α → Bool} {l : List α} (h : Initial P l) :
    l.dropWhile P = l.filter fun a => !P a := by
  induction l with
  | nil => rfl
  | cons a l ih =>
      obtain ⟨ha, hl⟩ := List.pairwise_cons.mp h
      cases hP : P a with
      | true =>
          rw [List.dropWhile_cons_of_pos hP, List.filter_cons_of_neg (by rw [hP]; simp),
            ih hl]
      | false =>
          have hall : ∀ b ∈ l, (!P b) = true := fun b hb => by
            cases hPb : P b with
            | false => rfl
            | true => rw [ha b hb hPb] at hP; cases hP
          rw [List.dropWhile_cons_of_neg (by rw [hP]; simp),
            List.filter_cons_of_pos (by rw [hP]; rfl), List.filter_eq_self.mpr hall]

/-- On an initial segment the index says whether the predicate holds. -/
theorem lt_cut_iff {P : α → Bool} {l : List α} (h : Initial P l) {i : Nat} {a : α}
    (ha : l[i]? = some a) : i < cut P l ↔ P a = true := by
  induction l generalizing i with
  | nil => cases ha
  | cons b l ih =>
      obtain ⟨hb, hl⟩ := List.pairwise_cons.mp h
      rw [cut]
      cases i with
      | zero =>
          rw [List.getElem?_cons_zero, Option.some.injEq] at ha
          subst ha
          cases hP : P b with
          | true => rw [List.takeWhile_cons_of_pos hP]; simp
          | false => rw [List.takeWhile_cons_of_neg (by rw [hP]; simp)]; simp
      | succ i =>
          rw [List.getElem?_cons_succ] at ha
          cases hP : P b with
          | true =>
              rw [List.takeWhile_cons_of_pos hP, List.length_cons, ← ih hl ha, cut]
              omega
          | false =>
              rw [List.takeWhile_cons_of_neg (by rw [hP]; simp), List.length_nil]
              refine ⟨fun h => absurd h (Nat.not_lt_zero _), fun hPa => ?_⟩
              rw [hb a (List.mem_of_getElem? ha) hPa] at hP
              cases hP

/-- A search that asks a list for the predicate finds the cut. -/
theorem bisect_cut {P : α → Bool} {l : List α} (h : Initial P l)
    {test : Nat → Option Bool} (htest : ∀ i a, l[i]? = some a → test i = some (P a)) :
    bisect test l.length = some (cut P l) := by
  refine bisect_eq (cut_le P l) (fun i hi => ?_) fun i hi hn => ?_
  · have hlt : i < l.length := Nat.lt_of_lt_of_le hi (cut_le P l)
    have hget := List.getElem?_eq_getElem hlt
    rw [htest i _ hget, (lt_cut_iff h hget).mp hi]
  · have hget := List.getElem?_eq_getElem hn
    rw [htest i _ hget, Bool.eq_false_iff.mpr fun hP =>
      absurd ((lt_cut_iff h hget).mpr hP) (Nat.not_lt.mpr hi)]

end Ycetl.Lib
