import Mathlib.Data.List.Nodup
import Mathlib.Data.List.Perm.Subperm
import Mathlib.Data.List.Range
import Mathlib.Data.Nat.ModEq
import Mathlib.Tactic.Ring

/-!
# Linear probing and sweeps over a slot array

An open-addressing table reads its slots in two orders. A probe sequence
starts at a home slot and wraps around once, so it is a rotation of the
index range: every slot is on it, and none is on it twice. A sweep goes from
slot zero to the end and stops at the slots a predicate marks; the iterator
of such a table is the pair of "next marked slot from here" and "one past
the end".

Nothing here knows what a slot holds.
-/

namespace Ycetl.Lib

/-! ## The probe sequence -/

/-- The slots a linear probe from home slot `h` visits, in order. -/
def probes (h cap : Nat) : List Nat :=
  (List.range cap).map fun p => (h + p) % cap

@[simp] theorem length_probes (h cap : Nat) : (probes h cap).length = cap := by
  simp [probes]

theorem lt_of_mem_probes {h cap i : Nat} (hi : i ∈ probes h cap) : i < cap := by
  simp only [probes, List.mem_map, List.mem_range] at hi
  obtain ⟨p, hp, rfl⟩ := hi
  exact Nat.mod_lt _ (by omega)

theorem nodup_probes (h cap : Nat) : (probes h cap).Nodup := by
  refine List.Nodup.map_on ?_ List.nodup_range
  intro p hp q hq heq
  rw [List.mem_range] at hp hq
  have hmod : p ≡ q [MOD cap] := Nat.ModEq.add_left_cancel' h heq
  exact hmod.eq_of_lt_of_lt hp hq

/-- A probe sequence reaches every slot. -/
theorem mem_probes {h cap i : Nat} : i ∈ probes h cap ↔ i < cap := by
  constructor
  · exact lt_of_mem_probes
  · intro hi
    have hsub : probes h cap ⊆ List.range cap := fun j hj =>
      List.mem_range.mpr (lt_of_mem_probes hj)
    have hperm := (List.subperm_of_subset (nodup_probes h cap) hsub).perm_of_length_le
      (by simp)
    exact hperm.mem_iff.mpr (List.mem_range.mpr hi)

/-- Two ways to split a probe sequence at the same slot are one. -/
theorem probes_split_unique {h cap i : Nat} {pre pre' post post' : List Nat}
    (h₁ : probes h cap = pre ++ i :: post)
    (h₂ : probes h cap = pre' ++ i :: post') : pre = pre' := by
  have hnd := nodup_probes h cap
  have hnot : i ∉ pre ∧ i ∉ pre' := by
    constructor
    · rw [h₁] at hnd
      intro hmem
      exact (List.nodup_append.mp hnd).2.2 i hmem i (by simp) rfl
    · rw [h₂] at hnd
      intro hmem
      exact (List.nodup_append.mp hnd).2.2 i hmem i (by simp) rfl
  have heq : pre ++ i :: post = pre' ++ i :: post' := h₁ ▸ h₂
  rcases List.append_eq_append_iff.mp heq with ⟨c, hc, hc'⟩ | ⟨c, hc, hc'⟩
  · cases c with
    | nil => simpa using hc.symm
    | cons d ds =>
        injection hc' with hd _
        exact absurd (hc ▸ hd ▸ (by simp : i ∈ pre ++ i :: ds)) hnot.2
  · cases c with
    | nil => simpa using hc
    | cons d ds =>
        injection hc' with hd _
        exact absurd (hc ▸ hd ▸ (by simp : i ∈ pre' ++ i :: ds)) hnot.1

/-- A walk over a list stops at the first element with `p`, or nowhere. -/
theorem first_split {α : Type*} (p : α → Prop) [DecidablePred p] (L : List α) :
    (∃ pre i post, L = pre ++ i :: post ∧ (∀ j ∈ pre, ¬ p j) ∧ p i) ∨
      ∀ j ∈ L, ¬ p j := by
  induction L with
  | nil => exact Or.inr (by simp)
  | cons i rest ih =>
      by_cases hp : p i
      · exact Or.inl ⟨[], i, rest, rfl, by simp, hp⟩
      · rcases ih with ⟨pre, j, post, rfl, hpre, hj⟩ | hall
        · exact Or.inl ⟨i :: pre, j, post, rfl, by simpa using ⟨hp, hpre⟩, hj⟩
        · exact Or.inr (by simpa using ⟨hp, hall⟩)

/-! ## Sweeping the marked slots -/

section

variable (marked : Nat → Bool) (n : Nat)

/-- The loop `while (i < n && !marked(i)) ++i`; it can take `n - i` steps. -/
def nextMarkedLoop : Nat → Nat → Nat
  | 0, i => i
  | fuel + 1, i =>
      if i < n ∧ marked i = false then nextMarkedLoop fuel (i + 1) else i

/-- The next marked slot at or after `i`, or the end. -/
def nextMarked (i : Nat) : Nat := nextMarkedLoop marked n (n - i) i

/-- The loop `for (; i != n; i = next(i + 1))`, collecting the stops. -/
def sweepLoop : Nat → Nat → List Nat
  | 0, _ => []
  | fuel + 1, i =>
      if i < n then i :: sweepLoop fuel (nextMarked marked n (i + 1)) else []

/-- The slots a sweep stops at, from a slot the iterator already stands on. -/
def sweep (i : Nat) : List Nat := sweepLoop marked n (n - i) i

variable {marked n}

theorem nextMarked_of_marked {i : Nat} (h : marked i = true) :
    nextMarked marked n i = i := by
  rw [nextMarked]
  cases n - i with
  | zero => rfl
  | succ k => rw [nextMarkedLoop, if_neg (by simp [h])]

theorem nextMarked_of_end {i : Nat} (h : n ≤ i) : nextMarked marked n i = i := by
  rw [nextMarked, show n - i = 0 by omega]
  rfl

theorem nextMarked_of_not_marked {i : Nat} (hi : i < n) (h : marked i = false) :
    nextMarked marked n i = nextMarked marked n (i + 1) := by
  obtain ⟨k, hk⟩ : ∃ k, n - i = k + 1 := ⟨n - i - 1, by omega⟩
  rw [nextMarked, hk, nextMarkedLoop, if_pos ⟨hi, h⟩, nextMarked,
    show n - (i + 1) = k by omega]

theorem le_nextMarked (marked : Nat → Bool) (n i : Nat) :
    i ≤ nextMarked marked n i := by
  obtain ⟨k, hk⟩ : ∃ k, n - i = k := ⟨_, rfl⟩
  induction k generalizing i with
  | zero => rw [nextMarked_of_end (by omega)]
  | succ k ih =>
      cases hm : marked i with
      | true => rw [nextMarked_of_marked hm]
      | false =>
          rw [nextMarked_of_not_marked (by omega) hm]
          exact Nat.le_of_succ_le (ih (i + 1) (by omega))

/-- Any fuel that covers the rest of the array gives the same sweep. -/
theorem sweepLoop_fuel {fuel i : Nat} (h : n - i ≤ fuel) :
    sweepLoop marked n fuel i = sweep marked n i := by
  suffices hall : ∀ f₁ f₂ i, n - i ≤ f₁ → n - i ≤ f₂ →
      sweepLoop marked n f₁ i = sweepLoop marked n f₂ i from
    hall _ _ _ h (Nat.le_refl _)
  intro f₁
  induction f₁ with
  | zero =>
      intro f₂ i h₁ _
      cases f₂ with
      | zero => rfl
      | succ f₂ => rw [sweepLoop, sweepLoop, if_neg (by omega)]
  | succ f₁ ih =>
      intro f₂ i h₁ h₂
      cases f₂ with
      | zero => rw [sweepLoop, sweepLoop, if_neg (by omega)]
      | succ f₂ =>
          have hle := le_nextMarked marked n (i + 1)
          rw [sweepLoop, sweepLoop, ih f₂ _ (by omega) (by omega)]

theorem sweep_cons {i : Nat} (hi : i < n) :
    sweep marked n i = i :: sweep marked n (nextMarked marked n (i + 1)) := by
  obtain ⟨k, hk⟩ : ∃ k, n - i = k + 1 := ⟨n - i - 1, by omega⟩
  have hle := le_nextMarked marked n (i + 1)
  rw [sweep, hk, sweepLoop, if_pos hi, sweepLoop_fuel (by omega)]

theorem sweep_end {i : Nat} (hi : n ≤ i) : sweep marked n i = [] := by
  rw [sweep, show n - i = 0 by omega]
  rfl

/-- A sweep from the next marked slot visits exactly the marked slots from
there on, each once and in order. -/
theorem sweep_nextMarked (i : Nat) :
    sweep marked n (nextMarked marked n i) =
      (List.range' i (n - i)).filter marked := by
  obtain ⟨k, hk⟩ : ∃ k, n - i = k := ⟨_, rfl⟩
  induction k generalizing i with
  | zero =>
      rw [nextMarked_of_end (by omega), sweep_end (by omega), hk]
      rfl
  | succ k ih =>
      have ih' := ih (i + 1) (by omega)
      rw [show n - (i + 1) = k by omega] at ih'
      rw [hk, List.range'_succ]
      cases hm : marked i with
      | false =>
          rw [nextMarked_of_not_marked (by omega) hm, ih',
            List.filter_cons_of_neg (by simp [hm])]
      | true =>
          rw [nextMarked_of_marked hm, sweep_cons (by omega), ih',
            List.filter_cons_of_pos hm]

/-- From slot zero the sweep is the list of marked slots. -/
theorem sweep_begin :
    sweep marked n (nextMarked marked n 0) = (List.range n).filter marked := by
  rw [sweep_nextMarked, Nat.sub_zero, List.range_eq_range']

end

end Ycetl.Lib
