import Mathlib.Data.Finset.Basic
import Mathlib.Data.Fintype.Pigeonhole
import Mathlib.Logic.Relation

/-!
# What is kept, and what a cycle keeps

Things keep one another, and some of them, the roots, are kept from outside. A
thing that something keeps need not be reached from a root: going back from it
to what keeps it, and from there on, may go round in a cycle. With finitely
many things these are the only two cases.
-/

namespace Ycetl.Lib

open Relation

variable {ν : Type*} {R S : ν → ν → Prop} {m n : ν}

/-- A cycle is gone round, and left, or not, on a way to `n`. -/
def BehindCycle (R : ν → ν → Prop) (n : ν) : Prop := ∃ m, TransGen R m m ∧ ReflTransGen R m n

theorem BehindCycle.next (h : BehindCycle R m) (hmn : R m n) : BehindCycle R n := by
  obtain ⟨k, hk, hkm⟩ := h
  exact ⟨k, hk, hkm.tail hmn⟩

/-- What is before it on the way is behind the cycle as well. -/
theorem BehindCycle.before (h : BehindCycle R n) : ∃ m, BehindCycle R m ∧ R m n := by
  obtain ⟨k, hk, hkn⟩ := h
  rcases ReflTransGen.cases_tail hkn with rfl | hlast
  · obtain ⟨m, hkm, hmk⟩ := TransGen.tail'_iff.mp hk
    exact ⟨m, ⟨n, hk, hkm⟩, hmk⟩
  · obtain ⟨m, hkm, hmn⟩ := hlast
    exact ⟨m, ⟨k, hk, hkm⟩, hmn⟩

theorem BehindCycle.mono (hRS : ∀ m n, R m n → S m n) (h : BehindCycle R n) : BehindCycle S n := by
  obtain ⟨k, hk, hkn⟩ := h
  exact ⟨k, TransGen.mono hRS _ _ hk, ReflTransGen.mono hRS _ _ hkn⟩

theorem reach_restrict (hRS : ∀ m n, BehindCycle R m → R m n → S m n) (hm : BehindCycle R m)
    (h : ReflTransGen R m n) : ReflTransGen S m n ∧ BehindCycle R n := by
  induction h with
  | refl => exact ⟨.refl, hm⟩
  | tail _ hkn ih => exact ⟨ih.1.tail (hRS _ _ ih.2 hkn), ih.2.next hkn⟩

/-- Only what is kept behind a cycle decides what is behind it. -/
theorem BehindCycle.restrict (hRS : ∀ m n, BehindCycle R m → R m n → S m n)
    (h : BehindCycle R n) : BehindCycle S n := by
  obtain ⟨k, hk, hkn⟩ := h
  have hbehind : BehindCycle R k := ⟨k, hk, .refl⟩
  obtain ⟨l, hkl, hlk⟩ := TransGen.tail'_iff.mp hk
  obtain ⟨hS, hl⟩ := reach_restrict hRS hbehind hkl
  exact ⟨k, .tail' hS (hRS l k hl hlk), (reach_restrict hRS hbehind hkn).1⟩

/-- Reached from a root, or behind a cycle. -/
def Kept (R : ν → ν → Prop) (root : ν → Prop) (n : ν) : Prop :=
  (∃ r, root r ∧ ReflTransGen R r n) ∨ BehindCycle R n

variable {root : ν → Prop}

/-- A root, or what is kept keeps it. -/
theorem Kept.before (h : Kept R root n) : root n ∨ ∃ m, Kept R root m ∧ R m n := by
  rcases h with ⟨r, hr, hrn⟩ | hcycle
  · rcases ReflTransGen.cases_tail hrn with rfl | hlast
    · exact Or.inl hr
    · obtain ⟨m, hrm, hmn⟩ := hlast
      exact Or.inr ⟨m, Or.inl ⟨r, hr, hrm⟩, hmn⟩
  · obtain ⟨m, hm, hmn⟩ := hcycle.before
    exact Or.inr ⟨m, Or.inr hm, hmn⟩

theorem kept_no_root : Kept R (fun _ => False) n ↔ BehindCycle R n :=
  or_iff_right fun h => h.choose_spec.1

/-- Going back `k` times. -/
theorem reach_iterate {f : ν → ν} (hf : ∀ n, R (f n) n) (k : Nat) (n : ν) :
    ReflTransGen R (f^[k] n) n := by
  induction k generalizing n with
  | zero => exact .refl
  | succ k ih =>
      rw [Function.iterate_succ_apply]
      exact (ih (f n)).tail (hf n)

/-- With finitely many things, going back comes round again. -/
theorem behindCycle_of_back [Finite ν] {f : ν → ν} (hf : ∀ n, R (f n) n) (n : ν) :
    BehindCycle R n := by
  obtain ⟨i, j, hij, heq⟩ := Finite.exists_ne_map_eq_of_infinite fun k => f^[k] n
  wlog hlt : i < j generalizing i j
  · exact this j i (Ne.symm hij) heq.symm (by omega)
  obtain ⟨d, rfl⟩ := Nat.exists_eq_add_of_lt hlt
  refine ⟨f^[i] n, ?_, reach_iterate hf i n⟩
  have hback : f^[i] n = f (f^[d] (f^[i] n)) := by
    rw [← Function.iterate_succ_apply' f, ← Function.iterate_add_apply]
    exact heq.trans (congrArg (fun k => f^[k] n) (by omega))
  have hstep : R (f (f^[d] (f^[i] n))) (f^[d] (f^[i] n)) := hf _
  rw [← hback] at hstep
  exact .head' hstep (reach_iterate hf d _)

/-- Of finitely many things that are roots or kept by one of them, each is
reached from a root or is behind a cycle. -/
theorem kept_of_back {s : Finset ν} (h : ∀ n ∈ s, root n ∨ ∃ m ∈ s, R m n) (hn : n ∈ s) :
    Kept R root n := by
  by_cases hr : ∃ r, root r ∧ ReflTransGen R r n
  · exact Or.inl hr
  · right
    -- What no root reaches is kept by what no root reaches.
    let T := {m : ν // m ∈ s ∧ ¬ ∃ r, root r ∧ ReflTransGen R r m}
    have hfinite : Finite T := Finite.of_injective
      (fun t : T => (⟨t.1, t.2.1⟩ : {m // m ∈ s})) fun t u htu => by
        exact Subtype.ext (congrArg (fun x : {m // m ∈ s} => x.1) htu)
    have hback : ∀ t : T, ∃ u : T, R u.1 t.1 := by
      intro t
      rcases h t.1 t.2.1 with hroot | hkept
      · exact absurd ⟨t.1, hroot, .refl⟩ t.2.2
      · obtain ⟨m, hm, hmt⟩ := hkept
        refine ⟨⟨m, hm, fun hreach => t.2.2 ?_⟩, hmt⟩
        obtain ⟨r, hroot, hrm⟩ := hreach
        exact ⟨r, hroot, hrm.tail hmt⟩
    choose f hf using hback
    obtain ⟨t, ht, htn⟩ := behindCycle_of_back (R := fun t u : T => R t.1 u.1) hf ⟨n, hn, hr⟩
    exact ⟨t.1, ht.lift _ fun _ _ hR => hR, htn.lift _ fun _ _ hR => hR⟩

end Ycetl.Lib
