import Mathlib.Logic.Relation
import Mathlib.Data.List.Induction

/-!
# Orders that put what is needed first

A list is in post-order for a relation when each element comes after
everything it is related to. One more element may be put at the end as soon as
all it needs is there, and what holds of one step of the relation then holds
along its chains.

`foldlM_visits` is the rule for a loop of visits that a search makes: it says
what a whole loop keeps, how far the state has moved, and what each single
visit has achieved, when an achievement is never undone later.
-/

namespace Ycetl.Lib

open Relation

variable {α σ : Type*} {R : α → α → Prop} {l : List α}

/-- Everything an element is related to stands before it. -/
def PostOrdered (R : α → α → Prop) (l : List α) : Prop :=
  ∀ pre a post, l = pre ++ a :: post → ∀ b, R a b → b ∈ pre

theorem postOrdered_nil : PostOrdered R [] := fun pre a post h => by
  have := congrArg List.length h
  simp at this

theorem PostOrdered.concat (h : PostOrdered R l) {a : α} (ha : ∀ b, R a b → b ∈ l) :
    PostOrdered R (l ++ [a]) := by
  intro pre c post heq b hb
  cases post using List.reverseRecOn with
  | nil =>
      obtain ⟨rfl, hlast⟩ := List.append_inj' heq rfl
      rw [List.cons.injEq] at hlast
      exact ha b (hlast.1 ▸ hb)
  | append_singleton post d _ =>
      rw [← List.cons_append, ← List.append_assoc] at heq
      exact h pre c post (List.append_inj' heq rfl).1 b hb

/-- Chains of the relation are respected as well. -/
theorem PostOrdered.transGen (h : PostOrdered R l) {a b : α} (hab : TransGen R a b)
    {pre post : List α} (heq : l = pre ++ a :: post) : b ∈ pre := by
  induction hab using TransGen.head_induction_on generalizing pre post with
  | single hab => exact h pre _ post heq b hab
  | head hac _ ih =>
      obtain ⟨pre₁, pre₂, rfl⟩ := List.append_of_mem (h pre _ post heq _ hac)
      rw [List.append_assoc] at heq
      exact List.mem_append_left _ (ih heq)

/-- Where no element comes twice, nothing an element needs stands after it. -/
theorem PostOrdered.not_mem_tail (h : PostOrdered R l) (hnd : l.Nodup) {a b : α}
    (hab : TransGen R a b) {pre post : List α} (heq : l = pre ++ a :: post) :
    b ∉ a :: post := by
  intro hb
  have hpre := h.transGen hab heq
  rw [heq, List.nodup_append] at hnd
  exact hnd.2.2 b hpre b hb rfl

/-- A relation along which a rank comes down has no cycle. -/
theorem not_transGen_self (rank : α → Nat) (hrank : ∀ a b, R a b → rank b < rank a) (a : α) :
    ¬ TransGen R a a := by
  intro hself
  have hdown : ∀ b, TransGen R a b → rank b < rank a := by
    intro b hb
    induction hb with
    | single hab => exact hrank _ _ hab
    | tail _ hbc ih => exact Nat.lt_trans (hrank _ _ hbc) ih
  exact Nat.lt_irrefl _ (hdown a hself)

/-- A loop of visits: every visit keeps `I`, moves the state along `E`, and
achieves `G` for what it visits, which moving along `E` does not undo. -/
theorem foldlM_visits {I : σ → Prop} {E : σ → σ → Prop} {G : α → σ → Prop}
    (hrefl : ∀ s, E s s) (htrans : ∀ s t u, E s t → E t u → E s u)
    (hkeep : ∀ a s t, G a s → E s t → G a t) {visit : σ → α → Option σ} {as : List α}
    (hvisit : ∀ s a s', a ∈ as → I s → visit s a = some s' → I s' ∧ E s s' ∧ G a s')
    {s s' : σ} (hs : I s) (hrun : as.foldlM visit s = some s') :
    I s' ∧ E s s' ∧ ∀ a ∈ as, G a s' := by
  induction as generalizing s with
  | nil =>
      cases hrun
      exact ⟨hs, hrefl _, fun a ha => absurd ha List.not_mem_nil⟩
  | cons a as ih =>
      rw [List.foldlM_cons, Option.bind_eq_bind, Option.bind_eq_some_iff] at hrun
      obtain ⟨t, ht, hrun⟩ := hrun
      obtain ⟨hI, hE, hG⟩ := hvisit _ a t List.mem_cons_self hs ht
      obtain ⟨hI', hE', hG'⟩ := ih (fun s b s' hb => hvisit s b s' (List.mem_cons_of_mem a hb))
        hI hrun
      refine ⟨hI', htrans _ t _ hE hE', fun b hb => ?_⟩
      rcases List.mem_cons.mp hb with rfl | hb
      · exact hkeep b t _ hG hE'
      · exact hG' b hb

/-- Where every visit has a result, so has the loop. -/
theorem foldlM_succeeds {I : σ → Prop} {E : σ → σ → Prop} {G : α → σ → Prop}
    (hrefl : ∀ s, E s s) (htrans : ∀ s t u, E s t → E t u → E s u)
    (hkeep : ∀ a s t, G a s → E s t → G a t) {visit : σ → α → Option σ} {as : List α}
    (hvisit : ∀ s a, a ∈ as → I s → ∃ s', visit s a = some s' ∧ I s' ∧ E s s' ∧ G a s')
    {s : σ} (hs : I s) :
    ∃ s', as.foldlM visit s = some s' ∧ I s' ∧ E s s' ∧ ∀ a ∈ as, G a s' := by
  obtain ⟨s', hrun⟩ : ∃ s', as.foldlM visit s = some s' := by
    clear hkeep hrefl htrans
    induction as generalizing s with
    | nil => exact ⟨s, rfl⟩
    | cons a as ih =>
        obtain ⟨t, ht, hI, -, -⟩ := hvisit s a List.mem_cons_self hs
        obtain ⟨s', hrun⟩ := ih (fun s b hb => hvisit s b (List.mem_cons_of_mem a hb)) hI
        exact ⟨s', by rw [List.foldlM_cons, ht]; exact hrun⟩
  refine ⟨s', hrun, foldlM_visits hrefl htrans hkeep (fun s a t ha hI ht => ?_) hs hrun⟩
  obtain ⟨t', ht', hafter⟩ := hvisit s a ha hI
  rw [ht, Option.some.injEq] at ht'
  exact ht' ▸ hafter

end Ycetl.Lib
