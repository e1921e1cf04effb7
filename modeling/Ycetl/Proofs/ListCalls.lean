import Ycetl.Proofs.LinkedList
import Mathlib.Data.List.TakeWhile

/-!
# The calls of a `list` on a sequence

What a list does, said without its links: a sequence of elements, each in the
node it was given when it was made. Nodes are numbered in the order in which
they were made, so the number made so far is the next number. An element is a
pair of its node and its value, and a position is a node.

A list that is copied or built gets the next numbers, and a call of the
interface does to the list what it does to the sequence, or is not allowed on
either.
-/

namespace Ycetl.Ref.LinkedList

open Ycetl.Lib

variable {T : Type}

/-! ## Sequences -/

/-- The elements before a node. -/
def beforeNode (p : Nat) (es : List (Nat × T)) : List (Nat × T) := es.takeWhile fun x => x.1 ≠ p

/-- The elements from a node on. -/
def fromNode (p : Nat) (es : List (Nat × T)) : List (Nat × T) := es.dropWhile fun x => x.1 ≠ p

/-- The elements behind a node. -/
def behindNode (p : Nat) (es : List (Nat × T)) : List (Nat × T) := (fromNode p es).tail

/-- The calls on a sequence, when `made` nodes have been made so far. -/
def onSeq (made : Nat) (es : List (Nat × T)) :
    Call T → Option (Nat × List (Nat × T) × ListOut T)
  | .emplaceBack v => some (made + 1, es ++ [(made, v)], .done)
  | .emplaceFront v => some (made + 1, (made, v) :: es, .done)
  | .popBack => if es = [] then none else some (made, es.dropLast, .done)
  | .popFront => if es = [] then none else some (made, es.tail, .done)
  | .insert none v => some (made + 1, es ++ [(made, v)], .iter (some made))
  | .insert (some p) v =>
      if p ∈ nodesOf es then
        some (made + 1, beforeNode p es ++ (made, v) :: fromNode p es, .iter (some made))
      else none
  | .erase p =>
      if p ∈ nodesOf es then
        some (made, beforeNode p es ++ behindNode p es, .iter (nodesOf (behindNode p es)).head?)
      else none
  | .clear => some (made, [], .done)
  | .front => es.head?.map fun x => (made, es, .elem x.2)
  | .back => es.getLast?.map fun x => (made, es, .elem x.2)
  | .deref p => (fromNode p es).head?.map fun x => (made, es, .elem x.2)
  | .assign p v =>
      if p ∈ nodesOf es then some (made, beforeNode p es ++ (p, v) :: behindNode p es, .done)
      else none
  | .incr p =>
      if p ∈ nodesOf es then some (made, es, .iter (nodesOf (behindNode p es)).head?) else none
  | .decr none => if es = [] then none else some (made, es, .iter (nodesOf es).getLast?)
  | .decr (some p) =>
      if p ∈ nodesOf es then some (made, es, .iter (nodesOf (beforeNode p es)).getLast?)
      else none

/-- New elements with these values. -/
def numbered : Nat → List T → List (Nat × T)
  | _, [] => []
  | made, v :: vs => (made, v) :: numbered (made + 1) vs

/-! ## Cutting a sequence at a node -/

section

variable {l r : List (Nat × T)} {p : Nat} {v : T}

theorem ne_of_not_mem (h : p ∉ nodesOf l) : ∀ x ∈ l, decide (x.1 ≠ p) = true := by
  intro x hx
  rw [decide_eq_true_iff]
  intro he
  exact h (he ▸ List.mem_map_of_mem hx)

theorem beforeNode_cut (h : p ∉ nodesOf l) : beforeNode p (l ++ (p, v) :: r) = l := by
  rw [beforeNode, List.takeWhile_append_of_pos (ne_of_not_mem h)]
  simp

theorem fromNode_cut (h : p ∉ nodesOf l) :
    fromNode p (l ++ (p, v) :: r) = (p, v) :: r := by
  rw [fromNode, List.dropWhile_append_of_pos (ne_of_not_mem h)]
  simp

theorem behindNode_cut (h : p ∉ nodesOf l) : behindNode p (l ++ (p, v) :: r) = r := by
  rw [behindNode, fromNode_cut h, List.tail_cons]

theorem fromNode_of_not_mem (h : p ∉ nodesOf l) : fromNode p l = [] := by
  rw [fromNode, List.dropWhile_eq_nil_iff]
  exact ne_of_not_mem h

end

/-! ## How many nodes a function makes -/

section

variable {H H' : Heap T} {l l' : Header}

theorem length_emplaceBack {v : T} (h : emplaceBack H l v = some (H', l')) :
    H'.length = H.length + 1 := by
  simp only [emplaceBack, newNode, Option.bind_eq_bind, Option.bind_eq_some_iff,
    Option.some.injEq, Prod.mk.injEq] at h
  obtain ⟨H₁, hu, rfl, -⟩ := h
  rw [length_updateIf hu, List.length_append]
  rfl

theorem length_emplaceFront {v : T} (h : emplaceFront H l v = some (H', l')) :
    H'.length = H.length + 1 := by
  simp only [emplaceFront, newNode, Option.bind_eq_bind, Option.bind_eq_some_iff,
    Option.some.injEq, Prod.mk.injEq] at h
  obtain ⟨H₁, hu, rfl, -⟩ := h
  rw [length_updateIf hu, List.length_append]
  rfl

theorem length_linkAfter {prev : Option Nat} {f : Nat} (h : linkAfter H l prev f = some (H', l')) :
    H'.length = H.length := by
  simp only [linkAfter, Option.bind_eq_bind, Option.bind_eq_some_iff, Option.some.injEq,
    Prod.mk.injEq] at h
  obtain ⟨next, -, H₁, h₁, H₂, h₂, H₃, h₃, rfl, -⟩ := h
  rw [length_updateIf h₃, length_updateIf h₂, length_updateNode h₁]

theorem length_insert {pos : Option Nat} {v : T} {p : Nat}
    (h : insert H l pos v = some (H', l', p)) : H'.length = H.length + 1 := by
  simp only [insert, newNode, Option.bind_eq_bind, Option.bind_eq_some_iff, Option.some.injEq,
    Prod.mk.injEq] at h
  obtain ⟨prev, -, ⟨H₁, l₁⟩, hlink, rfl, -, -⟩ := h
  rw [length_linkAfter hlink, List.length_append]
  rfl

theorem length_unlink {n : Nat} (h : unlink H l n = some (H', l')) : H'.length = H.length := by
  simp only [unlink, Option.bind_eq_bind, Option.bind_eq_some_iff, Option.some.injEq,
    Prod.mk.injEq] at h
  obtain ⟨x, -, H₁, h₁, y, -, H₂, h₂, rfl, -⟩ := h
  rw [length_updateIf h₂, length_updateIf h₁]

theorem length_remove {n : Nat} (h : remove H l n = some (H', l')) : H'.length = H.length := by
  simp only [remove, Option.bind_eq_bind, Option.bind_eq_some_iff, Option.some.injEq,
    Prod.mk.injEq] at h
  obtain ⟨⟨H₁, l₁⟩, h₁, H₂, h₂, rfl, -⟩ := h
  rw [length_deleteNode h₂, length_unlink h₁]

theorem length_erase {n : Nat} {q : Option Nat} (h : erase H l n = some (H', l', q)) :
    H'.length = H.length := by
  simp only [erase, Option.bind_eq_bind, Option.bind_eq_some_iff, Option.some.injEq,
    Prod.mk.injEq] at h
  obtain ⟨x, -, ⟨H₁, l₁⟩, h₁, rfl, -, -⟩ := h
  exact length_remove h₁

theorem length_clearNodes (h : clearNodes H l = some (H', l')) : H'.length = H.length := by
  simp only [clearNodes, Option.bind_eq_bind, Option.bind_eq_some_iff, Option.some.injEq,
    Prod.mk.injEq] at h
  obtain ⟨H₁, h₁, rfl, -⟩ := h
  exact length_deleteFrom h₁

end

/-! ## Copies have new nodes -/

@[simp] theorem numbered_snd (made : Nat) (vs : List T) :
    (numbered made vs).map Prod.snd = vs := by
  induction vs generalizing made with
  | nil => rfl
  | cons v vs ih => rw [numbered, List.map_cons, ih]

@[simp] theorem length_numbered (made : Nat) (vs : List T) :
    (numbered made vs).length = vs.length := by
  have h := congrArg List.length (numbered_snd made vs)
  rwa [List.length_map] at h

theorem numbered_concat (made : Nat) (vs : List T) (v : T) :
    numbered made (vs ++ [v]) = numbered made vs ++ [(made + vs.length, v)] := by
  induction vs generalizing made with
  | nil => rfl
  | cons w vs ih =>
      rw [List.cons_append, numbered, ih, numbered, List.length_cons]
      simp only [List.cons_append, List.cons.injEq, true_and, List.append_cancel_left_eq,
        Prod.mk.injEq, and_true]
      omega

section

variable {H : Heap T} {l o : Header} {es fs : List (Nat × T)}

/-- A list that ends in copies, in the nodes made from `n` on. -/
def EndsNumbered (n : Nat) (es : List (Nat × T)) (H : Heap T) (l : Header)
    (gs : List (Nat × T)) : Prop :=
  IsList H l gs ∧ ∃ vs, gs = es ++ numbered n vs ∧ H.length = n + vs.length

theorem EndsNumbered.emplaceBack {n : Nat} {gs : List (Nat × T)}
    (h : EndsNumbered n es H l gs) (v : T) :
    ∃ H' l' p, emplaceBack H l v = some (H', l') ∧
      EndsNumbered n es H' l' (gs ++ [(p, v)]) ∧ Reworks H gs H' (gs ++ [(p, v)]) := by
  obtain ⟨hl, vs, hgs, hlen⟩ := h
  obtain ⟨H', l', hb, hl', hw⟩ := emplaceBack_spec hl v
  refine ⟨H', l', _, hb, ⟨hl', vs ++ [v], ?_, ?_⟩, hw⟩
  · rw [hgs, hlen, numbered_concat, List.append_assoc]
  · rw [length_emplaceBack hb, hlen, List.length_append, List.length_singleton]
    omega

theorem copyElements_seq (h : IsList H l es) (ho : IsList H o fs)
    (hdis : ∀ p ∈ nodesOf fs, p ∉ nodesOf es) :
    ∃ H' l', copyElements H l o = some (H', l') ∧
      IsList H' l' (es ++ numbered H.length (fs.map Prod.snd)) ∧
      Reworks H es H' (es ++ numbered H.length (fs.map Prod.snd)) ∧
      H'.length = H.length + fs.length := by
  have hstart : EndsNumbered H.length es H l es :=
    ⟨h, [], by rw [numbered, List.append_nil], rfl⟩
  obtain ⟨H', l', gs, hrun, ⟨hl', vs, hgs, hlen⟩, hsnd, hw⟩ := ho.chain.copyFrom Node.next
    (fun _ _ _ => rfl) (EndsNumbered H.length es) (fun H l n => emplaceBack H l n.value)
    (fun H l es b v e hl => hl.emplaceBack v) l es hstart hdis ho.length_le
  have hgs' : gs = numbered H.length vs := List.append_cancel_left hgs
  have hvs : vs = fs.map Prod.snd := by rw [← hsnd, hgs', numbered_snd]
  rw [hgs', hvs] at hl' hw
  refine ⟨H', l', ?_, hl', hw, by rw [hlen, hvs, List.length_map]⟩
  rw [copyElements, ho.head_eq]
  exact hrun

theorem ofCopy_seq (ho : IsList H o fs) :
    ∃ H' l', ofCopy H o = some (H', l') ∧ IsList H' l' (numbered H.length (fs.map Prod.snd)) ∧
      Reworks H [] H' (numbered H.length (fs.map Prod.snd)) ∧
      H'.length = H.length + fs.length :=
  copyElements_seq (isList_none H) ho fun _ _ hmem => by cases hmem

theorem copyAssign_seq (h : IsList H l es) (ho : IsList H o fs)
    (hdis : ∀ p ∈ nodesOf fs, p ∉ nodesOf es) :
    ∃ H' l', copyAssign H l o = some (H', l') ∧
      IsList H' l' (numbered H.length (fs.map Prod.snd)) ∧
      Reworks H es H' (numbered H.length (fs.map Prod.snd)) ∧
      H'.length = H.length + fs.length := by
  obtain ⟨H₁, hclear, hw₁⟩ := clearNodes_spec h
  have hlen := length_clearNodes hclear
  have ho₁ := ho.congr fun p hp =>
    hw₁.keeps.record_eq p (ho.chain.lt p hp) (hdis p hp)
  obtain ⟨H', l', hcopy, hl', hw, hlen'⟩ := ofCopy_seq ho₁
  rw [hlen] at hl' hw hlen'
  refine ⟨H', l', ?_, hl', hw₁.trans hw, hlen'⟩
  rw [copyAssign, hclear]
  exact hcopy

theorem ofList_seq (H : Heap T) (vs : List T) :
    ∃ H' l', ofList H vs = some (H', l') ∧ IsList H' l' (numbered H.length vs) ∧
      Reworks H [] H' (numbered H.length vs) ∧ H'.length = H.length + vs.length := by
  have hfold : ∀ (vs : List T) {H₁ l₁ gs}, EndsNumbered H.length [] H₁ l₁ gs →
      Reworks H [] H₁ gs →
      ∃ H' l' hs, vs.foldlM (fun r v => emplaceBack r.1 r.2 v) (H₁, l₁) = some (H', l') ∧
        EndsNumbered H.length [] H' l' (gs ++ hs) ∧ hs.map Prod.snd = vs ∧
        Reworks H [] H' (gs ++ hs) := by
    intro vs
    induction vs with
    | nil =>
        intro H₁ l₁ gs h hw
        exact ⟨H₁, l₁, [], rfl, by rwa [List.append_nil], rfl, by rwa [List.append_nil]⟩
    | cons v vs ih =>
        intro H₁ l₁ gs h hw
        obtain ⟨H₂, l₂, p, hb, h₂, hw₂⟩ := h.emplaceBack v
        obtain ⟨H', l', hs, hrun, hl, hhs, hw'⟩ := ih h₂ (hw.trans hw₂)
        rw [List.append_assoc] at hl hw'
        refine ⟨H', l', (p, v) :: hs, ?_, hl, by rw [List.map_cons, hhs], hw'⟩
        rw [List.foldlM_cons, hb]
        exact hrun
  obtain ⟨H', l', hs, hrun, ⟨hl, ws, hgs, hlen⟩, hsnd, hw⟩ :=
    hfold vs ⟨isList_none H, [], rfl, rfl⟩ (Reworks.refl H [])
  rw [List.nil_append, List.nil_append] at hgs
  have hws : ws = vs := by rw [← hsnd, hgs, numbered_snd]
  rw [List.nil_append, hgs, hws] at hl hw
  exact ⟨H', l', hrun, hl, hw, by rw [hlen, hws]⟩

/-! ## Calls -/

/-- What is the case where a node is one of the list, and where it is not. -/
theorem IsList.at_node (h : IsList H l es) (p : Nat) {A B : Prop}
    (hin : p ∈ nodesOf es → ∀ ls v r, es = ls ++ (p, v) :: r → p ∉ nodesOf ls → A)
    (hout : p ∉ nodesOf es → B) : (p ∈ nodes H l ∧ A) ∨ (p ∉ nodes H l ∧ B) := by
  rw [h.nodes_eq]
  exact cut_cases h.nodup p hin hout

/-- The interface allows a call exactly where it is defined on the sequence,
and it does to the list what it does to the sequence. -/
theorem call_seq (h : IsList H l es) (c : Call T) :
    (c.Legal H l ∧ ∃ H' l' out es', call H l c = some (H', l', out) ∧
      onSeq H.length es c = some (H'.length, es', out) ∧ IsList H' l' es' ∧
      Reworks H es H' es') ∨
    (¬ c.Legal H l ∧ onSeq H.length es c = none) := by
  have hpos : 0 < l.size ↔ es ≠ [] := by rw [h.size_eq, List.length_pos_iff]
  cases c with
  | emplaceBack v =>
      obtain ⟨H', l', hb, hl, hw⟩ := emplaceBack_spec h v
      exact .inl ⟨trivial, H', l', _, _, by rw [call, hb]; rfl,
        by rw [onSeq, length_emplaceBack hb], hl, hw⟩
  | emplaceFront v =>
      obtain ⟨H', l', hb, hl, hw⟩ := emplaceFront_spec h v
      exact .inl ⟨trivial, H', l', _, _, by rw [call, hb]; rfl,
        by rw [onSeq, length_emplaceFront hb], hl, hw⟩
  | popBack =>
      rcases List.eq_nil_or_concat es with rfl | ⟨es, ⟨p, v⟩, rfl⟩
      · exact .inr ⟨fun hc => hpos.mp hc rfl, rfl⟩
      · rw [List.concat_eq_append] at h hpos ⊢
        obtain ⟨H', l', hb, hl, hw⟩ := popBack_spec h
        have hlen : H'.length = H.length := by
          rw [popBack, h.tail_eq, lastOr_concat] at hb
          exact length_remove hb
        refine .inl ⟨hpos.mpr (by simp), H', l', .done, es, by rw [call, hb]; rfl, ?_, hl, hw⟩
        rw [onSeq, if_neg (by simp), hlen, List.dropLast_concat]
  | popFront =>
      cases es with
      | nil => exact .inr ⟨fun hc => hpos.mp hc rfl, rfl⟩
      | cons x es =>
          obtain ⟨H', l', hb, hl, hw⟩ := popFront_spec h
          have hlen : H'.length = H.length := by
            rw [popFront, h.head_eq] at hb
            exact length_remove hb
          refine .inl ⟨hpos.mpr (by simp), H', l', .done, es, by rw [call, hb]; rfl, ?_, hl, hw⟩
          rw [onSeq, if_neg (by simp), hlen, List.tail_cons]
  | insert pos v =>
      cases pos with
      | none =>
          have hend : IsList H l (es ++ []) := by rwa [List.append_nil]
          obtain ⟨H', l', hb, hl, hw⟩ := insert_spec hend v
          rw [List.append_nil] at hw
          exact .inl ⟨trivial, H', l', _, _, by rw [call]; exact congrArg (Option.map _) hb,
            by rw [onSeq, length_insert hb], hl, hw⟩
      | some p =>
          refine h.at_node p (fun hp ls w r hes hpl => ?_) fun hp => by rw [onSeq, if_neg hp]
          subst hes
          obtain ⟨H', l', hb, hl, hw⟩ := insert_spec h v
          rw [firstOr_cons] at hb
          refine ⟨H', l', _, _, by rw [call, hb]; rfl, ?_, hl, hw⟩
          rw [onSeq, if_pos hp, beforeNode_cut hpl, fromNode_cut hpl, length_insert hb]
  | erase p =>
      refine h.at_node p (fun hp ls w r hes hpl => ?_) fun hp => by rw [onSeq, if_neg hp]
      subst hes
      obtain ⟨H', l', hb, hl, hw⟩ := erase_spec h
      refine ⟨H', l', _, _, by rw [call, hb]; rfl, ?_, hl, hw⟩
      rw [onSeq, if_pos hp, beforeNode_cut hpl, behindNode_cut hpl, length_erase hb,
        firstOr_eq_head?, Option.or_none]
  | clear =>
      obtain ⟨H', hb, hw⟩ := clearNodes_spec h
      exact .inl ⟨trivial, H', _, _, _, by rw [call, hb]; rfl,
        by rw [onSeq, length_clearNodes hb], isList_none H', hw⟩
  | front =>
      cases es with
      | nil => exact .inr ⟨fun hc => hpos.mp hc rfl, rfl⟩
      | cons x es =>
          refine .inl ⟨hpos.mpr (by simp), H, l, .elem x.2, _, ?_, rfl, h, Reworks.refl H _⟩
          have hx := h.chain.1
          rw [call, h.head_eq]
          simp only [firstOr, Option.bind_eq_bind, Option.bind_some, hx, link]
  | back =>
      rcases List.eq_nil_or_concat es with rfl | ⟨es, ⟨p, v⟩, rfl⟩
      · exact .inr ⟨fun hc => hpos.mp hc rfl, rfl⟩
      · rw [List.concat_eq_append] at h hpos ⊢
        refine .inl ⟨hpos.mpr (by simp), H, l, .elem v, _, ?_, ?_, h, Reworks.refl H _⟩
        · have hx := (chain_append.mp h.chain).2.1
          rw [call, h.tail_eq]
          simp only [lastOr_concat, Option.bind_eq_bind, Option.bind_some, hx, link]
        · rw [onSeq, List.getLast?_concat]
          rfl
  | deref p =>
      refine h.at_node p (fun hp ls w r hes hpl => ?_) fun hp => by
        rw [onSeq, fromNode_of_not_mem hp]
        rfl
      subst hes
      have hx := (chain_append.mp h.chain).2.1
      refine ⟨H, l, .elem w, _, by rw [call, hx]; rfl, ?_, h, Reworks.refl H _⟩
      rw [onSeq, fromNode_cut hpl]
      rfl
  | assign p v =>
      refine h.at_node p (fun hp ls w r hes hpl => ?_) fun hp => by rw [onSeq, if_neg hp]
      subst hes
      obtain ⟨H', hu, hl, hw⟩ := assign_spec v h
      refine ⟨H', l, _, _, by rw [call, hu]; rfl, ?_, hl, hw⟩
      rw [onSeq, if_pos hp, beforeNode_cut hpl, behindNode_cut hpl, length_updateNode hu]
  | incr p =>
      refine h.at_node p (fun hp ls w r hes hpl => ?_) fun hp => by rw [onSeq, if_neg hp]
      subst hes
      have hx := (chain_append.mp h.chain).2.1
      refine ⟨H, l, _, _, by rw [call, hx]; rfl, ?_, h, Reworks.refl H _⟩
      rw [onSeq, if_pos hp, behindNode_cut hpl, link, firstOr_eq_head?, Option.or_none]
  | decr pos =>
      cases pos with
      | none =>
          by_cases hes : es = []
          · exact .inr ⟨fun hc => hpos.mp hc hes, by rw [onSeq, if_pos hes]⟩
          · refine .inl ⟨hpos.mpr hes, H, l, _, _, rfl, ?_, h, Reworks.refl H _⟩
            rw [onSeq, if_neg hes, h.tail_eq, lastOr_eq_getLast?, Option.or_none]
      | some p =>
          refine h.at_node p (fun hp ls w r hes hpl => ?_) fun hp => by rw [onSeq, if_neg hp]
          subst hes
          have hx := (chain_append.mp h.chain).2.1
          refine ⟨H, l, .iter (lastOr ls none), _, ?_, ?_, h, Reworks.refl H _⟩
          · rw [call, prevOf, hx]
            rfl
          · rw [onSeq, if_pos hp, beforeNode_cut hpl, lastOr_eq_getLast?, Option.or_none]

end

end Ycetl.Ref.LinkedList
