import Ycetl.Proofs.ForwardList
import Ycetl.Proofs.ListCalls

/-!
# The calls of a `forward_list` on a sequence

What a `forward_list` does, said without its links. The elements are in the
nodes they were made in, and nodes are numbered in the order in which they were
made, as they are for `list`. An insertion goes behind a node and an erasure
takes the element behind one, if there is any.

A list is built in three ways. The initializer list is read from the back, so
the last element has the first number; the two copies number their elements in
order, the one behind a pointer to its last node and the other behind a walk to
it. What loop it is makes no difference to the copy.
-/

namespace Ycetl.Ref.ForwardList

open Ycetl.Lib
open LinkedList (beforeNode fromNode behindNode numbered numbered_snd numbered_concat
  beforeNode_cut fromNode_cut behindNode_cut fromNode_of_not_mem)

variable {T : Type}

/-! ## Sequences -/

/-- The elements up to a node, and its own. -/
def throughNode (p : Nat) (es : List (Nat × T)) : List (Nat × T) :=
  beforeNode p es ++ (fromNode p es).take 1

/-- The calls on a sequence, when `made` nodes have been made so far. -/
def onSeq (made : Nat) (es : List (Nat × T)) :
    Call T → Option (Nat × List (Nat × T) × ListOut T)
  | .emplaceFront v => some (made + 1, (made, v) :: es, .done)
  | .popFront => if es = [] then none else some (made, es.tail, .done)
  | .insertAfter p v =>
      if p ∈ nodesOf es then
        some (made + 1, throughNode p es ++ (made, v) :: behindNode p es, .iter (some made))
      else none
  | .eraseAfter p =>
      if p ∈ nodesOf es then
        some (made, throughNode p es ++ (behindNode p es).tail,
          .iter (nodesOf (behindNode p es).tail).head?)
      else none
  | .clear => some (made, [], .done)
  | .front => es.head?.map fun x => (made, es, .elem x.2)
  | .deref p => (fromNode p es).head?.map fun x => (made, es, .elem x.2)
  | .assign p v =>
      if p ∈ nodesOf es then some (made, beforeNode p es ++ (p, v) :: behindNode p es, .done)
      else none
  | .incr p =>
      if p ∈ nodesOf es then some (made, es, .iter (nodesOf (behindNode p es)).head?) else none

/-- New elements with these values, the last of which was made first. -/
def fromBack (made : Nat) (vs : List T) : List (Nat × T) := (numbered made vs.reverse).reverse

@[simp] theorem fromBack_snd (made : Nat) (vs : List T) :
    (fromBack made vs).map Prod.snd = vs := by
  rw [fromBack, List.map_reverse, numbered_snd, List.reverse_reverse]

@[simp] theorem length_fromBack (made : Nat) (vs : List T) :
    (fromBack made vs).length = vs.length := by
  rw [fromBack, List.length_reverse, LinkedList.length_numbered, List.length_reverse]

theorem fromBack_cons (made : Nat) (v : T) (vs : List T) :
    fromBack made (v :: vs) = (made + vs.length, v) :: fromBack made vs := by
  rw [fromBack, List.reverse_cons, numbered_concat, List.reverse_concat, List.length_reverse,
    ← fromBack]

theorem throughNode_cut {l r : List (Nat × T)} {p : Nat} {v : T} (h : p ∉ nodesOf l) :
    throughNode p (l ++ (p, v) :: r) = l ++ [(p, v)] := by
  rw [throughNode, beforeNode_cut h, fromNode_cut h]
  rfl

/-! ## How many nodes a function makes -/

section

variable {H H' : Heap T} {l l' : Header}

theorem length_emplaceFront (H : Heap T) (l : Header) (v : T) :
    (emplaceFront H l v).1.length = H.length + 1 := by
  rw [emplaceFront, newNode, List.length_append]
  rfl

theorem length_popFront (h : popFront H l = some (H', l')) : H'.length = H.length := by
  simp only [popFront, Option.bind_eq_bind, Option.bind_eq_some_iff, Option.some.injEq,
    Prod.mk.injEq] at h
  obtain ⟨p, -, n, -, H₁, h₁, rfl, -⟩ := h
  exact length_deleteNode h₁

theorem length_insertAfter {pos p : Nat} {v : T} (h : insertAfter H l pos v = some (H', l', p)) :
    H'.length = H.length + 1 := by
  simp only [insertAfter, newNode, Option.bind_eq_bind, Option.bind_eq_some_iff,
    Option.some.injEq, Prod.mk.injEq] at h
  obtain ⟨n, -, H₁, h₁, rfl, -, -⟩ := h
  rw [length_updateNode h₁, List.length_append]
  rfl

theorem length_eraseAfter {pos : Nat} {q : Option Nat}
    (h : eraseAfter H l pos = some (H', l', q)) : H'.length = H.length := by
  simp only [eraseAfter, Option.bind_eq_bind, Option.bind_eq_some_iff] at h
  obtain ⟨n, -, h⟩ := h
  split at h
  · simp only [Option.some.injEq, Prod.mk.injEq] at h
    rw [h.1]
  · simp only [Option.bind_eq_some_iff, Option.some.injEq, Prod.mk.injEq] at h
    obtain ⟨d, -, H₁, h₁, H₂, h₂, m, -, rfl, -, -⟩ := h
    rw [length_deleteNode h₂, length_updateNode h₁]

theorem length_clearNodes (h : clearNodes H l = some (H', l')) : H'.length = H.length := by
  simp only [clearNodes, Option.bind_eq_bind, Option.bind_eq_some_iff, Option.some.injEq,
    Prod.mk.injEq] at h
  obtain ⟨H₁, h₁, rfl, -⟩ := h
  exact length_deleteFrom h₁

theorem length_pushBackInternal {v : T} (h : pushBackInternal H l v = some (H', l')) :
    H'.length = H.length + 1 := by
  unfold pushBackInternal at h
  split at h
  · simp only [newNode, Option.some.injEq, Prod.mk.injEq] at h
    rw [← h.1, List.length_append]
    rfl
  · simp only [newNode, Option.bind_eq_bind, Option.bind_eq_some_iff, Option.some.injEq,
      Prod.mk.injEq] at h
    obtain ⟨q, -, H₁, h₁, rfl, -⟩ := h
    rw [length_updateNode h₁, List.length_append]
    rfl

theorem length_copyNode {s s' : Header × Option Nat} {n : Node T}
    (h : copyNode H s n = some (H', s')) : H'.length = H.length + 1 := by
  simp only [copyNode, newNode, Option.bind_eq_bind, Option.bind_eq_some_iff, Option.some.injEq,
    Prod.mk.injEq] at h
  obtain ⟨H₁, h₁, rfl, -⟩ := h
  rw [length_updateIf h₁, List.length_append]
  rfl

end

/-! ## Three ways to build a list -/

section

variable {H : Heap T} {l o : Header} {es fs : List (Nat × T)}

/-- A loop over a list that puts a copy of each element behind the last one
ends with copies of all, numbered in order. What it carries along is `σ`. -/
theorem copyLoop_seq {σ : Type} (S : Heap T → σ → List (Nat × T) → Prop)
    (body : Heap T → σ → Node T → Option (Heap T × σ))
    (hbody : ∀ {H : Heap T} {s : σ} {es : List (Nat × T)}, S H s es → ∀ b v e,
      ∃ H' s', body H s (link b v e) = some (H', s') ∧ S H' s' (es ++ [(H.length, v)]) ∧
        Reworks H es H' (es ++ [(H.length, v)]))
    (hlength : ∀ {H H' : Heap T} {s s' : σ} {n : Node T}, body H s n = some (H', s') →
      H'.length = H.length + 1)
    (ho : IsList H o fs) {s : σ} (hs : S H s []) :
    ∃ H' s', forEachFrom Node.next body H.length o.head H s = some (H', s') ∧
      S H' s' (numbered H.length (fs.map Prod.snd)) ∧
      Reworks H [] H' (numbered H.length (fs.map Prod.snd)) ∧
      H'.length = H.length + fs.length := by
  let S' : Heap T → σ → List (Nat × T) → Prop := fun H₁ s₁ gs =>
    S H₁ s₁ gs ∧ ∃ vs, gs = numbered H.length vs ∧ H₁.length = H.length + vs.length
  have hround : ∀ (H₁ : Heap T) s₁ gs b v e, S' H₁ s₁ gs →
      ∃ H' s' p, body H₁ s₁ (link b v e) = some (H', s') ∧ S' H' s' (gs ++ [(p, v)]) ∧
        Reworks H₁ gs H' (gs ++ [(p, v)]) := by
    intro H₁ s₁ gs b v e h₁
    obtain ⟨hs₁, vs, hgs, hlen⟩ := h₁
    obtain ⟨H', s', hb, hs', hw⟩ := hbody hs₁ b v e
    refine ⟨H', s', _, hb, ⟨hs', vs ++ [v], ?_, ?_⟩, hw⟩
    · rw [hgs, hlen, numbered_concat]
    · rw [hlength hb, hlen, List.length_append]
      rfl
  obtain ⟨H', s', gs, hrun, ⟨hs', vs, hgs, hlen⟩, hsnd, hw⟩ := ho.chain.copyFrom Node.next
    (fun _ _ _ => rfl) S' body hround s [] ⟨hs, [], rfl, rfl⟩
    (fun _ _ => List.not_mem_nil) ho.length_le
  rw [List.nil_append] at hgs hs' hw
  have hvs : vs = fs.map Prod.snd := by rw [← hsnd, hgs, numbered_snd]
  rw [hgs, hvs] at hs' hw
  refine ⟨H', s', ?_, hs', hw, by rw [hlen, hvs, List.length_map]⟩
  rw [ho.head_eq]
  exact hrun

theorem ofCopy_seq (ho : IsList H o fs) :
    ∃ H' l', ofCopy H o = some (H', l') ∧
      IsList H' l' (numbered H.length (fs.map Prod.snd)) ∧
      Reworks H [] H' (numbered H.length (fs.map Prod.snd)) ∧
      H'.length = H.length + fs.length := by
  obtain ⟨H', s', hrun, ⟨hl, -⟩, hw, hlen⟩ := copyLoop_seq IsCopy copyNode
    (fun hs b v e => copyNode_spec hs b v e) length_copyNode ho
    (s := (Header.none, none)) ⟨isList_none H, rfl⟩
  refine ⟨H', s'.1, ?_, hl, hw, hlen⟩
  rw [ofCopy, hrun]
  rfl

theorem copyAssign_seq (h : IsList H l es) (ho : IsList H o fs)
    (hdis : ∀ p ∈ nodesOf fs, p ∉ nodesOf es) :
    ∃ H' l', copyAssign H l o = some (H', l') ∧
      IsList H' l' (numbered H.length (fs.map Prod.snd)) ∧
      Reworks H es H' (numbered H.length (fs.map Prod.snd)) ∧
      H'.length = H.length + fs.length := by
  obtain ⟨H₁, hclear, hw₁⟩ := clearNodes_spec h
  have hlen₁ := length_clearNodes hclear
  have ho₁ := ho.congr fun p hp =>
    hw₁.keeps.record_eq p (ho.chain.lt p hp) (hdis p hp)
  obtain ⟨H', l', hrun, hl, hw, hlen⟩ := copyLoop_seq IsList
    (fun H l n => pushBackInternal H l n.value) (fun hl b v e => pushBackInternal_spec hl v)
    length_pushBackInternal ho₁ (isList_none H₁)
  rw [hlen₁] at hl hw hlen
  refine ⟨H', l', ?_, hl, hw₁.trans hw, hlen⟩
  rw [copyAssign, hclear]
  exact hrun

/-- From the back: every element is put in front of those behind it. -/
theorem ofList_seq (H : Heap T) (vs : List T) :
    IsList (ofList H vs).1 (ofList H vs).2 (fromBack H.length vs) ∧
      Reworks H [] (ofList H vs).1 (fromBack H.length vs) ∧
      (ofList H vs).1.length = H.length + vs.length := by
  rw [ofList, List.foldl_reverse]
  induction vs with
  | nil => exact ⟨isList_none H, Reworks.refl H [], rfl⟩
  | cons v vs ih =>
      obtain ⟨hl, hw, hlen⟩ := ih
      obtain ⟨hl', hw'⟩ := emplaceFront_spec hl v
      rw [hlen, ← fromBack_cons] at hl' hw'
      rw [List.foldr_cons, length_emplaceFront, hlen]
      exact ⟨hl', hw.trans hw', rfl⟩

/-! ## Calls -/

theorem IsList.at_node (h : IsList H l es) (p : Nat) {A B : Prop}
    (hin : p ∈ nodesOf es → ∀ ls v r, es = ls ++ (p, v) :: r → p ∉ nodesOf ls → A)
    (hout : p ∉ nodesOf es → B) : (p ∈ nodes H l ∧ A) ∨ (p ∉ nodes H l ∧ B) := by
  rw [h.nodes_eq]
  exact cut_cases h.nodup p hin hout

/-- Behind the last element nothing is erased, and `end()` is returned. -/
theorem call_eraseAfter_last {p : Nat} {v : T} (h : IsList H l (es ++ [(p, v)])) :
    call H l (.eraseAfter p) = some (H, l, .iter none) := by
  rw [call, eraseAfter_last h]
  rfl

/-- The interface allows a call exactly where it is defined on the sequence,
and it does to the list what it does to the sequence. -/
theorem call_seq (h : IsList H l es) (c : Call T) :
    (c.Legal H l ∧ ∃ H' l' out es', call H l c = some (H', l', out) ∧
      onSeq H.length es c = some (H'.length, es', out) ∧ IsList H' l' es' ∧
      Reworks H es H' es') ∨
    (¬ c.Legal H l ∧ onSeq H.length es c = none) := by
  have hpos : 0 < l.size ↔ es ≠ [] := by rw [h.size_eq, List.length_pos_iff]
  cases c with
  | emplaceFront v =>
      obtain ⟨hl, hw⟩ := emplaceFront_spec h v
      exact .inl ⟨trivial, _, _, .done, _, rfl, by rw [onSeq, length_emplaceFront], hl, hw⟩
  | popFront =>
      cases es with
      | nil => exact .inr ⟨fun hc => hpos.mp hc rfl, rfl⟩
      | cons x es =>
          obtain ⟨H', l', hb, hl, hw⟩ := popFront_spec h
          refine .inl ⟨hpos.mpr (by simp), H', l', .done, es, by rw [call, hb]; rfl, ?_, hl, hw⟩
          rw [onSeq, if_neg (by simp), length_popFront hb, List.tail_cons]
  | insertAfter p v =>
      refine h.at_node p (fun hp ls w r hes hpl => ?_) fun hp => by rw [onSeq, if_neg hp]
      subst hes
      obtain ⟨H', l', hb, hl, hw⟩ := insertAfter_spec h v
      refine ⟨H', l', _, _, by rw [call, hb]; rfl, ?_, hl, hw⟩
      rw [onSeq, if_pos hp, throughNode_cut hpl, behindNode_cut hpl, length_insertAfter hb,
        List.append_assoc]
      rfl
  | eraseAfter p =>
      refine h.at_node p (fun hp ls w r hes hpl => ?_) fun hp => by rw [onSeq, if_neg hp]
      subst hes
      rw [onSeq, if_pos hp, throughNode_cut hpl, behindNode_cut hpl]
      cases r with
      | nil =>
          refine ⟨H, l, .iter none, _, call_eraseAfter_last h, ?_, h, Reworks.refl H _⟩
          rw [List.tail_nil, List.append_nil]
          rfl
      | cons x r =>
          obtain ⟨H', l', hb, hl, hw⟩ := eraseAfter_spec h
          refine ⟨H', l', _, _, by rw [call, hb]; rfl, ?_, hl, hw⟩
          rw [length_eraseAfter hb, List.tail_cons, firstOr_eq_head?, Option.or_none,
            List.append_assoc]
          rfl
  | clear =>
      obtain ⟨H', hb, hw⟩ := clearNodes_spec h
      exact .inl ⟨trivial, H', _, _, _, by rw [call, hb]; rfl,
        by rw [onSeq, length_clearNodes hb], isList_none H', hw⟩
  | front =>
      cases es with
      | nil => exact .inr ⟨fun hc => hpos.mp hc rfl, rfl⟩
      | cons x es =>
          refine .inl ⟨hpos.mpr (by simp), H, l, .elem x.2, _, ?_, rfl, h, Reworks.refl H _⟩
          have hx := h.chain.1
          rw [call, h.head_eq]
          simp only [firstOr, Option.bind_eq_bind, Option.bind_some, hx, link]
  | deref p =>
      refine h.at_node p (fun hp ls w r hes hpl => ?_) fun hp => by
        rw [onSeq, fromNode_of_not_mem hp]
        rfl
      subst hes
      refine ⟨H, l, .elem w, _, by rw [call, h.at]; rfl, ?_, h, Reworks.refl H _⟩
      rw [onSeq, fromNode_cut hpl]
      rfl
  | assign p v =>
      refine h.at_node p (fun hp ls w r hes hpl => ?_) fun hp => by rw [onSeq, if_neg hp]
      subst hes
      obtain ⟨H', hu, hl, hw⟩ := assign_spec v h
      refine ⟨H', l, _, _, by rw [call, hu]; rfl, ?_, hl, hw⟩
      rw [onSeq, if_pos hp, beforeNode_cut hpl, behindNode_cut hpl, length_updateNode hu]
  | incr p =>
      refine h.at_node p (fun hp ls w r hes hpl => ?_) fun hp => by rw [onSeq, if_neg hp]
      subst hes
      refine ⟨H, l, _, _, by rw [call, h.at]; rfl, ?_, h, Reworks.refl H _⟩
      rw [onSeq, if_pos hp, behindNode_cut hpl, firstOr_eq_head?, Option.or_none]

end

end Ycetl.Ref.ForwardList
