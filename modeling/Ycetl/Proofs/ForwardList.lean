import Ycetl.Ref.LinkedList

/-!
# The nodes of a `forward_list`

A list with one link per node has no way back, so what is done to it is done
behind a node: the link of that node is exchanged, and the rest of the chain
does not change. Of the three ways a list is built from elements, two keep a
pointer to the last node, in a variable or by walking to it, and one goes
through the elements from the back and needs none.
-/

namespace Ycetl.Ref.ForwardList

open Ycetl.Lib

variable {T : Type} {H H' : Heap T} {l o : Header} {es fs : List (Nat × T)}

/-- A node knows nothing of the one before it. -/
def link (_ : Option Nat) (v : T) (e : Option Nat) : Node T := ⟨v, e⟩

/-- The list with these nodes and values. -/
structure IsList (H : Heap T) (l : Header) (es : List (Nat × T)) : Prop where
  chain : Chain link H none es none
  nodup : (nodesOf es).Nodup
  head_eq : l.head = firstOr es none
  size_eq : l.size = es.length

theorem isList_none (H : Heap T) : IsList H Header.none [] :=
  ⟨trivial, List.nodup_nil, rfl, rfl⟩

/-- A list depends on its own nodes only. -/
theorem IsList.congr (h : IsList H l es)
    (hkeep : ∀ p ∈ nodesOf es, record? H' p = record? H p) : IsList H' l es :=
  ⟨h.chain.congr hkeep, h.nodup, h.head_eq, h.size_eq⟩

theorem IsList.length_le (h : IsList H l es) : es.length ≤ H.length :=
  h.chain.length_le h.nodup

/-! ## What is read -/

theorem IsList.nodes_eq (h : IsList H l es) : nodes H l = nodesOf es := by
  rw [nodes, h.head_eq]
  exact h.chain.nodesFrom Node.next (fun _ _ _ => rfl) h.length_le

/-- An iteration reads the elements in order. -/
theorem IsList.iterate_eq (h : IsList H l es) : iterate H l = es.map fun x => some x.2 := by
  rw [iterate, h.nodes_eq]
  exact h.chain.values fun _ _ _ => rfl

/-- Where a chain starts from is not written in it. -/
theorem Chain.anyStart {b b' e : Option Nat} (h : Chain link H b es e) :
    Chain link H b' es e := by
  cases es with
  | nil => trivial
  | cons x es => exact h

/-! ## One function at a time -/

theorem emplaceFront_spec (h : IsList H l es) (v : T) :
    IsList (emplaceFront H l v).1 (emplaceFront H l v).2 ((H.length, v) :: es) ∧
      Reworks H es (emplaceFront H l v).1 ((H.length, v) :: es) := by
  obtain ⟨H₁, hnew, hlen, hk, hc, hfresh, hf⟩ := h.chain.newNode ⟨v, l.head⟩
  rw [h.head_eq] at hf
  rw [emplaceFront, hnew]
  refine ⟨⟨⟨hf, Chain.anyStart hc⟩, List.nodup_cons.mpr ⟨hfresh, h.nodup⟩, rfl, ?_⟩,
    Reworks.insert (l := []) (hk.mono (Set.empty_subset _)) hlen⟩
  show l.size + 1 = _
  rw [h.size_eq, List.length_cons]

theorem popFront_spec {p : Nat} {v : T} (h : IsList H l ((p, v) :: es)) :
    ∃ H' l', popFront H l = some (H', l') ∧ IsList H' l' es ∧
      Reworks H ((p, v) :: es) H' es := by
  have hp := lt_of_record? h.chain.1
  have hk := set_keeps hp none
  obtain ⟨hpe, hnd⟩ := List.nodup_cons.mp h.nodup
  refine ⟨H.set p none, ⟨firstOr es none, l.size - 1⟩, ?_,
    ⟨Chain.anyStart (h.chain.2.keepOther hk hpe), hnd, rfl, ?_⟩,
    Reworks.erase (l := []) (hk.mono ?_) List.length_set ?_⟩
  · rw [popFront, h.head_eq]
    simp only [firstOr_cons, Option.bind_eq_bind, Option.bind_some, h.chain.1, deleteNode,
      Option.map_some, link]
  · show l.size - 1 = _
    rw [h.size_eq, List.length_cons, Nat.add_sub_cancel]
  · intro q hq
    simp [Set.mem_singleton_iff.mp hq]
  · rw [record?_set hp, if_pos rfl]

/-- A node and what is behind it. -/
theorem IsList.at {r : List (Nat × T)} {p : Nat} {v : T} (h : IsList H l (es ++ (p, v) :: r)) :
    record? H p = some ⟨v, firstOr r none⟩ :=
  (chain_append.mp h.chain).2.1

/-- The chain up to a node, and the one behind it. -/
theorem IsList.cut {r : List (Nat × T)} {p : Nat} {v : T} (h : IsList H l (es ++ (p, v) :: r)) :
    Chain link H none (es ++ [(p, v)]) (firstOr r none) ∧ Chain link H none r none ∧
      (nodesOf (es ++ [(p, v)])).Nodup ∧ (nodesOf r).Nodup ∧
      ∀ q ∈ nodesOf r, q ∉ nodesOf (es ++ [(p, v)]) := by
  have hc := h.chain
  have hnd := h.nodup
  rw [List.append_cons] at hc hnd
  rw [nodesOf_append] at hnd
  obtain ⟨hl, hr⟩ := chain_append.mp hc
  obtain ⟨hndl, hndr, hdis⟩ := List.nodup_append.mp hnd
  exact ⟨hl, Chain.anyStart hr, hndl, hndr, fun q hq hmem => hdis q hmem q hq rfl⟩

/-- What is behind a node is exchanged for a chain that is linked already. -/
theorem relinkAfter {r : List (Nat × T)} {p : Nat} {v : T} {e : Option Nat}
    (hl : Chain link H none (es ++ [(p, v)]) e) (hnd : (nodesOf (es ++ [(p, v)])).Nodup)
    (hr : Chain link H none r none) (hdis : ∀ q ∈ nodesOf r, q ∉ nodesOf (es ++ [(p, v)])) :
    ∃ H', updateNode H p (Node.setNext (firstOr r none)) = some H' ∧
      H'.length = H.length ∧ KeepsOutside H (cellsOf (es ++ [(p, v)])) H' ∧
      Chain link H' none (es ++ (p, v) :: r) none := by
  obtain ⟨H', hu, hk, hlen, hl'⟩ := hl.relinkLast hnd (firstOr r none)
    (Node.setNext (firstOr r none)) fun _ _ => rfl
  rw [lastOr_concat] at hu
  refine ⟨H', hu, hlen, hk, ?_⟩
  rw [List.append_cons]
  exact chain_append.mpr ⟨hl', Chain.anyStart (hr.keep hk hdis)⟩

theorem insertAfter_spec {r : List (Nat × T)} {p : Nat} {v : T}
    (h : IsList H l (es ++ (p, v) :: r)) (w : T) :
    ∃ H' l', insertAfter H l p w = some (H', l', H.length) ∧
      IsList H' l' (es ++ (p, v) :: (H.length, w) :: r) ∧
      Reworks H (es ++ (p, v) :: r) H' (es ++ (p, v) :: (H.length, w) :: r) := by
  obtain ⟨H₁, hnew, hlen₁, hk₁, hc₁, hfresh, hf₁⟩ := h.chain.newNode ⟨w, firstOr r none⟩
  have h₁ : IsList H₁ l (es ++ (p, v) :: r) := ⟨hc₁, h.nodup, h.head_eq, h.size_eq⟩
  obtain ⟨hl, hr, hndl, hndr, hdis⟩ := h₁.cut
  have hfl : H.length ∉ nodesOf (es ++ [(p, v)]) ∧ H.length ∉ nodesOf r := by
    rw [List.append_cons, nodesOf_append, List.mem_append, not_or] at hfresh
    exact hfresh
  have hr' : Chain link H₁ none ((H.length, w) :: r) none := ⟨hf₁, Chain.anyStart hr⟩
  have hdis' : ∀ q ∈ nodesOf ((H.length, w) :: r), q ∉ nodesOf (es ++ [(p, v)]) := by
    intro q hq
    rw [nodesOf_cons, List.mem_cons] at hq
    rcases hq with rfl | hq
    · exact hfl.1
    · exact hdis q hq
  obtain ⟨H₂, hu, hlen₂, hk₂, hc₂⟩ := relinkAfter hl hndl hr' hdis'
  have hkeep : KeepsOutside H (cellsOf (es ++ [(p, v)] ++ r)) H₂ :=
    (hk₁.mono (Set.empty_subset _)).trans_same (hk₂.mono (cellsOf_subset_left _ r))
  refine ⟨H₂, ⟨l.head, l.size + 1⟩, ?_, ⟨hc₂, ?_, ?_, ?_⟩, ?_⟩
  · rw [insertAfter]
    simp only [Option.bind_eq_bind, h.at, Option.bind_some, hnew]
    rw [← firstOr_cons H.length w r none, hu]
    rfl
  · rw [List.append_cons, nodup_middle, ← List.append_cons]
    exact ⟨hfresh, h.nodup⟩
  · rw [h.head_eq, firstOr_append, firstOr_append]
    rfl
  · rw [h.size_eq, List.length_append, List.length_append]
    rfl
  · rw [List.append_cons es _ r, List.append_cons es _ ((H.length, w) :: r)]
    exact Reworks.insert hkeep (by omega)

theorem eraseAfter_spec {r : List (Nat × T)} {p d : Nat} {v w : T}
    (h : IsList H l (es ++ (p, v) :: (d, w) :: r)) :
    ∃ H' l', eraseAfter H l p = some (H', l', firstOr r none) ∧
      IsList H' l' (es ++ (p, v) :: r) ∧
      Reworks H (es ++ (p, v) :: (d, w) :: r) H' (es ++ (p, v) :: r) := by
  obtain ⟨hl, hr, hndl, hndr, hdis⟩ := h.cut
  obtain ⟨hd, hr⟩ := hr
  have hdl : d ∉ nodesOf (es ++ [(p, v)]) := hdis d (by simp)
  obtain ⟨hdr, -⟩ := List.nodup_cons.mp hndr
  obtain ⟨H₁, hu, hlen₁, hk₁, hc₁⟩ := relinkAfter hl hndl (Chain.anyStart hr)
    fun q hq => hdis q (List.mem_cons_of_mem _ hq)
  have hd₁ := (hk₁.record_eq d (lt_of_record? hd) hdl).trans hd
  have hlt := lt_of_record? hd₁
  have hk₂ := set_keeps hlt none
  have hnd := h.nodup
  rw [List.append_cons, nodup_middle, ← List.append_cons] at hnd
  have hc₂ := hc₁.keepOther hk₂ hnd.1
  have hat := (chain_append.mp hc₂).2.1
  refine ⟨H₁.set d none, ⟨l.head, l.size - 1⟩, ?_, ⟨hc₂, hnd.2, ?_, ?_⟩, ?_⟩
  · rw [eraseAfter]
    simp only [Option.bind_eq_bind, h.at, firstOr_cons, Option.bind_some, hd, link, hu,
      deleteNode, hd₁, Option.map_some, hat]
  · rw [h.head_eq, firstOr_append, firstOr_append]
    rfl
  · show l.size - 1 = _
    rw [h.size_eq, List.length_append, List.length_append]
    simp
  · rw [List.append_cons es _ r, List.append_cons es _ ((d, w) :: r)]
    refine Reworks.erase ((hk₁.mono (cellsOf_subset_left _ _)).trans_same (hk₂.mono ?_))
      (by rw [List.length_set, hlen₁]) (by rw [record?_set hlt, if_pos rfl])
    intro q hq
    rw [Set.mem_singleton_iff.mp hq]
    simp

/-- Behind the last element there is nothing to erase. -/
theorem eraseAfter_last {p : Nat} {v : T} (h : IsList H l (es ++ [(p, v)])) :
    eraseAfter H l p = some (H, l, none) := by
  rw [eraseAfter]
  simp only [Option.bind_eq_bind, h.at, firstOr_nil, Option.bind_some]

theorem assign_spec {r : List (Nat × T)} {p : Nat} {v : T} (v' : T)
    (h : IsList H l (es ++ (p, v) :: r)) :
    ∃ H', updateNode H p (Node.setValue v') = some H' ∧
      IsList H' l (es ++ (p, v') :: r) ∧
      Reworks H (es ++ (p, v) :: r) H' (es ++ (p, v') :: r) := by
  obtain ⟨H', hu, hc, hnd, hw⟩ := h.chain.write h.nodup v' (Node.setValue v') fun _ _ => rfl
  refine ⟨H', hu, ⟨hc, hnd, ?_, ?_⟩, hw⟩
  · rw [h.head_eq, firstOr_append, firstOr_append]
    rfl
  · rw [h.size_eq, List.length_append, List.length_append]
    rfl

theorem clearNodes_spec (h : IsList H l es) :
    ∃ H', clearNodes H l = some (H', Header.none) ∧ Reworks H es H' [] := by
  obtain ⟨H', hd, hw⟩ := h.chain.deleteAll Node.next (fun _ _ _ => rfl) h.nodup
  refine ⟨H', ?_, hw⟩
  rw [clearNodes, h.head_eq, hd]
  rfl

/-! ## Behind the last node -/

/-- The walk ends at the last node. -/
theorem lastNode_spec {b : Option Nat} {p : Nat} {v : T}
    (h : Chain link H b ((p, v) :: es) none) {fuel : Nat} (hfuel : es.length < fuel) :
    lastNode H fuel p = lastOr es (some p) := by
  induction es generalizing b p v fuel with
  | nil =>
      cases fuel with
      | zero => exact absurd hfuel (Nat.not_lt_zero _)
      | succ fuel =>
          rw [lastNode, h.1]
          rfl
  | cons x es ih =>
      obtain ⟨q, w⟩ := x
      cases fuel with
      | zero => exact absurd hfuel (Nat.not_lt_zero _)
      | succ fuel =>
          rw [lastNode, h.1]
          exact ih h.2 (Nat.lt_of_succ_lt_succ hfuel)

theorem pushBackInternal_spec (h : IsList H l es) (v : T) :
    ∃ H' l', pushBackInternal H l v = some (H', l') ∧
      IsList H' l' (es ++ [(H.length, v)]) ∧ Reworks H es H' (es ++ [(H.length, v)]) := by
  obtain ⟨H₁, H₂, hnew, hu, hc, hnd, hw⟩ := h.chain.pushBack h.nodup v
    (Node.setNext (some H.length)) fun _ _ => rfl
  refine ⟨H₂, ⟨firstOr (es ++ [(H.length, v)]) none, l.size + 1⟩, ?_,
    ⟨hc, hnd, rfl, ?_⟩, hw⟩
  · have hnew' : newNode H ⟨v, none⟩ = (H₁, H.length) := hnew
    cases es with
    | nil =>
        rw [lastOr_nil, updateIf, Option.some.injEq] at hu
        rw [pushBackInternal, h.head_eq]
        simp only [firstOr_nil, hnew', hu]
        rfl
    | cons x es =>
        obtain ⟨p, w⟩ := x
        have hlast := lastNode_spec h.chain (Nat.lt_of_succ_le h.length_le)
        obtain ⟨q, hq⟩ := Option.isSome_iff_exists.mp (isSome_lastOr es p)
        rw [lastOr, hq, updateIf] at hu
        rw [pushBackInternal, h.head_eq]
        simp only [firstOr_cons, Option.bind_eq_bind, hlast, hq, Option.bind_some, hnew', hu]
        rfl
  · rw [List.length_append, h.size_eq]
    rfl

/-- What the copy constructor has made so far, with the node made last. -/
def IsCopy (H : Heap T) (s : Header × Option Nat) (es : List (Nat × T)) : Prop :=
  IsList H s.1 es ∧ s.2 = lastOr es none

theorem copyNode_spec {s : Header × Option Nat} (h : IsCopy H s es) (b : Option Nat) (v : T)
    (e : Option Nat) :
    ∃ H' s', copyNode H s (link b v e) = some (H', s') ∧
      IsCopy H' s' (es ++ [(H.length, v)]) ∧ Reworks H es H' (es ++ [(H.length, v)]) := by
  obtain ⟨hl, ht⟩ := h
  obtain ⟨H₁, H₂, hnew, hu, hc, hnd, hw⟩ := hl.chain.pushBack hl.nodup v
    (Node.setNext (some H.length)) fun _ _ => rfl
  have hnew' : newNode H ⟨v, none⟩ = (H₁, H.length) := hnew
  refine ⟨H₂, (⟨firstOr (es ++ [(H.length, v)]) none, s.1.size + 1⟩, some H.length), ?_,
    ⟨⟨hc, hnd, rfl, ?_⟩, (lastOr_concat ..).symm⟩, hw⟩
  · have hfst := firstOr_splice es [(H.length, v)] []
    rw [List.append_nil, firstOr_cons] at hfst
    rw [copyNode]
    simp only [Option.bind_eq_bind, link, hnew', ht, hu, Option.bind_some, hl.head_eq, hfst]
  · rw [List.length_append, hl.size_eq]
    rfl

end Ycetl.Ref.ForwardList
