import Ycetl.Ref.LinkedList

/-!
# The nodes of a `list`

`IsList` is the shape of a list: its nodes are linked both ways in the order
of its elements, no node comes twice, and the header holds the two ends and
their number. Every member function takes a list to a list. `link_after` and
`unlink` are where nodes are joined and cut, and the rest is these two with a
`new` or a `delete` around them; the loop that clears is a walk over one such
chain.

What is proved of a function is always the same four things: that it has a
result, what the elements are afterwards, that no other node has changed, and
that of the nodes it had or made exactly those of the list are alive.
-/

namespace Ycetl.Ref.LinkedList

open Ycetl.Lib

variable {T : Type} {H H' : Heap T} {l o : Header} {es fs : List (Nat × T)}

def link (b : Option Nat) (v : T) (e : Option Nat) : Node T := ⟨v, b, e⟩

/-- The list with these nodes and values. -/
structure IsList (H : Heap T) (l : Header) (es : List (Nat × T)) : Prop where
  chain : Chain link H none es none
  nodup : (nodesOf es).Nodup
  head_eq : l.head = firstOr es none
  tail_eq : l.tail = lastOr es none
  size_eq : l.size = es.length

theorem isList_none (H : Heap T) : IsList H Header.none [] :=
  ⟨trivial, List.nodup_nil, rfl, rfl, rfl⟩

/-- A list depends on its own nodes only. -/
theorem IsList.congr (h : IsList H l es)
    (hkeep : ∀ p ∈ nodesOf es, record? H' p = record? H p) : IsList H' l es :=
  ⟨h.chain.congr hkeep, h.nodup, h.head_eq, h.tail_eq, h.size_eq⟩

theorem IsList.length_le (h : IsList H l es) : es.length ≤ H.length :=
  h.chain.length_le h.nodup

/-! ## What is read -/

theorem IsList.nodes_eq (h : IsList H l es) : nodes H l = nodesOf es := by
  rw [nodes, h.head_eq]
  exact h.chain.nodesFrom Node.next (fun _ _ _ => rfl) h.length_le

/-- An iteration reads the elements in order. -/
theorem IsList.iterate_eq (h : IsList H l es) : iterate H l = es.map fun x => some x.2 := by
  rw [iterate, h.nodes_eq]
  exact h.chain.values fun _ _ _ => rfl

/-! ## Joining and cutting -/

/-- The node behind a front part. -/
theorem nextOf_lastOr {r : List (Nat × T)} (h : Chain link H none es (firstOr r none))
    (hhead : l.head = firstOr (es ++ r) none) :
    nextOf H l (lastOr es none) = some (firstOr r none) := by
  rcases List.eq_nil_or_concat es with rfl | ⟨es, ⟨p, v⟩, rfl⟩
  · rw [lastOr_nil, nextOf, hhead, List.nil_append]
  · rw [List.concat_eq_append] at h ⊢
    obtain ⟨-, hp, -⟩ := chain_append.mp h
    rw [lastOr_concat, nextOf, hp]
    rfl

/-- The node before a back part. -/
theorem prevOf_firstOr {r : List (Nat × T)} (h : Chain link H (lastOr es none) r none)
    (htail : l.tail = lastOr (es ++ r) none) :
    prevOf H l (firstOr r none) = some (lastOr es none) := by
  cases r with
  | nil => rw [firstOr_nil, prevOf, htail, List.append_nil]
  | cons x r =>
      rw [firstOr_cons, prevOf, h.1]
      rfl

theorem linkAfter_spec {r : List (Nat × T)} {n : Node T} {f : Nat}
    (hl : Chain link H none es (firstOr r none))
    (hr : Chain link H (lastOr es none) r none) (hnd : (nodesOf (es ++ (f, n.value) :: r)).Nodup)
    (hf : record? H f = some n) (hhead : l.head = firstOr (es ++ r) none)
    (htail : l.tail = lastOr (es ++ r) none) :
    ∃ H' l', linkAfter H l (lastOr es none) f = some (H', l') ∧ H'.length = H.length ∧
      KeepsOutside H (cellsOf (es ++ (f, n.value) :: r)) H' ∧
      Chain link H' none (es ++ (f, n.value) :: r) none ∧
      l'.head = firstOr (es ++ (f, n.value) :: r) none ∧
      l'.tail = lastOr (es ++ (f, n.value) :: r) none ∧ l'.size = l.size := by
  rw [nodesOf_append, nodesOf_cons] at hnd
  obtain ⟨hndl, hnd', hdis⟩ := List.nodup_append.mp hnd
  obtain ⟨hfr, hndr⟩ := List.nodup_cons.mp hnd'
  have hfl : f ∉ nodesOf es := fun hmem => hdis f hmem f (by simp) rfl
  have hlr : ∀ p ∈ nodesOf r, p ∉ nodesOf es := fun p hp hmem =>
    hdis p hmem p (List.mem_cons_of_mem _ hp) rfl
  -- The fresh node gets its two links.
  obtain ⟨H₁, hu₁, hk₁, hlen₁, hf₁⟩ := updateNode_spec hf fun n =>
    (n.setPrev (lastOr es none)).setNext (firstOr r none)
  have hl₁ := hl.keepOther hk₁ hfl
  have hr₁ := hr.keepOther hk₁ hfr
  -- The part before it ends in it.
  obtain ⟨H₂, hu₂, hk₂, hlen₂, hl₂⟩ := hl₁.relinkLast hndl (some f)
    (Node.setNext (some f)) fun _ _ => rfl
  have hr₂ := hr₁.keep hk₂ hlr
  have hf₂ := (hk₂.record_eq f (lt_of_record? hf₁) hfl).trans hf₁
  -- The part behind it starts from it.
  obtain ⟨H₃, hu₃, hk₃, hlen₃, hr₃⟩ := hr₂.relinkFirst hndr (some f)
    (Node.setPrev (some f)) fun _ _ => rfl
  have hl₃ := hl₂.keep hk₃ fun p hp hpr => hlr p hpr hp
  have hf₃ := (hk₃.record_eq f (lt_of_record? hf₂) hfr).trans hf₂
  refine ⟨H₃, ⟨firstOr (es ++ (f, n.value) :: r) none, lastOr (es ++ (f, n.value) :: r) none,
    l.size⟩, ?_, by omega, ?_, ?_, rfl, rfl, rfl⟩
  · have hfst := firstOr_splice es ((f, n.value) :: r) r
    have hlst := lastOr_splice (es ++ [(f, n.value)]) es r
    rw [lastOr_concat, ← List.append_cons] at hlst
    rw [linkAfter]
    simp only [Option.bind_eq_bind, nextOf_lastOr hl hhead, Option.bind_some, hu₁, hu₂, hu₃,
      hhead, htail]
    rw [← hfst, ← hlst]
    rfl
  · have hin : ∀ p, p ∈ nodesOf es ∨ p = f ∨ p ∈ nodesOf r →
        p ∈ cellsOf (es ++ (f, n.value) :: r) := fun p hp => by simpa using hp
    refine ((hk₁.mono fun p hp => hin p ?_).trans_same (hk₂.mono fun p hp => hin p ?_)).trans_same
      (hk₃.mono fun p hp => hin p ?_)
    · exact Or.inr (Or.inl (Set.mem_singleton_iff.mp hp))
    · exact Or.inl hp
    · exact Or.inr (Or.inr hp)
  · exact chain_append.mpr ⟨hl₃, hf₃, hr₃⟩

theorem unlink_spec {r : List (Nat × T)} {p : Nat} {v : T} (h : IsList H l (es ++ (p, v) :: r)) :
    ∃ H' l', unlink H l p = some (H', l') ∧ H'.length = H.length ∧
      KeepsOutside H (cellsOf (es ++ (p, v) :: r)) H' ∧ (record? H' p).isSome ∧
      Chain link H' none (es ++ r) none ∧ l'.head = firstOr (es ++ r) none ∧
      l'.tail = lastOr (es ++ r) none ∧ l'.size = l.size := by
  have hnd := h.nodup
  rw [nodesOf_append, nodesOf_cons] at hnd
  obtain ⟨hndl, hnd', hdis⟩ := List.nodup_append.mp hnd
  obtain ⟨hpr, hndr⟩ := List.nodup_cons.mp hnd'
  have hpl : p ∉ nodesOf es := fun hmem => hdis p hmem p (by simp) rfl
  have hlr : ∀ q ∈ nodesOf r, q ∉ nodesOf es := fun q hq hmem =>
    hdis q hmem q (List.mem_cons_of_mem _ hq) rfl
  obtain ⟨hl, hp, hr⟩ := chain_append.mp h.chain
  -- The part before the node ends behind it.
  obtain ⟨H₁, hu₁, hk₁, hlen₁, hl₁⟩ := hl.relinkLast hndl (firstOr r none)
    (Node.setNext (firstOr r none)) fun _ _ => rfl
  have hr₁ := hr.keep hk₁ hlr
  have hp₁ := (hk₁.record_eq p (lt_of_record? hp) hpl).trans hp
  -- The part behind it starts before it.
  obtain ⟨H₂, hu₂, hk₂, hlen₂, hr₂⟩ := hr₁.relinkFirst hndr (lastOr es none)
    (Node.setPrev (lastOr es none)) fun _ _ => rfl
  have hl₂ := hl₁.keep hk₂ fun q hq hqr => hlr q hqr hq
  have hp₂ := (hk₂.record_eq p (lt_of_record? hp₁) hpr).trans hp₁
  refine ⟨H₂, ⟨firstOr (es ++ r) none, lastOr (es ++ r) none, l.size⟩, ?_, by omega, ?_, ?_,
    chain_append.mpr ⟨hl₂, hr₂⟩, rfl, rfl, rfl⟩
  · have hfst := firstOr_splice es r ((p, v) :: r)
    have hlst := lastOr_splice es (es ++ [(p, v)]) r
    rw [← List.append_cons] at hlst
    rw [unlink]
    simp only [Option.bind_eq_bind, hp, hp₁, link, Option.bind_some, hu₁, hu₂, h.head_eq,
      h.tail_eq, hfst, hlst]
  · refine (hk₁.mono fun q hq => ?_).trans_same (hk₂.mono fun q hq => ?_)
    · rw [mem_cellsOf] at hq ⊢
      simp [hq]
    · rw [mem_cellsOf] at hq ⊢
      simp [hq]
  · rw [hp₂]
    rfl

/-! ## One function at a time -/

theorem remove_spec {r : List (Nat × T)} {p : Nat} {v : T} (h : IsList H l (es ++ (p, v) :: r)) :
    ∃ H' l', remove H l p = some (H', l') ∧ IsList H' l' (es ++ r) ∧
      Reworks H (es ++ (p, v) :: r) H' (es ++ r) := by
  obtain ⟨H₁, l₁, hu, hlen, hk, halive, hc, hhead, htail, hsize⟩ := unlink_spec h
  obtain ⟨n, hn⟩ := Option.isSome_iff_exists.mp halive
  have hp := lt_of_record? hn
  have hnd := nodup_middle.mp h.nodup
  have hdead := set_keeps hp none
  refine ⟨H₁.set p none, { l₁ with size := l₁.size - 1 }, ?_,
    ⟨hc.keepOther hdead hnd.1, hnd.2, hhead, htail, ?_⟩, Reworks.erase ?_ ?_ ?_⟩
  · rw [remove]
    simp only [Option.bind_eq_bind, hu, Option.bind_some, deleteNode, hn, Option.map_some]
  · show l₁.size - 1 = (es ++ r).length
    rw [hsize, h.size_eq, List.length_append, List.length_append, List.length_cons]
    omega
  · refine hk.trans_same (hdead.mono fun q hq => ?_)
    rw [Set.mem_singleton_iff.mp hq]
    simp
  · rw [List.length_set, hlen]
  · rw [record?_set hp, if_pos rfl]

theorem emplaceBack_spec (h : IsList H l es) (v : T) :
    ∃ H' l', emplaceBack H l v = some (H', l') ∧ IsList H' l' (es ++ [(H.length, v)]) ∧
      Reworks H es H' (es ++ [(H.length, v)]) := by
  obtain ⟨H₁, H₂, hnew, hu, hc, hnd, hw⟩ := h.chain.pushBack h.nodup v
    (Node.setNext (some H.length)) fun _ _ => rfl
  refine ⟨H₂, ⟨firstOr (es ++ [(H.length, v)]) none, some H.length, l.size + 1⟩, ?_,
    ⟨hc, hnd, rfl, (lastOr_concat ..).symm, ?_⟩, hw⟩
  · have hfst := firstOr_splice es [(H.length, v)] []
    rw [List.append_nil, firstOr_cons] at hfst
    have hnew' : newNode H ⟨v, lastOr es none, none⟩ = (H₁, H.length) := hnew
    rw [emplaceBack, h.tail_eq, hnew']
    simp only [Option.bind_eq_bind, hu, Option.bind_some, h.head_eq, hfst]
  · rw [List.length_append, h.size_eq]
    rfl

theorem emplaceFront_spec (h : IsList H l es) (v : T) :
    ∃ H' l', emplaceFront H l v = some (H', l') ∧ IsList H' l' ((H.length, v) :: es) ∧
      Reworks H es H' ((H.length, v) :: es) := by
  obtain ⟨H₁, hnew, hlen₁, hk₁, hc₁, hfresh, hf₁⟩ := h.chain.newNode ⟨v, none, l.head⟩
  obtain ⟨H₂, hu, hk₂, hlen₂, hc₂⟩ := hc₁.relinkFirst h.nodup (some H.length)
    (Node.setPrev (some H.length)) fun _ _ => rfl
  have hf₂ := (hk₂.record_eq _ (lt_of_record? hf₁) hfresh).trans hf₁
  rw [h.head_eq] at hf₂
  refine ⟨H₂, ⟨some H.length, lastOr ((H.length, v) :: es) none, l.size + 1⟩, ?_,
    ⟨⟨hf₂, hc₂⟩, List.nodup_cons.mpr ⟨hfresh, h.nodup⟩, rfl, rfl, ?_⟩, ?_⟩
  · have hlst := lastOr_splice [(H.length, v)] [] es
    rw [emplaceFront, hnew]
    simp only [Option.bind_eq_bind, h.head_eq, hu, Option.bind_some, h.tail_eq]
    rw [← List.singleton_append, ← hlst]
    rfl
  · rw [List.length_cons, h.size_eq]
  · exact Reworks.insert (l := []) ((hk₁.mono (Set.empty_subset _)).trans_same hk₂) (by omega)

theorem insert_spec {r : List (Nat × T)} (h : IsList H l (es ++ r)) (v : T) :
    ∃ H' l', insert H l (firstOr r none) v = some (H', l', H.length) ∧
      IsList H' l' (es ++ (H.length, v) :: r) ∧
      Reworks H (es ++ r) H' (es ++ (H.length, v) :: r) := by
  obtain ⟨H₁, hnew, hlen₁, hk₁, hc₁, hfresh, hf₁⟩ := h.chain.newNode ⟨v, none, none⟩
  obtain ⟨hl₁, hr₁⟩ := chain_append.mp hc₁
  have hnd : (nodesOf (es ++ (H.length, v) :: r)).Nodup :=
    nodup_middle.mpr ⟨hfresh, h.nodup⟩
  obtain ⟨H₂, l₂, hlink, hlen₂, hk₂, hc₂, hhead, htail, hsize⟩ :=
    linkAfter_spec hl₁ hr₁ hnd hf₁ h.head_eq h.tail_eq
  refine ⟨H₂, { l₂ with size := l₂.size + 1 }, ?_, ⟨hc₂, hnd, hhead, htail, ?_⟩,
    Reworks.insert ?_ (by omega)⟩
  · rw [insert, prevOf_firstOr (chain_append.mp h.chain).2 h.tail_eq]
    simp only [Option.bind_eq_bind, Option.bind_some, hnew, hlink]
  · show l₂.size + 1 = _
    rw [hsize, h.size_eq, List.length_append, List.length_append, List.length_cons]
    omega
  · refine (hk₁.mono (Set.empty_subset _)).trans hk₂ fun p hp => ?_
    simp only [mem_cellsOf, nodesOf_append, nodesOf_cons, List.mem_append,
      List.mem_cons] at hp ⊢
    rcases hp with hp | hp | hp
    · exact Or.inl (Or.inl hp)
    · exact Or.inr (Nat.le_of_eq hp.symm)
    · exact Or.inl (Or.inr hp)

theorem popBack_spec {p : Nat} {v : T} (h : IsList H l (es ++ [(p, v)])) :
    ∃ H' l', popBack H l = some (H', l') ∧ IsList H' l' es ∧
      Reworks H (es ++ [(p, v)]) H' es := by
  obtain ⟨H', l', hr, hl, hw⟩ := remove_spec h
  rw [List.append_nil] at hl hw
  refine ⟨H', l', ?_, hl, hw⟩
  rw [popBack, h.tail_eq, lastOr_concat]
  exact hr

theorem popFront_spec {p : Nat} {v : T} (h : IsList H l ((p, v) :: es)) :
    ∃ H' l', popFront H l = some (H', l') ∧ IsList H' l' es ∧
      Reworks H ((p, v) :: es) H' es := by
  have hcut : IsList H l ([] ++ (p, v) :: es) := h
  obtain ⟨H', l', hr, hl, hw⟩ := remove_spec hcut
  refine ⟨H', l', ?_, hl, hw⟩
  rw [popFront, h.head_eq, firstOr_cons]
  exact hr

theorem erase_spec {r : List (Nat × T)} {p : Nat} {v : T}
    (h : IsList H l (es ++ (p, v) :: r)) :
    ∃ H' l', erase H l p = some (H', l', firstOr r none) ∧ IsList H' l' (es ++ r) ∧
      Reworks H (es ++ (p, v) :: r) H' (es ++ r) := by
  obtain ⟨H', l', hr, hl, hw⟩ := remove_spec h
  obtain ⟨-, hp, -⟩ := chain_append.mp h.chain
  refine ⟨H', l', ?_, hl, hw⟩
  rw [erase]
  simp only [Option.bind_eq_bind, hp, Option.bind_some, hr, link]

theorem assign_spec {r : List (Nat × T)} {p : Nat} {v : T} (v' : T)
    (h : IsList H l (es ++ (p, v) :: r)) :
    ∃ H', updateNode H p (Node.setValue v') = some H' ∧
      IsList H' l (es ++ (p, v') :: r) ∧
      Reworks H (es ++ (p, v) :: r) H' (es ++ (p, v') :: r) := by
  obtain ⟨H', hu, hc, hnd, hw⟩ := h.chain.write h.nodup v' (Node.setValue v') fun _ _ => rfl
  refine ⟨H', hu, ⟨hc, hnd, ?_, ?_, ?_⟩, hw⟩
  · rw [h.head_eq, firstOr_append, firstOr_append]
    rfl
  · rw [h.tail_eq, lastOr_append, lastOr_append]
    rfl
  · rw [h.size_eq, List.length_append, List.length_append]
    rfl

theorem clearNodes_spec (h : IsList H l es) :
    ∃ H', clearNodes H l = some (H', Header.none) ∧ Reworks H es H' [] := by
  obtain ⟨H', hd, hw⟩ := h.chain.deleteAll Node.next (fun _ _ _ => rfl) h.nodup
  refine ⟨H', ?_, hw⟩
  rw [clearNodes, h.head_eq, hd]
  rfl

end Ycetl.Ref.LinkedList
