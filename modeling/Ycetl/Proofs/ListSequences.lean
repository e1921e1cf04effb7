import Ycetl.Proofs.MovedLists

/-!
# Lists are sequences

A program over `list`s does what the program over sequences does. Both walks
along a list pass the nodes of its sequence, one in each direction; the live
nodes are those of the sequences, each of one; and a node that was deleted
stays deleted, because only new nodes get new numbers.

An element ends with the call that erases, pops, clears or overwrites it, and
with its list. Any other step, also a move of its list, leaves it in its node
with its value.
-/

namespace Ycetl.Ref.LinkedList

open Ycetl.Lib

variable {T : Type}

/-! ## What an element lives through -/

/-- The calls that erase, pop, clear or overwrite the element in node `p`. -/
def Call.Ends (es : List (Nat × T)) (p : Nat) : Call T → Prop
  | .popBack => (nodesOf es).getLast? = some p
  | .popFront => (nodesOf es).head? = some p
  | .erase q | .assign q _ => q = p
  | .clear => True
  | _ => False

theorem mem_before_or_from {es : List (Nat × T)} {x : Nat × T} (hx : x ∈ es) (p : Nat) :
    x ∈ beforeNode p es ∨ x ∈ fromNode p es := by
  rw [← List.mem_append, beforeNode, fromNode, List.takeWhile_append_dropWhile]
  exact hx

/-- What is cut out at a node is that node. -/
theorem mem_before_or_behind {es : List (Nat × T)} {x : Nat × T} (hx : x ∈ es) {p : Nat}
    (hp : p ≠ x.1) : x ∈ beforeNode p es ∨ x ∈ behindNode p es := by
  refine (mem_before_or_from hx p).imp_right fun hfrom => ?_
  rw [behindNode]
  cases hf : fromNode p es with
  | nil =>
      rw [hf] at hfrom
      exact absurd hfrom List.not_mem_nil
  | cons y r =>
      have hy : y.1 = p := by
        have hhead := List.head?_dropWhile_not (fun x : Nat × T => decide (x.1 ≠ p)) es
        rw [← fromNode, hf] at hhead
        simpa using hhead
      rw [hf, List.mem_cons] at hfrom
      rw [List.tail_cons]
      refine hfrom.resolve_left fun he => hp ?_
      rw [he, hy]

theorem onSeq_spares {made made' : Nat} {es es' : List (Nat × T)} {c : Call T} {out : ListOut T}
    (h : onSeq made es c = some (made', es', out)) {x : Nat × T} (hx : x ∈ es)
    (hend : ¬ Call.Ends es x.1 c) : x ∈ es' := by
  cases c with
  | emplaceBack v =>
      simp only [onSeq, Option.some.injEq, Prod.mk.injEq] at h
      rw [← h.2.1]
      exact List.mem_append_left _ hx
  | emplaceFront v =>
      simp only [onSeq, Option.some.injEq, Prod.mk.injEq] at h
      rw [← h.2.1]
      exact List.mem_cons_of_mem _ hx
  | popBack =>
      rcases List.eq_nil_or_concat es with rfl | ⟨ls, y, rfl⟩
      · exact absurd hx List.not_mem_nil
      · rw [List.concat_eq_append] at h hx hend
        rw [onSeq, if_neg (by simp), List.dropLast_concat] at h
        simp only [Option.some.injEq, Prod.mk.injEq] at h
        rw [List.mem_append, List.mem_singleton] at hx
        rw [← h.2.1]
        refine hx.resolve_right fun he => hend ?_
        rw [Call.Ends, nodesOf_append, he]
        exact List.getLast?_concat
  | popFront =>
      cases es with
      | nil => exact absurd hx List.not_mem_nil
      | cons y es =>
          rw [onSeq, if_neg (by simp), List.tail_cons] at h
          simp only [Option.some.injEq, Prod.mk.injEq] at h
          rw [List.mem_cons] at hx
          rw [← h.2.1]
          refine hx.resolve_left fun he => hend ?_
          rw [Call.Ends, he]
          rfl
  | insert pos v =>
      cases pos with
      | none =>
          simp only [onSeq, Option.some.injEq, Prod.mk.injEq] at h
          rw [← h.2.1]
          exact List.mem_append_left _ hx
      | some p =>
          rw [onSeq] at h
          split at h
          · simp only [Option.some.injEq, Prod.mk.injEq] at h
            rw [← h.2.1, List.mem_append, List.mem_cons]
            exact (mem_before_or_from hx p).imp_right .inr
          · cases h
  | erase p =>
      rw [onSeq] at h
      split at h
      · simp only [Option.some.injEq, Prod.mk.injEq] at h
        rw [← h.2.1, List.mem_append]
        exact mem_before_or_behind hx hend
      · cases h
  | clear => exact absurd trivial hend
  | front =>
      obtain ⟨y, -, hy⟩ := Option.map_eq_some_iff.mp h
      simp only [Prod.mk.injEq] at hy
      exact hy.2.1 ▸ hx
  | back =>
      obtain ⟨y, -, hy⟩ := Option.map_eq_some_iff.mp h
      simp only [Prod.mk.injEq] at hy
      exact hy.2.1 ▸ hx
  | deref p =>
      obtain ⟨y, -, hy⟩ := Option.map_eq_some_iff.mp h
      simp only [Prod.mk.injEq] at hy
      exact hy.2.1 ▸ hx
  | assign p v =>
      rw [onSeq] at h
      split at h
      · simp only [Option.some.injEq, Prod.mk.injEq] at h
        rw [← h.2.1, List.mem_append, List.mem_cons]
        exact (mem_before_or_behind hx hend).imp_right .inr
      · cases h
  | incr p =>
      rw [onSeq] at h
      split at h
      · simp only [Option.some.injEq, Prod.mk.injEq] at h
        exact h.2.1 ▸ hx
      · cases h
  | decr pos =>
      cases pos with
      | none =>
          rw [onSeq] at h
          split at h
          · cases h
          · simp only [Option.some.injEq, Prod.mk.injEq] at h
            exact h.2.1 ▸ hx
      | some p =>
          rw [onSeq] at h
          split at h
          · simp only [Option.some.injEq, Prod.mk.injEq] at h
            exact h.2.1 ▸ hx
          · cases h

/-! ## What is shown -/

/-- What a list shows of its sequence: the size, both walks, the two ends, the
value in each node, and what an iteration reads. -/
structure Shown (H : Heap T) (l : Header) (es : List (Nat × T)) : Prop where
  size_eq : l.size = es.length
  nodup : (nodesOf es).Nodup
  alive : ∀ x ∈ es, ∃ n, record? H x.1 = some n ∧ n.value = x.2
  head_eq : l.head = (nodesOf es).head?
  tail_eq : l.tail = (nodesOf es).getLast?
  forward : ∀ fuel, l.size ≤ fuel → nodesFrom Node.next H fuel l.head = nodesOf es
  backward : ∀ fuel, l.size ≤ fuel →
    nodesFrom Node.prev H fuel l.tail = (nodesOf es).reverse
  before_end : prevOf H l none = some (nodesOf es).getLast?
  iterate_eq : iterate H l = es.map fun x => some x.2

theorem IsList.shown {H : Heap T} {l : Header} {es : List (Nat × T)} (h : IsList H l es) :
    Shown H l es where
  size_eq := h.size_eq
  nodup := h.nodup
  alive := by
    intro x hx
    obtain ⟨ls, r, rfl⟩ := List.append_of_mem hx
    exact ⟨_, (chain_append.mp h.chain).2.1, rfl⟩
  head_eq := by rw [h.head_eq, firstOr_eq_head?, Option.or_none]
  tail_eq := by rw [h.tail_eq, lastOr_eq_getLast?, Option.or_none]
  forward := by
    intro fuel hfuel
    rw [h.head_eq]
    exact h.chain.nodesFrom Node.next (fun _ _ _ => rfl) (h.size_eq ▸ hfuel)
  backward := by
    intro fuel hfuel
    have hlen : es.reverse.length ≤ fuel := by
      rw [List.length_reverse, ← h.size_eq]
      exact hfuel
    have hback := h.chain.reverse.nodesFrom Node.prev (fun _ _ _ => rfl) hlen
    have hlast : l.tail = firstOr es.reverse none := by
      rw [h.tail_eq, lastOr_eq_getLast?, firstOr_eq_head?, nodesOf, nodesOf, List.map_reverse,
        List.head?_reverse]
    rw [hlast, hback, nodesOf, nodesOf, List.map_reverse]
  before_end := by rw [prevOf, h.tail_eq, lastOr_eq_getLast?, Option.or_none]
  iterate_eq := h.iterate_eq

/-- What a program over lists shows of its sequences: each list its own, and of
the nodes made so far the alive ones are those of the sequences, each of one. -/
structure Account (w : Movable.World (lists T)) (v : Movable.SeqWorld (lists T)) : Prop where
  shown : ∀ i, (w.objs i = none ∧ v.seqs i = none) ∨
    ∃ l es, w.objs i = some l ∧ v.seqs i = some es ∧ Shown w.heap l es
  made_eq : v.made = (w.heap : Heap T).length
  alive_iff : ∀ p, (record? (w.heap : Heap T) p).isSome ↔
    ∃ i es, v.seqs i = some es ∧ p ∈ nodesOf es
  one_owner : ∀ i j es fs p, v.seqs i = some es → v.seqs j = some fs → p ∈ nodesOf es →
    p ∈ nodesOf fs → i = j

/-- A program over lists whose lists hold the sequences. -/
def Keeps (w : Movable.World (lists T)) (v : Movable.SeqWorld (lists T)) : Prop :=
  Movable.Holds (M := lists T) id (IsList (T := T)) w v

theorem Keeps.account {w : Movable.World (lists T)} {v : Movable.SeqWorld (lists T)}
    (h : Keeps w v) : Account w v where
  shown := by
    intro i
    rcases h.rep i with hnone | ⟨l, es, hl, hes, hlist⟩
    · exact .inl hnone
    · exact .inr ⟨l, es, hl, hes, IsList.shown hlist⟩
  made_eq := h.made_eq
  alive_iff := Movable.Holds.alive_iff (lists_refine T) h
  one_owner _ _ _ _ _ := h.one_owner

theorem lists_refine_sequences {T : Type} :
    -- every program over lists does what the program over sequences does
    (∀ steps : List (Movable.Step (lists T)), Agree Account
      (answersFrom Movable.World.answer (Movable.World.initial (lists T)) steps)
      (answersFrom (Movable.SeqWorld.step (seqOps T)) Movable.SeqWorld.initial steps)) ∧
    -- a node that was deleted stays deleted
    (∀ (steps more : List (Movable.Step (lists T))) (w w' : Movable.World (lists T))
      (outs outs' : List (Option (ListOut T))),
      answersFrom Movable.World.answer (Movable.World.initial (lists T)) steps = some (w, outs) →
      answersFrom Movable.World.answer w more = some (w', outs') →
      StayDead (w.heap : Heap T) w'.heap) ∧
    -- where every list is destroyed, every node is deleted
    (∀ (steps : List (Movable.Step (lists T))) (w : Movable.World (lists T))
      (outs : List (Option (ListOut T))),
      answersFrom Movable.World.answer (Movable.World.initial (lists T)) steps = some (w, outs) →
      (∀ i, w.objs i = none) → ∀ p, record? (w.heap : Heap T) p = none) ∧
    -- and an element that a step does not end keeps its node and its value
    (∀ (steps : List (Movable.Step (lists T))) (w w' : Movable.World (lists T))
      (v : Movable.SeqWorld (lists T)) (outs : List (Option (ListOut T)))
      (s : Movable.Step (lists T)) (out : Option (ListOut T)),
      answersFrom Movable.World.answer (Movable.World.initial (lists T)) steps = some (w, outs) →
      answersFrom (Movable.SeqWorld.step (seqOps T)) Movable.SeqWorld.initial steps =
        some (v, outs) →
      w.answer s = some (w', out) → ∀ i es x, v.seqs i = some es → x ∈ es →
      ¬ s.Ends (Call.Ends es x.1) i →
        ∃ n, record? (w'.heap : Heap T) x.1 = some n ∧ n.value = x.2) := by
  have hr := lists_refine T
  refine ⟨fun steps => ?_, fun steps more w w' outs outs' hrun hmore => ?_,
    fun steps w outs hrun hall => ?_,
    fun steps w w' v outs s out hrun hv hs i es x hi hx hend => ?_⟩
  · exact (hr.answersFrom_holds hr.holds_initial steps).mono fun _ _ h => Keeps.account h
  · obtain ⟨v, -, hkeeps⟩ := hr.reached hrun
    exact hr.answersFrom_stayDead hkeeps hmore
  · obtain ⟨v, -, hkeeps⟩ := hr.reached hrun
    exact hkeeps.all_deleted hall
  · obtain ⟨v₀, hv₀, hkeeps⟩ := hr.reached hrun
    cases hv.symm.trans hv₀
    have hstep := hr.answer_agree hkeeps s
    rw [hs] at hstep
    obtain ⟨v', hv', hafter⟩ := hstep.of_some_left
    have hcall : ∀ {made c r}, (seqOps T).call made es c = some r →
        ¬ Call.Ends es x.1 c → x ∈ r.2.1 := fun hc hend => onSeq_spares hc hx hend
    obtain ⟨k, fs, hfs, hxf⟩ := Movable.SeqWorld.step_spares hcall hv' hi hx hend
    rcases hafter.1.rep k with ⟨-, hnone⟩ | ⟨l, gs, -, hgs, hlist⟩
    · rw [hfs] at hnone
      cases hnone
    · rw [hfs, Option.some.injEq] at hgs
      exact (IsList.shown hlist).alive x (hgs ▸ hxf)

/-- A list whose second element is inserted before the first, destroyed. -/
theorem lists_leave_no_node :
    ∀ p, record? ([none, none] : Heap Nat) p = none :=
  lists_refine_sequences.2.2.1
    [.construct 0 [1], .call 0 (.insert (some 0) 2), .destroy 0]
    ⟨[none, none], Function.update (Function.update (Function.update (fun _ => none)
      0 (some ⟨some 0, some 0, 1⟩)) 0 (some ⟨some 1, some 0, 2⟩)) 0 none⟩
    [none, some (.iter (some 1)), none] rfl fun i => by
      by_cases hi : i = 0
      · rw [hi]
        rfl
      · simp only [Function.update_of_ne hi]

end Ycetl.Ref.LinkedList
