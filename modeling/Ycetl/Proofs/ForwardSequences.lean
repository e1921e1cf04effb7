import Ycetl.Proofs.MovedLists

/-!
# Forward lists are sequences

A program over `forward_list`s does what the program over sequences does. The
walk along `next` from the head of a list passes the nodes of its sequence, as
many as the list counts; the live nodes are those of the sequences, each of
one; and a node that was deleted stays deleted.

A list with the elements of another one is built by the initializer-list
constructor, the copy constructor or the copy assignment. Their loops are not
the same, and the lists they leave differ in the nodes only: the values are
those of the source, which keeps its nodes to itself.
-/

namespace Ycetl.Ref.ForwardList

open Ycetl.Lib

variable {T : Type}

/-! ## What is shown -/

/-- What a list shows of its sequence: the size, the walk from the head, the
value in each node, and what an iteration reads. -/
structure Shown (H : Heap T) (l : Header) (es : List (Nat × T)) : Prop where
  size_eq : l.size = es.length
  nodup : (nodesOf es).Nodup
  alive : ∀ x ∈ es, ∃ n, record? H x.1 = some n ∧ n.value = x.2
  head_eq : l.head = (nodesOf es).head?
  forward : ∀ fuel, l.size ≤ fuel → nodesFrom Node.next H fuel l.head = nodesOf es
  iterate_eq : iterate H l = es.map fun x => some x.2

theorem IsList.shown {H : Heap T} {l : Header} {es : List (Nat × T)} (h : IsList H l es) :
    Shown H l es where
  size_eq := h.size_eq
  nodup := h.nodup
  alive := by
    intro x hx
    obtain ⟨ls, r, rfl⟩ := List.append_of_mem hx
    exact ⟨_, h.at, rfl⟩
  head_eq := by rw [h.head_eq, firstOr_eq_head?, Option.or_none]
  forward := by
    intro fuel hfuel
    rw [h.head_eq]
    exact h.chain.nodesFrom Node.next (fun _ _ _ => rfl) (h.size_eq ▸ hfuel)
  iterate_eq := h.iterate_eq

/-- What a program over lists shows of its sequences: each list its own, and of
the nodes made so far the alive ones are those of the sequences, each of one. -/
structure Account (w : Movable.World (forwardLists T))
    (v : Movable.SeqWorld (forwardLists T)) : Prop where
  shown : ∀ i, (w.objs i = none ∧ v.seqs i = none) ∨
    ∃ l es, w.objs i = some l ∧ v.seqs i = some es ∧ Shown w.heap l es
  made_eq : v.made = (w.heap : Heap T).length
  alive_iff : ∀ p, (record? (w.heap : Heap T) p).isSome ↔
    ∃ i es, v.seqs i = some es ∧ p ∈ nodesOf es
  one_owner : ∀ i j es fs p, v.seqs i = some es → v.seqs j = some fs → p ∈ nodesOf es →
    p ∈ nodesOf fs → i = j

/-- A program over lists whose lists hold the sequences. -/
def Keeps (w : Movable.World (forwardLists T)) (v : Movable.SeqWorld (forwardLists T)) : Prop :=
  Movable.Holds (M := forwardLists T) id (IsList (T := T)) w v

section

variable {w : Movable.World (forwardLists T)} {v : Movable.SeqWorld (forwardLists T)}

theorem Keeps.account (h : Keeps w v) : Account w v where
  shown := by
    intro i
    rcases h.rep i with hnone | ⟨l, es, hl, hes, hlist⟩
    · exact .inl hnone
    · exact .inr ⟨l, es, hl, hes, IsList.shown hlist⟩
  made_eq := h.made_eq
  alive_iff := Movable.Holds.alive_iff (forwardLists_refine T) h
  one_owner _ _ _ _ _ := h.one_owner

/-! ## Copies -/

/-- List `k` has the values of the elements `fs` of list `j`, in other nodes. -/
def Copied (w : Movable.World (forwardLists T)) (k j : Nat) (fs : List (Nat × T)) : Prop :=
  ∃ l o gs, w.objs k = some l ∧ w.objs j = some o ∧ Shown (w.heap : Heap T) l gs ∧
    Shown (w.heap : Heap T) o fs ∧ gs.map Prod.snd = fs.map Prod.snd ∧
    ∀ p ∈ nodesOf gs, p ∉ nodesOf fs

theorem Keeps.copied (h : Keeps w v) {j k : Nat} (hjk : j ≠ k) {fs gs : List (Nat × T)}
    (hj : v.seqs j = some fs) (hk : v.seqs k = some gs)
    (hval : gs.map Prod.snd = fs.map Prod.snd) : Copied w k j fs := by
  rcases h.account.shown j with ⟨-, hnone⟩ | ⟨o, fs', ho, hfs', hshownj⟩
  · rw [hj] at hnone
    cases hnone
  · rcases h.account.shown k with ⟨-, hnone⟩ | ⟨l, gs', hl, hgs', hshownk⟩
    · rw [hk] at hnone
      cases hnone
    · cases hj.symm.trans hfs'
      cases hk.symm.trans hgs'
      exact ⟨l, o, gs, hl, ho, hshownk, hshownj, hval, h.apart k j gs fs hjk.symm hk hj⟩

/-- A step that gives list `k` new elements with the values of list `j` makes a
copy of it. -/
theorem Keeps.step_copies (h : Keeps w v) {j k : Nat} (hjk : j ≠ k) {fs gs : List (Nat × T)}
    (hj : v.seqs j = some fs) (hval : gs.map Prod.snd = fs.map Prod.snd)
    {s : Movable.Step (forwardLists T)}
    (hs : Movable.SeqWorld.step (seqOps T) v s = some (v.make k gs, none)) :
    ∃ w', w.answer s = some (w', none) ∧ Copied w' k j fs := by
  have hagree := (forwardLists_refine T).answer_agree h s
  rw [hs] at hagree
  obtain ⟨w', hw', hkeeps, -⟩ := hagree.of_some_right
  have hk : (v.make k gs).seqs k = some gs := Function.update_self ..
  have hj' : (v.make k gs).seqs j = some fs := (Function.update_of_ne hjk ..).trans hj
  exact ⟨w', hw', Keeps.copied hkeeps hjk hj' hk hval⟩

/-- The three ways to make a copy do. -/
theorem Keeps.copies (h : Keeps w v) {j k : Nat} (hjk : j ≠ k) {fs : List (Nat × T)}
    (hj : v.seqs j = some fs) :
    (w.objs k = none →
      (∃ w', w.answer (.construct k (fs.map Prod.snd)) = some (w', none) ∧ Copied w' k j fs) ∧
      ∃ w', w.answer (.copyConstruct k j) = some (w', none) ∧ Copied w' k j fs) ∧
    (w.objs k ≠ none →
      ∃ w', w.answer (.copyAssign k j) = some (w', none) ∧ Copied w' k j fs) := by
  rcases h.rep k with ⟨hobj, hk⟩ | ⟨l, es, hobj, hk, -⟩
  · refine ⟨fun _ => ⟨?_, ?_⟩, fun hne => absurd hobj hne⟩
    · refine h.step_copies hjk hj (fromBack_snd v.made _) ?_
      simp only [Movable.SeqWorld.step, hk]
      rfl
    · refine h.step_copies hjk hj (LinkedList.numbered_snd v.made _) ?_
      simp only [Movable.SeqWorld.step, hk, hj]
      rfl
  · refine ⟨fun hnone => ?_, fun _ => ?_⟩
    · rw [hobj] at hnone
      cases hnone
    · refine h.step_copies hjk hj (LinkedList.numbered_snd v.made _) ?_
      simp only [Movable.SeqWorld.step, hk, hj, if_neg hjk.symm]
      rfl

/-- Erasing behind the last element does nothing and returns `end()`. -/
theorem Keeps.eraseAfter_last (h : Keeps w v) {i p : Nat} {x : T} {es : List (Nat × T)}
    (hi : v.seqs i = some (es ++ [(p, x)])) :
    w.answer (.call i (.eraseAfter p)) = some (w, some (.iter none)) := by
  rcases h.rep i with ⟨-, hnone⟩ | ⟨l, es', hl, hes', hlist⟩
  · rw [hi] at hnone
    cases hnone
  · cases hi.symm.trans hes'
    have hlegal : (Call.eraseAfter p : Call T).Legal (w.heap : Heap T) l := by
      show p ∈ nodes (w.heap : Heap T) l
      rw [IsList.nodes_eq hlist]
      simp
    have hcall : (forwardLists T).call w.heap l (.eraseAfter p) = some (w.heap, l, .iter none) :=
      (if_pos hlegal).trans (call_eraseAfter_last hlist)
    have hsame : w.put i (w.heap, l) = w := by
      rw [Movable.World.put, ← hl, Function.update_eq_self]
    simp only [Movable.World.answer, hl, hcall, Option.map_some, hsame]

end

/-! ## Programs -/

theorem forward_lists_refine_sequences {T : Type} :
    -- every program over lists does what the program over sequences does
    (∀ steps : List (Movable.Step (forwardLists T)), Agree Account
      (answersFrom Movable.World.answer (Movable.World.initial (forwardLists T)) steps)
      (answersFrom (Movable.SeqWorld.step (seqOps T)) Movable.SeqWorld.initial steps)) ∧
    -- a node that was deleted stays deleted
    (∀ (steps more : List (Movable.Step (forwardLists T)))
      (w w' : Movable.World (forwardLists T)) (outs outs' : List (Option (ListOut T))),
      answersFrom Movable.World.answer (Movable.World.initial (forwardLists T)) steps =
        some (w, outs) →
      answersFrom Movable.World.answer w more = some (w', outs') →
      StayDead (w.heap : Heap T) w'.heap) ∧
    -- where every list is destroyed, every node is deleted
    (∀ (steps : List (Movable.Step (forwardLists T))) (w : Movable.World (forwardLists T))
      (outs : List (Option (ListOut T))),
      answersFrom Movable.World.answer (Movable.World.initial (forwardLists T)) steps =
        some (w, outs) →
      (∀ i, w.objs i = none) → ∀ p, record? (w.heap : Heap T) p = none) ∧
    -- and in every state that is reached
    ∀ (steps : List (Movable.Step (forwardLists T))) (w : Movable.World (forwardLists T))
      (v : Movable.SeqWorld (forwardLists T)) (outs : List (Option (ListOut T))),
      answersFrom Movable.World.answer (Movable.World.initial (forwardLists T)) steps =
        some (w, outs) →
      answersFrom (Movable.SeqWorld.step (seqOps T)) Movable.SeqWorld.initial steps =
        some (v, outs) →
      -- erasing behind the last element does nothing and returns `end()`
      (∀ (i p : Nat) (x : T) (es : List (Nat × T)), v.seqs i = some (es ++ [(p, x)]) →
        w.answer (.call i (.eraseAfter p)) = some (w, some (.iter none))) ∧
      -- and each of the three ways to copy a list makes a copy of it
      ∀ (j k : Nat) (fs : List (Nat × T)), j ≠ k → v.seqs j = some fs →
        (w.objs k = none →
          (∃ w', w.answer (.construct k (fs.map Prod.snd)) = some (w', none) ∧
            Copied w' k j fs) ∧
          ∃ w', w.answer (.copyConstruct k j) = some (w', none) ∧ Copied w' k j fs) ∧
        (w.objs k ≠ none →
          ∃ w', w.answer (.copyAssign k j) = some (w', none) ∧ Copied w' k j fs) := by
  have hr := forwardLists_refine T
  refine ⟨fun steps => ?_, fun steps more w w' outs outs' hrun hmore => ?_,
    fun steps w outs hrun hall => ?_, fun steps w v outs hrun hseq => ?_⟩
  · exact (hr.answersFrom_holds hr.holds_initial steps).mono fun _ _ h => Keeps.account h
  · obtain ⟨v, -, hkeeps⟩ := hr.reached hrun
    exact hr.answersFrom_stayDead hkeeps hmore
  · obtain ⟨v, -, hkeeps⟩ := hr.reached hrun
    exact hkeeps.all_deleted hall
  · obtain ⟨v', hseq', hkeeps⟩ := hr.reached hrun
    cases hseq.symm.trans hseq'
    exact ⟨fun _ _ _ _ hi => Keeps.eraseAfter_last hkeeps hi,
      fun _ _ _ hjk hj => Keeps.copies hkeeps hjk hj⟩

/-- A list of two elements is copied, loses the second one, and both lists are
destroyed. -/
theorem forward_lists_leave_no_node :
    ∀ p, record? ([none, none, none, none] : Heap Nat) p = none :=
  forward_lists_refine_sequences.2.2.1
    [.construct 0 [1, 2], .copyConstruct 1 0, .call 0 (.eraseAfter 1), .destroy 0, .destroy 1]
    ⟨[none, none, none, none],
      Function.update (Function.update (Function.update (Function.update (Function.update
        (fun _ => none) 0 (some ⟨some 1, 2⟩)) 1 (some ⟨some 2, 2⟩)) 0 (some ⟨some 1, 1⟩))
        0 none) 1 none⟩
    [none, none, some (.iter none), none, none] rfl fun i => by
      by_cases hi : i = 1
      · rw [hi]
        rfl
      · by_cases h0 : i = 0
        · rw [h0]
          rfl
        · simp only [Function.update_of_ne hi, Function.update_of_ne h0]

end Ycetl.Ref.ForwardList
