import Ycetl.Proofs.SharedHeap

/-!
# The two counts of a control block

Free-standing handles: the nodes have no fields, so what a release does is
bounded. `Tallied s k` says of a heap that it is the one in which number `c`
has `s c` owners and `k c` observers: the counters there are, what each of them
counts, which objects are alive, and what was deleted and freed. Each operation
on handles is a change of `s` or of `k` at one number, or at none.
-/

namespace Ycetl.Ref.Shared.Heap

open Ycetl.Lib

variable {s k s' k' : Nat → Nat} {H H' : Heap ControlBlock} {h v : Handle} {b : ControlBlock}
  {c d i n fuel : Nat}

/-- The control block of a number of owners and observers. The owners share one
weak reference. -/
def block (s k : Nat) : Option ControlBlock :=
  if s = 0 ∧ k = 0 then none else some ⟨s, if s = 0 then k else k + 1⟩

/-- A node without fields, alive while it has an owner. -/
def nodeOf (s : Nat) : Node := ⟨if s = 0 then .dead else .alive, []⟩

structure Tallied (s k : Nat → Nat) (H : Heap ControlBlock) : Prop where
  length_eq : H.nodes.length = H.counters.length
  counter_eq : ∀ c, H.counter? c = block (s c) (k c)
  node_eq : ∀ n x, H.nodes[n]? = some x → x = nodeOf (s n)
  deleted_eq : ∀ n, H.deleted.count n = if n < H.nodes.length ∧ s n = 0 then 1 else 0
  freed_eq : ∀ c, H.freed.count c = if c < H.nodes.length ∧ s c = 0 ∧ k c = 0 then 1 else 0

/-- Numbers are not taken back, and neither is what was recorded. -/
structure Grows (H H' : Heap ControlBlock) : Prop where
  length_le : H.nodes.length ≤ H'.nodes.length
  deleted : H.deleted <+: H'.deleted
  freed : H.freed <+: H'.freed

theorem Grows.refl (H : Heap ControlBlock) : Grows H H :=
  ⟨Nat.le_refl _, List.prefix_refl _, List.prefix_refl _⟩

theorem Grows.of_eq (hn : H'.nodes.length = H.nodes.length) (hd : H'.deleted = H.deleted)
    (hf : H'.freed = H.freed) : Grows H H' :=
  ⟨Nat.le_of_eq hn.symm, hd ▸ List.prefix_refl _, hf ▸ List.prefix_refl _⟩

theorem Grows.trans {H₁ : Heap ControlBlock} (h : Grows H H₁) (h' : Grows H₁ H') : Grows H H' :=
  ⟨Nat.le_trans h.length_le h'.length_le, h.deleted.trans h'.deleted, h.freed.trans h'.freed⟩

theorem block_eq_none {s k : Nat} : block s k = none ↔ s = 0 ∧ k = 0 := by
  rw [block]
  split
  · next h => exact iff_of_true rfl h
  · next h => exact iff_of_false (fun he => by cases he) h

theorem block_pos {s : Nat} (hs : 0 < s) (k : Nat) : block s k = some ⟨s, k + 1⟩ := by
  rw [block, if_neg (by omega), if_neg (by omega)]

theorem block_zero {k : Nat} (hk : 0 < k) : block 0 k = some ⟨0, k⟩ := by
  rw [block, if_neg (by omega), if_pos rfl]

/-- A number that is held has its control block. -/
theorem Tallied.lt (ht : Tallied s k H) (hc : 0 < s c ∨ 0 < k c) : c < H.nodes.length := by
  have hsome : H.counter? c ≠ none := by
    rw [ht.counter_eq, Ne, block_eq_none]
    omega
  obtain ⟨b, hb⟩ := Option.ne_none_iff_exists'.mp hsome
  rw [ht.length_eq]
  exact lt_of_record? hb

/-- The counts of one number change, and the heap with them. -/
theorem Tallied.update (ht : Tallied s k H) (hlt : c < H.nodes.length)
    (hs : ∀ d, c ≠ d → s' d = s d) (hk : ∀ d, c ≠ d → k' d = k d)
    (hnodes : H'.nodes = H.nodes.set c (nodeOf (s' c)))
    (hcounters : H'.counters = H.counters.set c (block (s' c) (k' c)))
    (hdeleted : ∀ d, H'.deleted.count d =
      if c = d then (if s' c = 0 then 1 else 0) else H.deleted.count d)
    (hfreed : ∀ d, H'.freed.count d =
      if c = d then (if s' c = 0 ∧ k' c = 0 then 1 else 0) else H.freed.count d) :
    Tallied s' k' H' := by
  have hlen : H'.nodes.length = H.nodes.length := by rw [hnodes, List.length_set]
  have hclt : c < H.counters.length := ht.length_eq ▸ hlt
  refine ⟨?_, fun d => ?_, fun n x hx => ?_, fun d => ?_, fun d => ?_⟩
  · rw [hlen, hcounters, List.length_set, ht.length_eq]
  · rw [counter?, hcounters, record?_set hclt]
    split
    · next hcd => rw [hcd]
    · next hcd => rw [hs d hcd, hk d hcd, ← ht.counter_eq d, counter?]
  · rw [hnodes, List.getElem?_set, if_pos hlt] at hx
    split at hx
    · next hcn =>
        rw [Option.some.injEq] at hx
        rw [← hx, hcn]
    · next hcn =>
        rw [hs n hcn]
        exact ht.node_eq n x hx
  · rw [hdeleted, hlen]
    split
    · next hcd =>
        subst hcd
        simp only [hlt, true_and]
    · next hcd => rw [hs d hcd, ht.deleted_eq]
  · rw [hfreed, hlen]
    split
    · next hcd =>
        subst hcd
        simp only [hlt, true_and]
    · next hcd => rw [hs d hcd, hk d hcd, ht.freed_eq]

/-- What a number that is held has not had. -/
theorem Tallied.held (ht : Tallied s k H) (hc : 0 < s c ∨ 0 < k c) :
    H.nodes[c]? = some (nodeOf (s c)) ∧ H.freed.count c = 0 ∧
      H.deleted.count c = if s c = 0 then 1 else 0 := by
  have hlt := ht.lt hc
  refine ⟨?_, ?_, ?_⟩
  · rw [List.getElem?_eq_getElem hlt, ht.node_eq c _ (List.getElem?_eq_getElem hlt)]
  · rw [ht.freed_eq, if_neg (by omega)]
  · rw [ht.deleted_eq]
    simp only [hlt, true_and]

/-- A count changes, and the object does not. -/
theorem Tallied.setCounter (ht : Tallied s k H) (hc : 0 < s c ∨ 0 < k c)
    (hs : ∀ d, c ≠ d → s' d = s d) (hk : ∀ d, c ≠ d → k' d = k d)
    (hb : block (s' c) (k' c) = some b) (hzero : s' c = 0 ↔ s c = 0) :
    Tallied s' k' (H.setCounter c b) := by
  obtain ⟨hnode, hfreed, hdeleted⟩ := ht.held hc
  have hnz : ¬ (s' c = 0 ∧ k' c = 0) := by
    rw [← block_eq_none, hb]
    exact fun he => by cases he
  have hsame : nodeOf (s' c) = nodeOf (s c) := by simp only [nodeOf, hzero]
  refine ht.update (ht.lt hc) hs hk ?_ (by rw [hb]; rfl) (fun d => ?_) (fun d => ?_)
  · obtain ⟨hlt, hget⟩ := List.getElem?_eq_some_iff.mp hnode
    rw [hsame, ← hget, List.set_getElem_self]
    rfl
  · show H.deleted.count d = _
    split
    · next hcd =>
        rw [← hcd, hdeleted]
        simp only [hzero]
    · rfl
  · show H.freed.count d = _
    rw [if_neg hnz]
    split
    · next hcd => rw [← hcd, hfreed]
    · rfl

theorem grows_putCounter (o : Option ControlBlock) : Grows H (H.putCounter c o) := by
  cases o with
  | none => exact ⟨Nat.le_refl _, List.prefix_refl _, List.prefix_append _ _⟩
  | some b => exact .of_eq rfl rfl rfl

/-! ## Owners -/

/-- `++ref_count_`. -/
theorem Tallied.acquire (ht : Tallied s k H) (hpos : ∀ c, h.counter = some c → 0 < s c) :
    ∃ H', H.acquire sharedCounter h = some H' ∧ Tallied (gain s h.counter) k H' ∧
      H'.handles = H.handles ∧ Grows H H' := by
  cases hc : h.counter with
  | none =>
      refine ⟨H, by rw [Heap.acquire, hc], ?_, rfl, Grows.refl H⟩
      rwa [gain_none]
  | some c =>
      have hs := hpos c hc
      have hcounter : H.counter? c = some ⟨s c, k c + 1⟩ := by
        rw [ht.counter_eq, block_pos hs]
      refine ⟨H.setCounter c ⟨s c + 1, k c + 1⟩, ?_, ?_, rfl, .of_eq rfl rfl rfl⟩
      · simp only [Heap.acquire, hc, hcounter, Option.bind_eq_bind, Option.bind_some]
        rfl
      · refine ht.setCounter (.inl hs) (fun d hd => gain_of_ne s hd) (fun _ _ => rfl) ?_ ?_
        · rw [gain_self, block_pos (Nat.succ_pos _)]
        · rw [gain_self]
          omega

/-- `shared_ptr(new T)`. -/
theorem Tallied.make (ht : Tallied s k H) :
    Tallied (gain s (some H.nodes.length)) k
      { H with
        nodes := H.nodes ++ [⟨.alive, []⟩]
        counters := H.counters ++ [some ⟨1, 1⟩] } := by
  have hno : ∀ n, H.nodes.length ≤ n → s n = 0 ∧ k n = 0 := by
    intro n hn
    rw [← block_eq_none, ← ht.counter_eq]
    exact record?_of_length_le (ht.length_eq ▸ hn)
  obtain ⟨hs₀, hk₀⟩ := hno _ (Nat.le_refl _)
  have hself : gain s (some H.nodes.length) H.nodes.length = 1 := by rw [gain_self, hs₀]
  have hother : ∀ d, H.nodes.length ≠ d → gain s (some H.nodes.length) d = s d := fun d hd =>
    gain_of_ne s hd
  have hlen : (H.nodes ++ [(⟨.alive, []⟩ : Node)]).length = H.nodes.length + 1 :=
    List.length_append
  refine ⟨?_, fun d => ?_, fun n x hx => ?_, fun n => ?_, fun d => ?_⟩
  · rw [List.length_append, List.length_append, ht.length_eq]
    rfl
  · rw [counter?, record?_append, ← ht.length_eq]
    split
    · next hd => rw [hd, hself, hk₀, block_pos Nat.one_pos]
    · next hd => rw [hother d (Ne.symm hd), ← ht.counter_eq d, counter?]
  · rcases Nat.lt_trichotomy n H.nodes.length with hn | hn | hn
    · rw [hother n (Nat.ne_of_gt hn)]
      exact ht.node_eq n x (by rwa [List.getElem?_append_left hn] at hx)
    · subst hn
      rw [List.getElem?_concat_length, Option.some.injEq] at hx
      rw [← hx, hself]
      rfl
    · rw [List.getElem?_eq_none (by rw [hlen]; omega)] at hx
      cases hx
  · rw [ht.deleted_eq, hlen]
    rcases Nat.lt_trichotomy n H.nodes.length with hn | hn | hn
    · rw [hother n (Nat.ne_of_gt hn)]
      simp only [hn, Nat.lt_succ_of_lt hn]
    · subst hn
      rw [hself, if_neg (by omega), if_neg (by omega)]
    · rw [if_neg (by omega), if_neg (by omega)]
  · rw [ht.freed_eq, hlen]
    rcases Nat.lt_trichotomy d H.nodes.length with hn | hn | hn
    · rw [hother d (Nat.ne_of_gt hn)]
      simp only [hn, Nat.lt_succ_of_lt hn]
    · subst hn
      rw [hself, if_neg (by omega), if_neg (by omega)]
    · rw [if_neg (by omega), if_neg (by omega)]

/-- `delete ptr_` of an object that holds no handles. -/
theorem deleteNode_bare (K : Counter ControlBlock) (hn : H.nodes[n]? = some ⟨.alive, []⟩) :
    deleteNode K (fuel + 1) H n = some { H with
      nodes := H.nodes.set n ⟨.dead, []⟩
      deleted := H.deleted ++ [n] } := by
  have hnodes : (H.nodes.modify n fun x => { x with lifetime := .dying }).modify n
      (fun x => { x with lifetime := .dead }) = H.nodes.set n ⟨.dead, []⟩ := by
    have hlt := (List.getElem?_eq_some_iff.mp hn).1
    refine List.ext_getElem? fun m => ?_
    rw [List.getElem?_modify, List.getElem?_modify, List.getElem?_set, if_pos hlt]
    by_cases hnm : n = m
    · subst hnm
      simp [hn]
    · simp [hnm]
  simp only [deleteNode, hn, Option.bind_eq_bind, Option.bind_some, if_pos, List.length_nil,
    destroyFields, setLifetime, hnodes]

theorem count_concat (l : List Nat) (c d : Nat) :
    (l ++ [c]).count d = l.count d + if c = d then 1 else 0 := by
  rw [List.count_append, List.count_singleton]
  simp only [beq_iff_eq]

/-- The object goes with its last owner, and the control block with it when
nobody observes it. -/
theorem Tallied.last (ht : Tallied s k H) (hs : s c = 1) :
    ∃ left, ControlBlock.decWeak ⟨0, k c + 1⟩ = some left ∧
      Tallied (lose s (some c)) k
        ({ H.setCounter c ⟨0, k c + 1⟩ with
          nodes := H.nodes.set c ⟨.dead, []⟩
          deleted := H.deleted ++ [c] }.putCounter c left) := by
  have hpos : 0 < s c := by omega
  obtain ⟨-, hfreed, hdeleted⟩ := ht.held (.inl hpos)
  have hself : lose s (some c) c = 0 := by rw [lose_self, hs]
  have hother : ∀ d, c ≠ d → lose s (some c) d = s d := fun d hd => lose_of_ne s hd
  have hcount : ∀ d, (H.deleted ++ [c]).count d =
      if c = d then (if lose s (some c) c = 0 then 1 else 0) else H.deleted.count d := by
    intro d
    rw [count_concat, hself, if_pos rfl]
    split
    · next hcd => rw [← hcd, hdeleted, if_neg (by omega)]
    · rfl
  have hnode : H.nodes.set c ⟨.dead, []⟩ = H.nodes.set c (nodeOf (lose s (some c) c)) := by
    rw [hself]
    rfl
  by_cases hk : k c = 0
  · refine ⟨none, ?_, ht.update (ht.lt (.inl hpos)) hother (fun _ _ => rfl) hnode ?_ hcount
      fun d => ?_⟩
    · simp only [ControlBlock.decWeak, hk]
      rfl
    · rw [hself, hk]
      exact List.set_set ..
    · refine (count_concat H.freed c d).trans ?_
      rw [hself, hk]
      split
      · next hcd => rw [← hcd, hfreed, if_pos (And.intro rfl rfl)]
      · rfl
  · have hblock : block 0 (k c) = some ⟨0, k c⟩ := block_zero (Nat.pos_of_ne_zero hk)
    refine ⟨some ⟨0, k c⟩, ?_, ht.update (ht.lt (.inl hpos)) hother (fun _ _ => rfl) hnode ?_
      hcount fun d => ?_⟩
    · simp only [ControlBlock.decWeak, Nat.add_sub_cancel, if_neg hk, if_neg (Nat.succ_ne_zero _)]
    · rw [hself, hblock]
      exact List.set_set ..
    · show H.freed.count d = _
      split
      · next hcd => rw [← hcd, hfreed, if_neg fun he => hk he.2]
      · rfl

/-- Handles are not counted by the heap itself. -/
theorem Tallied.withHandles (ht : Tallied s k H) (l : List (Option Handle)) :
    Tallied s k { H with handles := l } :=
  ⟨ht.length_eq, ht.counter_eq, ht.node_eq, ht.deleted_eq, ht.freed_eq⟩

theorem store_handle (hl : H.load (.handle i) = some h) (v : Handle) :
    H.store (.handle i) v = some { H with handles := H.handles.set i (some v) } := by
  rw [load] at hl
  rw [store, hl]
  rfl

/-- `release_strong` of a free-standing handle. -/
theorem Tallied.release (ht : Tallied s k H) (fuel : Nat) (hl : H.load (.handle i) = some h)
    (hptr : h.ptr = h.counter) (hpos : ∀ c, h.counter = some c → 0 < s c) :
    ∃ H' v, H.release sharedCounter (deleteNode sharedCounter (fuel + 1)) (.handle i) = some H' ∧
      v.counter = none ∧ H'.handles = H.handles.set i (some v) ∧
      Tallied (lose s h.counter) k H' ∧ Grows H H' := by
  cases hc : h.counter with
  | none =>
      refine ⟨{ H with handles := H.handles.set i (some { h with counter := none }) },
        { h with counter := none }, ?_, rfl, rfl, ?_, .of_eq rfl rfl rfl⟩
      · simp only [Heap.release, hl, hc, Option.bind_eq_bind, Option.bind_some]
        exact store_handle hl _
      · rw [lose_none]
        exact ht.withHandles _
  | some c =>
      have hs := hpos c hc
      have hcounter : H.counter? c = some ⟨s c, k c + 1⟩ := by
        rw [ht.counter_eq, block_pos hs]
      have hdec : sharedCounter.dec ⟨s c, k c + 1⟩ = some ⟨s c - 1, k c + 1⟩ :=
        if_neg (Nat.ne_of_gt hs)
      have hl₁ : ∀ b, (H.setCounter c b).load (.handle i) = some h := fun _ => hl
      by_cases hone : s c = 1
      · obtain ⟨hnode, -, -⟩ := ht.held (.inl hs)
        rw [hone] at hnode
        obtain ⟨left, hleft, htallied⟩ := ht.last hone
        let H₁ : Heap ControlBlock := { H.setCounter c ⟨0, k c + 1⟩ with
          nodes := H.nodes.set c ⟨.dead, []⟩
          deleted := H.deleted ++ [c] }
        have hdelete : deletePtr (deleteNode sharedCounter (fuel + 1))
            (H.setCounter c ⟨0, k c + 1⟩) h.ptr = some H₁ := by
          rw [hptr, hc]
          exact deleteNode_bare sharedCounter hnode
        have hc₁ : H₁.counter? c = some ⟨0, k c + 1⟩ := by
          show (H.setCounter c ⟨0, k c + 1⟩).counter? c = _
          rw [counter?_setCounter hcounter, if_pos rfl]
        have hl₂ : H₁.load (.handle i) = some h := hl
        have hl₃ : (H₁.putCounter c left).load (.handle i) = some h :=
          (load_putCounter left _).trans hl
        refine ⟨{ H₁.putCounter c left with
          handles := (H₁.putCounter c left).handles.set i (some .null) }, .null, ?_, rfl, ?_,
          htallied.withHandles _, ?_⟩
        · have hzero : s c - 1 = 0 := by omega
          simp only [Heap.release, hl, hc, hcounter, hdec, hzero, Option.bind_eq_bind,
            Option.bind_some]
          rw [if_pos (show sharedCounter.strong ⟨0, k c + 1⟩ = 0 from rfl), releaseLast]
          simp only [hdelete, hl₂, hc, hc₁, Option.bind_eq_bind, Option.bind_some]
          exact Option.bind_eq_some_iff.mpr ⟨left, hleft, store_handle hl₃ _⟩
        · rw [handles_putCounter]
          rfl
        · have hgrow := grows_putCounter (H := H₁) (c := c) left
          exact ⟨Nat.le_trans (Nat.le_of_eq (List.length_set ..).symm) hgrow.length_le,
            (List.prefix_append _ _).trans hgrow.deleted, hgrow.freed⟩
      · have htallied : Tallied (lose s (some c)) k (H.setCounter c ⟨s c - 1, k c + 1⟩) :=
          ht.setCounter (.inl hs) (fun d hd => lose_of_ne s hd) (fun _ _ => rfl)
            (by rw [lose_self, block_pos (by omega)]) (by rw [lose_self]; omega)
        refine ⟨{ H.setCounter c ⟨s c - 1, k c + 1⟩ with
          handles := H.handles.set i (some { h with counter := none }) },
          { h with counter := none }, ?_, rfl, rfl, htallied.withHandles _, .of_eq rfl rfl rfl⟩
        have hstrong : sharedCounter.strong ⟨s c - 1, k c + 1⟩ ≠ 0 := by
          show s c - 1 ≠ 0
          omega
        simp only [Heap.release, hl, hc, hcounter, hdec, Option.bind_eq_bind, Option.bind_some,
          if_neg hstrong]
        exact store_handle (hl₁ _) _

/-! ## Observers -/

/-- `++weak_count_`. -/
theorem Tallied.acquireWeak (ht : Tallied s k H)
    (hpos : ∀ c, h.counter = some c → 0 < s c ∨ 0 < k c) :
    ∃ H', World.acquireWeak H h = some H' ∧ Tallied s (gain k h.counter) H' ∧
      H'.handles = H.handles ∧ Grows H H' := by
  cases hc : h.counter with
  | none =>
      refine ⟨H, by rw [World.acquireWeak, hc], ?_, rfl, Grows.refl H⟩
      rwa [gain_none]
  | some c =>
      have hheld := hpos c hc
      have hne : ¬ (s c = 0 ∧ k c = 0) := by omega
      have hcounter : H.counter? c = some ⟨s c, if s c = 0 then k c else k c + 1⟩ := by
        rw [ht.counter_eq, block, if_neg hne]
      refine ⟨H.setCounter c ⟨s c, (if s c = 0 then k c else k c + 1) + 1⟩, ?_,
        ht.setCounter hheld (fun _ _ => rfl) (fun d hd => gain_of_ne k hd) ?_ Iff.rfl, rfl,
        .of_eq rfl rfl rfl⟩
      · simp only [World.acquireWeak, hc, hcounter, Option.bind_eq_bind, Option.bind_some]
      · rw [gain_self, block, if_neg (by omega)]
        split <;> rfl

/-- `release_weak`, which frees the control block when it is the last one. -/
theorem Tallied.releaseWeak (ht : Tallied s k H) (hpos : ∀ c, h.counter = some c → 0 < k c) :
    ∃ H', World.releaseWeak H h = some H' ∧ Tallied s (lose k h.counter) H' ∧
      H'.handles = H.handles ∧ Grows H H' := by
  cases hc : h.counter with
  | none =>
      refine ⟨H, by rw [World.releaseWeak, hc], ?_, rfl, Grows.refl H⟩
      rwa [lose_none]
  | some c =>
      have hk := hpos c hc
      have hother : ∀ d, c ≠ d → lose k (some c) d = k d := fun d hd => lose_of_ne k hd
      have hne : ¬ (s c = 0 ∧ k c = 0) := by omega
      have hcounter : H.counter? c = some ⟨s c, if s c = 0 then k c else k c + 1⟩ := by
        rw [ht.counter_eq, block, if_neg hne]
      by_cases hlast : s c = 0 ∧ k c = 1
      · obtain ⟨hs, hk₁⟩ := hlast
        obtain ⟨hnode, hfreed, hdeleted⟩ := ht.held (.inr hk)
        have hself : lose k (some c) c = 0 := by rw [lose_self, hk₁]
        refine ⟨H.putCounter c none, ?_, ht.update (ht.lt (.inr hk)) (fun _ _ => rfl) hother ?_ ?_
          (fun d => ?_) (fun d => ?_), rfl, grows_putCounter none⟩
        · simp only [World.releaseWeak, hc, hcounter, Option.bind_eq_bind, Option.bind_some,
            hs, if_pos, hk₁]
          rfl
        · obtain ⟨hlt, hget⟩ := List.getElem?_eq_some_iff.mp hnode
          rw [← hget, List.set_getElem_self]
          rfl
        · rw [hself, hs]
          rfl
        · show H.deleted.count d = _
          split
          · next hcd => rw [← hcd, hdeleted, if_pos hs]
          · rfl
        · refine (count_concat H.freed c d).trans ?_
          rw [hself, hs]
          split
          · next hcd => rw [← hcd, hfreed, if_pos (And.intro rfl rfl)]
          · rfl
      · have hdec : ControlBlock.decWeak ⟨s c, if s c = 0 then k c else k c + 1⟩ =
            some (some ⟨s c, if s c = 0 then k c - 1 else k c⟩) := by
          rw [ControlBlock.decWeak]
          by_cases hs : s c = 0
          · simp only [hs, if_pos]
            rw [if_neg (by omega), if_neg (by omega)]
          · simp only [if_neg hs]
            rw [if_neg (by omega), if_neg (by omega)]
            rfl
        refine ⟨H.setCounter c ⟨s c, if s c = 0 then k c - 1 else k c⟩, ?_,
          ht.setCounter (.inr hk) (fun _ _ => rfl) hother ?_ Iff.rfl, rfl, .of_eq rfl rfl rfl⟩
        · simp only [World.releaseWeak, hc, hcounter, hdec, Option.bind_eq_bind, Option.bind_some]
          rfl
        · rw [lose_self, block, if_neg (by omega)]
          split
          · rfl
          · rw [Nat.sub_add_cancel hk]

end Ycetl.Ref.Shared.Heap
