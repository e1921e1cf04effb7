import Mathlib.Algebra.Order.BigOperators.Group.Finset
import Mathlib.Data.List.Nodup
import Ycetl.Lib.Holders
import Ycetl.Ref.SharedPtr

/-!
# Counted heaps

What the operations on a heap of owners do, one by one. `refs` is the count of
a number, which is zero where there is no counter, and `targets` are the
counters that the fields of a node hold. A counted heap is one in which every
count is the number of handles that hold it: those outside, and the fields of
the nodes that are alive.
-/

namespace Ycetl.Ref.Shared

open Ycetl.Lib

/-- What the two ways to count have in common. `ok` is what a counter has to
have until its object is deleted. -/
structure Counter.Lawful {C : Type} (K : Counter C) (ok : C → Prop) : Prop where
  dec_zero : ∀ k, K.strong k = 0 → K.dec k = none
  dec_pos : ∀ k, 0 < K.strong k →
    ∃ k', K.dec k = some k' ∧ K.strong k' = K.strong k - 1 ∧ (ok k → ok k')
  strong_inc : ∀ k, K.strong (K.inc k) = K.strong k + 1
  ok_inc : ∀ k, ok k → ok (K.inc k)
  dispose_ok : ∀ k, ok k → ∃ o, K.dispose k = some o
  strong_dispose : ∀ k k', K.dispose k = some (some k') → K.strong k' = K.strong k
  rest_counter : ∀ h, (K.rest h).counter = none

/-- A decrement that is made was not of zero, and takes one off. -/
theorem Counter.Lawful.of_dec {C : Type} {K : Counter C} {ok : C → Prop} (hK : K.Lawful ok)
    {k k' : C} (h : K.dec k = some k') : 0 < K.strong k ∧ K.strong k' = K.strong k - 1 := by
  have hpos : 0 < K.strong k := by
    rw [Nat.pos_iff_ne_zero]
    intro h0
    rw [hK.dec_zero k h0] at h
    cases h
  obtain ⟨k₁, hk₁, hs, -⟩ := hK.dec_pos k hpos
  rw [h, Option.some.injEq] at hk₁
  exact ⟨hpos, by rw [hk₁, hs]⟩

/-- The control block outlives the object by its implicit weak reference. -/
theorem sharedCounter_lawful : sharedCounter.Lawful fun b => 0 < b.weakCount where
  dec_zero b hb := if_pos hb
  dec_pos b hb := ⟨{ b with refCount := b.refCount - 1 }, if_neg (Nat.ne_of_gt hb), rfl, id⟩
  strong_inc _ := rfl
  ok_inc _ h := h
  dispose_ok b hb := by
    show ∃ o, b.decWeak = some o
    rw [ControlBlock.decWeak, if_neg (Nat.ne_of_gt hb)]
    split
    · exact ⟨_, rfl⟩
    · exact ⟨_, rfl⟩
  strong_dispose b b' h := by
    replace h : b.decWeak = some (some b') := h
    rw [ControlBlock.decWeak] at h
    split at h
    · cases h
    · split at h
      · cases h
      · cases h
        rfl
  rest_counter _ := rfl

theorem trivialCounter_lawful : trivialCounter.Lawful fun _ => True where
  dec_zero n hn := if_pos hn
  dec_pos n hn := ⟨n - 1, if_neg (Nat.ne_of_gt hn), rfl, id⟩
  strong_inc _ := rfl
  ok_inc _ h := h
  dispose_ok _ _ := ⟨none, rfl⟩
  strong_dispose _ _ h := by cases h
  rest_counter _ := rfl

namespace Heap

variable {C : Type} {K : Counter C} {H H' : Heap C} {a b : Loc} {h v : Handle} {c d n m : Nat}

/-- The count of a number. -/
def refs (K : Counter C) (H : Heap C) (c : Nat) : Nat := ((H.counter? c).map K.strong).getD 0

/-- The counters that the fields of a node hold. -/
def targets (H : Heap C) (n : Nat) : List (Option Nat) :=
  ((H.nodes[n]?).map fun x => x.fields.map Handle.counter).getD []

/-- The counters that the handles outside hold. -/
def outside (H : Heap C) : List (Option Nat) := H.handles.map fun o => o.bind Handle.counter

/-- The nodes that are alive. -/
def aliveSet (H : Heap C) : Finset Nat :=
  (Finset.range H.nodes.length).filter fun n => H.lifetime? n = some .alive

/-- The number of handles that hold a counter. -/
def live (H : Heap C) (c : Nat) : Nat :=
  holders H.outside c + ∑ n ∈ H.aliveSet, holders (H.targets n) c

end Heap

/-- The node a place is in. -/
def Loc.node : Loc → Option Nat
  | .handle _ => none
  | .field n _ => some n

namespace Heap

variable {C : Type} {K : Counter C} {H H' : Heap C} {a b : Loc} {h v : Handle} {c d n m : Nat}

/-! ## Counters -/

@[simp] theorem load_setCounter (k : C) (a : Loc) : (H.setCounter c k).load a = H.load a := by
  cases a <;> rfl

@[simp] theorem load_putCounter (o : Option C) (a : Loc) :
    (H.putCounter c o).load a = H.load a := by
  cases o <;> cases a <;> rfl

theorem counter?_setCounter {k₀ : C} (hc : H.counter? c = some k₀) (k : C) (d : Nat) :
    (H.setCounter c k).counter? d = if c = d then some k else H.counter? d :=
  record?_set (lt_of_record? hc) (some k) d

theorem counter?_putCounter {k₀ : C} (hc : H.counter? c = some k₀) (o : Option C) (d : Nat) :
    (H.putCounter c o).counter? d = if c = d then o else H.counter? d := by
  cases o with
  | none => exact record?_set (lt_of_record? hc) none d
  | some k => exact counter?_setCounter hc k d

theorem nodes_putCounter (o : Option C) : (H.putCounter c o).nodes = H.nodes := by
  cases o <;> rfl

theorem handles_putCounter (o : Option C) : (H.putCounter c o).handles = H.handles := by
  cases o <;> rfl

theorem refs_of_counter {k : C} (hc : H.counter? c = some k) : H.refs K c = K.strong k := by
  rw [refs, hc]
  rfl

theorem refs_congr (hc : H'.counter? c = H.counter? c) : H'.refs K c = H.refs K c := by
  rw [refs, refs, hc]

/-- A count that is not zero has a counter. -/
theorem counter_of_refs (hc : 0 < H.refs K c) :
    ∃ k, H.counter? c = some k ∧ K.strong k = H.refs K c := by
  rw [refs] at hc ⊢
  cases hk : H.counter? c with
  | none =>
      rw [hk] at hc
      exact absurd hc (Nat.lt_irrefl 0)
  | some k => exact ⟨k, rfl, rfl⟩

theorem refs_setCounter {k₀ : C} (hc : H.counter? c = some k₀) (k : C) (d : Nat) :
    (H.setCounter c k).refs K d = if c = d then K.strong k else H.refs K d := by
  rw [refs, counter?_setCounter hc]
  split <;> rfl

theorem refs_putCounter {k₀ : C} (hc : H.counter? c = some k₀) (o : Option C) (d : Nat) :
    (H.putCounter c o).refs K d = if c = d then (o.map K.strong).getD 0 else H.refs K d := by
  rw [refs, counter?_putCounter hc]
  split <;> rfl

/-! ## Places -/

theorem lifetime?_congr (hn : H'.nodes[n]? = H.nodes[n]?) : H'.lifetime? n = H.lifetime? n := by
  rw [lifetime?, lifetime?, hn]

theorem targets_congr (hn : H'.nodes[n]? = H.nodes[n]?) : H'.targets n = H.targets n := by
  rw [targets, targets, hn]

theorem load_congr (hh : H'.handles = H.handles)
    (hn : ∀ n, a.node = some n → H'.nodes[n]? = H.nodes[n]?) : H'.load a = H.load a := by
  cases a with
  | handle i => rw [load, load, hh]
  | field n i => rw [load, load, hn n rfl]

theorem mem_aliveSet : n ∈ H.aliveSet ↔ H.lifetime? n = some .alive := by
  rw [aliveSet, Finset.mem_filter, Finset.mem_range]
  refine and_iff_right_of_imp fun hn => ?_
  obtain ⟨x, hx, -⟩ := Option.map_eq_some_iff.mp hn
  exact (List.getElem?_eq_some_iff.mp hx).1

/-- A field that can be read is one of a node that was not deleted. -/
theorem load_field {i : Nat} (hl : H.load (.field n i) = some h) :
    ∃ x, H.nodes[n]? = some x ∧ x.lifetime ≠ .dead ∧ x.fields[i]? = some h := by
  rw [load] at hl
  obtain ⟨x, hx, hrest⟩ := Option.bind_eq_some_iff.mp hl
  split at hrest
  · cases hrest
  · next hdead => exact ⟨x, hx, hdead, hrest⟩

theorem load_field_of {i : Nat} {x : Node} (hx : H.nodes[n]? = some x)
    (hdead : x.lifetime ≠ .dead) : H.load (.field n i) = x.fields[i]? := by
  simp only [load, hx, Option.bind_eq_bind, Option.bind_some, if_neg hdead]

theorem targets_of_node {x : Node} (hx : H.nodes[n]? = some x) :
    H.targets n = x.fields.map Handle.counter := by
  rw [targets, hx]
  rfl

theorem lifetime?_of_node {x : Node} (hx : H.nodes[n]? = some x) :
    H.lifetime? n = some x.lifetime := by
  rw [lifetime?, hx]
  rfl

theorem not_dead_of_load (hl : H.load a = some h) (hn : a.node = some n) :
    ∃ t, H.lifetime? n = some t ∧ t ≠ .dead := by
  cases a with
  | handle i => cases hn
  | field m i =>
      cases hn
      obtain ⟨x, hx, hdead, -⟩ := load_field hl
      exact ⟨x.lifetime, lifetime?_of_node hx, hdead⟩

/-! ## Writes to a place -/

/-- What can be read can be written. -/
theorem exists_store (hl : H.load a = some h) (v : Handle) : ∃ H', H.store a v = some H' := by
  cases a with
  | handle i =>
      rw [load] at hl
      exact ⟨_, by rw [store, hl]; rfl⟩
  | field n i =>
      obtain ⟨x, hx, hdead, hf⟩ := load_field hl
      have hi := (List.getElem?_eq_some_iff.mp hf).1
      refine ⟨{ H with nodes := H.nodes.set n { x with fields := x.fields.set i v } }, ?_⟩
      simp only [store, hx, Option.bind_eq_bind, Option.bind_some, if_neg hdead, if_pos hi]

/-- What a write changes. -/
structure Stored (H : Heap C) (a : Loc) (v : Handle) (H' : Heap C) : Prop where
  counters_eq : H'.counters = H.counters
  length_eq : H'.nodes.length = H.nodes.length
  lifetime_eq : ∀ n, H'.lifetime? n = H.lifetime? n
  load_eq : ∀ b, H'.load b = if b = a then some v else H.load b
  nodes_eq : ∀ n, a.node ≠ some n → H'.nodes[n]? = H.nodes[n]?
  handles_eq : a.node ≠ none → H'.handles = H.handles

theorem stored (hs : H.store a v = some H') : Stored H a v H' := by
  cases a with
  | handle i =>
      rw [store] at hs
      obtain ⟨h, hh, hH⟩ := Option.bind_eq_some_iff.mp hs
      cases hH
      refine ⟨rfl, rfl, fun _ => rfl, fun b => ?_, fun _ _ => rfl, fun hn => absurd rfl hn⟩
      cases b with
      | handle j =>
          refine (record?_set (lt_of_record? hh) (some v) j).trans ?_
          simp only [Loc.handle.injEq, eq_comm (a := i)]
          rfl
      | field m j =>
          rw [if_neg (fun hb => by cases hb)]
          rfl
  | field n i =>
      rw [store] at hs
      obtain ⟨x, hx, hrest⟩ := Option.bind_eq_some_iff.mp hs
      split at hrest
      · cases hrest
      · next hdead =>
          split at hrest
          · next hi =>
              cases hrest
              have hn := (List.getElem?_eq_some_iff.mp hx).1
              have hnode : ∀ m, (H.nodes.set n { x with fields := x.fields.set i v })[m]? =
                  if n = m then some { x with fields := x.fields.set i v } else H.nodes[m]? := by
                intro m
                rw [List.getElem?_set, if_pos hn]
              refine ⟨rfl, List.length_set .., fun m => ?_, fun b => ?_, fun m hm => ?_,
                fun _ => rfl⟩
              · rw [lifetime?, lifetime?, hnode]
                split
                · next hnm => rw [← hnm, hx]; rfl
                · rfl
              · cases b with
                | handle j =>
                    rw [if_neg (fun hb => by cases hb)]
                    rfl
                | field m j =>
                    by_cases hnm : n = m
                    · subst hnm
                      rw [load_field_of (x := { x with fields := x.fields.set i v })
                        ((hnode n).trans (if_pos rfl)) hdead, load_field_of hx hdead,
                        List.getElem?_set, if_pos hi]
                      simp only [Loc.field.injEq, true_and, eq_comm (a := i)]
                    · rw [if_neg (fun hb => hnm (Loc.field.inj hb).1.symm)]
                      refine load_congr rfl fun k hk => ?_
                      cases hk
                      exact (hnode m).trans (if_neg hnm)
              · exact (hnode m).trans (if_neg fun hnm => hm (congrArg some hnm))
          · cases hrest

theorem targets_store {i : Nat} (hl : H.load (.field n i) = some h)
    (hs : H.store (.field n i) v = some H') :
    H'.targets n = (H.targets n).set i v.counter ∧ (H.targets n)[i]? = some h.counter := by
  obtain ⟨x, hx, hdead, hf⟩ := load_field hl
  have hi := (List.getElem?_eq_some_iff.mp hf).1
  simp only [store, hx, Option.bind_eq_bind, Option.bind_some, if_neg hdead, if_pos hi] at hs
  cases hs
  have hn := (List.getElem?_eq_some_iff.mp hx).1
  rw [targets_of_node hx, targets_of_node (x := { x with fields := x.fields.set i v })
    (List.getElem?_set_self hn)]
  exact ⟨List.map_set .., by rw [List.getElem?_map, hf]; rfl⟩

theorem outside_store {i : Nat} (hl : H.load (.handle i) = some h)
    (hs : H.store (.handle i) v = some H') :
    H'.outside = H.outside.set i v.counter ∧ H.outside[i]? = some h.counter := by
  rw [load] at hl
  rw [store, hl] at hs
  cases hs
  rw [outside, outside, List.map_set, List.getElem?_map, getElem?_of_record? hl]
  exact ⟨rfl, rfl⟩

theorem aliveSet_congr (hn : ∀ n, H'.lifetime? n = H.lifetime? n) : H'.aliveSet = H.aliveSet := by
  ext m
  rw [mem_aliveSet, mem_aliveSet, hn]

/-- A handle lets go of one counter and takes hold of another. -/
theorem live_store (hl : H.load a = some h) (hs : H.store a v = some H')
    (halive : ∀ n, a.node = some n → H.lifetime? n = some .alive) (c : Nat) :
    H'.live c + holders [h.counter] c = H.live c + holders [v.counter] c := by
  have hst := stored hs
  rw [live, live, aliveSet_congr hst.lifetime_eq]
  cases a with
  | handle i =>
      obtain ⟨hout, hget⟩ := outside_store hl hs
      have hadd := holders_set_add hget v.counter c
      have hsum : ∀ n ∈ H.aliveSet, holders (H'.targets n) c = holders (H.targets n) c := by
        intro n _
        rw [targets_congr (hst.nodes_eq n (fun hn => by cases hn))]
      rw [Finset.sum_congr rfl hsum, hout]
      omega
  | field n i =>
      obtain ⟨htar, hget⟩ := targets_store hl hs
      have hadd := holders_set_add hget v.counter c
      have hmem : n ∈ H.aliveSet := mem_aliveSet.mpr (halive n rfl)
      have hrest : ∀ m ∈ H.aliveSet.erase n,
          holders (H'.targets m) c = holders (H.targets m) c := by
        intro m hm
        rw [targets_congr (hst.nodes_eq m fun hn =>
          (Finset.mem_erase.mp hm).1 (Option.some.inj hn).symm)]
      have hout : H'.outside = H.outside := by
        rw [outside, outside, hst.handles_eq (fun hn => by cases hn)]
      rw [← Finset.add_sum_erase _ _ hmem, ← Finset.add_sum_erase _ _ hmem,
        Finset.sum_congr rfl hrest, htar, hout]
      omega

/-! ## Lifetimes -/

theorem nodes_setLifetime (n : Nat) (t : Lifetime) (m : Nat) :
    (H.setLifetime n t).nodes[m]? =
      if n = m then (H.nodes[m]?).map fun x => { x with lifetime := t } else H.nodes[m]? := by
  rw [setLifetime, List.getElem?_modify]
  split
  · rfl
  · exact Option.map_id'

theorem lifetime?_setLifetime {t₀ : Lifetime} (hn : H.lifetime? n = some t₀) (t : Lifetime)
    (m : Nat) : (H.setLifetime n t).lifetime? m = if n = m then some t else H.lifetime? m := by
  rw [lifetime?, lifetime?, nodes_setLifetime]
  split
  · next hnm =>
      obtain ⟨x, hx, -⟩ := Option.map_eq_some_iff.mp hn
      rw [← hnm, hx]
      rfl
  · rfl

theorem targets_setLifetime (n : Nat) (t : Lifetime) (m : Nat) :
    (H.setLifetime n t).targets m = H.targets m := by
  rw [targets, targets, nodes_setLifetime]
  split
  · rw [Option.map_map]
    rfl
  · rfl

/-- A node that has begun to die can still be read. -/
theorem load_setLifetime (hn : H.lifetime? n = some .alive) (a : Loc) :
    (H.setLifetime n .dying).load a = H.load a := by
  cases a with
  | handle i => rfl
  | field m j =>
      rw [load, load, nodes_setLifetime]
      split
      · next hnm =>
          obtain ⟨x, hx, hlife⟩ := Option.map_eq_some_iff.mp hn
          rw [← hnm, hx]
          simp [hlife]
      · rfl

/-- A node that is dead cannot. -/
theorem load_of_setLifetime_dead (hl : (H.setLifetime n .dead).load a = some h) :
    H.load a = some h := by
  cases a with
  | handle i => exact hl
  | field m j =>
      obtain ⟨x, hx, hdead, hf⟩ := load_field hl
      rw [nodes_setLifetime] at hx
      split at hx
      · obtain ⟨y, -, rfl⟩ := Option.map_eq_some_iff.mp hx
        exact absurd rfl hdead
      · rw [load_field_of hx hdead, hf]

/-! ## Counted heaps -/

/-- The handle at `a` holds the counter `c`. -/
def Holds (H : Heap C) (a : Loc) (c : Nat) : Prop := ∃ h, H.load a = some h ∧ h.counter = some c

/-- The object that a counter counts the owners of, if it is there. -/
def object? (H : Heap C) (c : Nat) : Option Nat :=
  if H.lifetime? c = some .alive then some c else none

/-- A handle has the object of its counter, and no object if it has none. -/
structure Sound (K : Counter C) (ok : C → Prop) (H : Heap C) : Prop where
  ok : ∀ c k, H.counter? c = some k → 0 < K.strong k → ok k
  settled : ∀ n, H.lifetime? n ≠ some .dying
  empty : ∀ a h, H.load a = some h → h.counter = none → h.ptr = none
  object : ∀ a h c, H.load a = some h → h.counter = some c → h.ptr = H.object? c

/-- And every count is the number of handles that hold it. -/
structure Counted (K : Counter C) (ok : C → Prop) (H : Heap C) : Prop extends Sound K ok H where
  refs_eq : ∀ c, H.refs K c = H.live c

theorem outside_pos {i : Nat} (hl : H.load (.handle i) = some h) (hc : h.counter = some c) :
    0 < holders H.outside c := by
  refine holders_pos (i := i) ?_
  rw [outside, List.getElem?_map, getElem?_of_record? hl, ← hc]
  rfl

theorem targets_pos {i : Nat} (hl : H.load (.field n i) = some h) (hc : h.counter = some c) :
    0 < holders (H.targets n) c := by
  obtain ⟨x, hx, -, hf⟩ := load_field hl
  refine holders_pos (i := i) ?_
  rw [targets_of_node hx, List.getElem?_map, hf, ← hc]
  rfl

theorem holds_of_mem_outside (hc : some c ∈ H.outside) : ∃ i, H.Holds (.handle i) c := by
  obtain ⟨o, ho, hoc⟩ := List.mem_map.mp hc
  obtain ⟨i, hi⟩ := List.mem_iff_getElem?.mp ho
  cases o with
  | none => cases hoc
  | some h => exact ⟨i, h, by rw [load, record?, hi]; rfl, hoc⟩

theorem holds_of_mem_targets (hn : H.lifetime? n = some .alive) (hc : some c ∈ H.targets n) :
    ∃ i, H.Holds (.field n i) c := by
  obtain ⟨x, hx, hlife⟩ := Option.map_eq_some_iff.mp hn
  rw [targets_of_node hx] at hc
  obtain ⟨h, hh, hhc⟩ := List.mem_map.mp hc
  obtain ⟨i, hi⟩ := List.mem_iff_getElem?.mp hh
  have hdead : x.lifetime ≠ .dead := by
    rw [hlife]
    exact fun he => by cases he
  exact ⟨i, h, by rw [load_field_of hx hdead, hi], hhc⟩

/-- What is held has a count. -/
theorem live_pos (ha : H.Holds a c) (halive : ∀ n, a.node = some n → H.lifetime? n = some .alive) :
    0 < H.live c := by
  obtain ⟨h, hl, hc⟩ := ha
  rw [live]
  cases a with
  | handle i => exact Nat.add_pos_left (outside_pos hl hc) _
  | field n i =>
      have hle := Finset.single_le_sum (f := fun m => holders (H.targets m) c)
        (fun _ _ => Nat.zero_le _) (mem_aliveSet.mpr (halive n rfl))
      exact Nat.add_pos_right _ (Nat.lt_of_lt_of_le (targets_pos hl hc) hle)

/-- What has a count is held. -/
theorem exists_holds (hc : 0 < H.live c) : ∃ l, H.Holds l c := by
  rw [live] at hc
  rcases Nat.eq_zero_or_pos (holders H.outside c) with hz | hpos
  · rw [hz, Nat.zero_add] at hc
    obtain ⟨n, hn, hne⟩ := Finset.exists_ne_zero_of_sum_ne_zero (Nat.ne_of_gt hc)
    obtain ⟨i, hi⟩ := holds_of_mem_targets (mem_aliveSet.mp hn)
      (List.count_pos_iff.mp (Nat.pos_of_ne_zero hne))
    exact ⟨_, hi⟩
  · obtain ⟨i, hi⟩ := holds_of_mem_outside (List.count_pos_iff.mp hpos)
    exact ⟨_, hi⟩

end Heap

end Ycetl.Ref.Shared
