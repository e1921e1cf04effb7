import Ycetl.Proofs.SharedProgress

/-!
# What falls with a handle

`Falls` is read off a counted heap before anything is done: the nodes that are
held by one handle alone, or by it and fields of nodes that fall as well. When
the place that is released is not in such a node, the release has a result, and
the nodes it deletes are the ones that fall. What is left is a counted heap with
a vacant place.
-/

namespace Ycetl.Ref.Shared.Heap

open Ycetl.Lib

variable {C : Type} {K : Counter C} {ok : C → Prop} {fuel : Nat} {H H₀ H₁ H₂ H' : Heap C}
  {a b l : Loc} {g g' h v : Handle} {c d n m i : Nat}

/-- The nodes that go when the handle at `a` is released. -/
inductive Falls (H : Heap C) (a : Loc) : Nat → Prop where
  | intro {n : Nat} (held : ∃ l, H.Holds l n)
      (outside : ∀ i, H.Holds (.handle i) n → .handle i = a)
      (fields : ∀ m i, H.Holds (.field m i) n → .field m i ≠ a → Falls H a m) : Falls H a n

theorem object?_eq (hc : H.object? c = some n) : n = c := by
  rw [object?] at hc
  split at hc
  · exact (Option.some.inj hc).symm
  · cases hc

theorem object?_self : H.object? c = some c ↔ H.lifetime? c = some .alive := by
  rw [object?]
  split
  · next h => exact iff_of_true rfl h
  · next h => exact iff_of_false (fun he => by cases he) h

theorem object?_congr (hc : H'.lifetime? c = some .alive ↔ H.lifetime? c = some .alive) :
    H'.object? c = H.object? c := by
  simp only [object?, hc]

/-- Between two calls no node is dying. -/
theorem alive_of_load (hs : ∀ n, H.lifetime? n ≠ some .dying) (hl : H.load l = some g)
    (hn : l.node = some n) : H.lifetime? n = some .alive := by
  obtain ⟨t, ht, hdead⟩ := not_dead_of_load hl hn
  cases t with
  | alive => exact ht
  | dying => exact absurd ht (hs n)
  | dead => exact absurd rfl hdead

theorem Sound.alive_of_load (hs : Sound K ok H) (hl : H.load l = some g)
    (hn : l.node = some n) : H.lifetime? n = some .alive :=
  Heap.alive_of_load hs.settled hl hn

theorem Sound.typed (hs : Sound K ok H) : Typed H.object? H := hs.object

/-- The count of the handles outside and of the fields of some nodes. -/
def staying (H : Heap C) (B : Finset Nat) (d : Nat) : Nat :=
  holders H.outside d + ∑ n ∈ B, holders (H.targets n) d

theorem staying_pos {B : Finset Nat} (hl : H.Holds l c) (hB : ∀ n, l.node = some n → n ∈ B) :
    0 < H.staying B c := by
  obtain ⟨h, hl, hc⟩ := hl
  rw [staying]
  cases l with
  | handle i => exact Nat.add_pos_left (outside_pos hl hc) _
  | field n i =>
      have hle := Finset.single_le_sum (f := fun m => holders (H.targets m) c)
        (fun _ _ => Nat.zero_le _) (hB n rfl)
      exact Nat.add_pos_right _ (Nat.lt_of_lt_of_le (targets_pos hl hc) hle)

open Classical in
/-- The nodes that stay. -/
noncomputable def kept (H : Heap C) (a : Loc) : Finset Nat :=
  H.aliveSet.filter fun n => ¬ Falls H a n

theorem mem_kept : n ∈ H.kept a ↔ H.lifetime? n = some .alive ∧ ¬ Falls H a n := by
  classical
  rw [kept, Finset.mem_filter, mem_aliveSet]

/-- What is held from a place that stays, stays. -/
theorem not_falls_of_holds (hl : H.Holds l c) (hla : l ≠ a)
    (hn : ∀ n, l.node = some n → ¬ Falls H a n) : ¬ Falls H a c := by
  intro hc
  obtain ⟨-, hout, hfields⟩ := hc
  cases l with
  | handle i => exact hla (hout i hl)
  | field m i => exact hn m rfl (hfields m i hl hla)

/-- A place that is emptied holds nothing, and the others hold what they did. -/
theorem holds_of_emptied (hs : Stored H a .null H₀) (hl : H₀.Holds l c) :
    l ≠ a ∧ H.Holds l c := by
  obtain ⟨g, hl, hc⟩ := hl
  rw [hs.load_eq] at hl
  split at hl
  · cases hl
    cases hc
  · next hla => exact ⟨hla, g, hl, hc⟩

theorem holds_emptied (hs : Stored H a .null H₀) (hl : H.Holds l c) (hla : l ≠ a) :
    H₀.Holds l c := by
  obtain ⟨g, hl, hc⟩ := hl
  exact ⟨g, by rw [hs.load_eq, if_neg hla, hl], hc⟩

theorem Counted.refs_pos (hH : Counted K ok H) (hl : H.Holds l c) : 0 < H.refs K c := by
  obtain ⟨g, hg, hc⟩ := hl
  rw [hH.refs_eq c]
  exact live_pos ⟨g, hg, hc⟩ fun n hn => hH.alive_of_load hg hn

/-- A release begins with what is kept counted apart from what falls. -/
theorem Counted.ready (hH : Counted K ok H) (hl : H.load a = some h)
    (ha : ∀ n, a.node = some n → ¬ Falls H a n) (hs : H.store a .null = some H₀)
    (hfuel : H.nodes.length ≤ fuel) :
    Ready K ok H.object? (H₀.staying (H.kept a)) (H.kept a) fuel H [h.counter] := by
  have hst := stored hs
  have halive : ∀ n, a.node = some n → H.lifetime? n = some .alive := fun n hn =>
    hH.alive_of_load hl hn
  have hset : H₀.aliveSet = H.aliveSet := aliveSet_congr hst.lifetime_eq
  have hsub : H.kept a ⊆ H.aliveSet := fun n hn => mem_aliveSet.mpr (mem_kept.mp hn).1
  refine ⟨fun d => ?_, hH.typed, fun c hc _ => object?_self.mp hc, hH.ok,
    fun n hn => (mem_kept.mp hn).1, fun n hn hz => ?_, ?_⟩
  · have hlive := live_store hl hs halive d
    have hsum : ∑ n ∈ H.aliveSet \ H.kept a, holders (H₀.targets n) d =
        ∑ n ∈ H.aliveSet \ H.kept a, holders (H.targets n) d := by
      refine Finset.sum_congr rfl fun n hn => ?_
      rw [targets_congr (hst.nodes_eq n fun hna => ?_)]
      exact (Finset.mem_sdiff.mp hn).2 (mem_kept.mpr ⟨halive n hna, ha n hna⟩)
    have hsplit := Finset.sum_sdiff (f := fun n => holders (H₀.targets n) d) hsub
    rw [live, hset, ← hsplit, hsum] at hlive
    rw [hH.refs_eq d, staying]
    have hnull : holders [Handle.null.counter] d = 0 := rfl
    omega
  · by_contra hne
    rw [hH.refs_eq n] at hne
    refine (mem_kept.mp hn).2 (.intro (exists_holds (Nat.pos_of_ne_zero hne)) (fun i hi => ?_)
      fun m i hi hia => ?_)
    · by_contra hia
      have hpos := staying_pos (B := H.kept a) (holds_emptied hst hi hia) fun _ hn => by cases hn
      omega
    · by_contra hm
      have hmem : m ∈ H.kept a := by
        obtain ⟨g, hg, -⟩ := hi
        exact mem_kept.mpr ⟨hH.alive_of_load hg rfl, hm⟩
      have hpos := staying_pos (B := H.kept a) (holds_emptied hst hi hia) fun k hk => by
        cases hk
        exact hmem
      omega
  · exact (Finset.card_filter_le _ _).trans (by rwa [Finset.card_range])

/-- A release that has a result has deleted what falls. -/
theorem falls_mem {S : Finset Nat} (hH : Counted K ok H) (hl : H.load a = some h)
    (hf : Fell K H.object? H [h.counter] S H₁) (haS : ∀ n, a.node = some n → n ∉ S)
    (hn : Falls H a n) : H.lifetime? n = some .alive → n ∈ S := by
  induction hn with
  | @intro n held outside fields ih =>
      intro hn
      obtain ⟨H₀, hs⟩ := exists_store hl .null
      have hst := stored hs
      have halive : ∀ n, a.node = some n → H.lifetime? n = some .alive := fun n hn =>
        hH.alive_of_load hl hn
      -- no handle but `a` and the fields of `S` holds the node
      have hout : holders H₀.outside n = 0 := by
        by_contra hne
        have hmem : some n ∈ H₀.outside := List.count_pos_iff.mp (Nat.pos_of_ne_zero hne)
        obtain ⟨i, hi⟩ := holds_of_mem_outside hmem
        obtain ⟨hia, hi⟩ := holds_of_emptied hst hi
        exact hia (outside i hi)
      have hfield : ∀ m ∈ H.aliveSet, m ∉ S → holders (H₀.targets m) n = 0 := by
        intro m hm hmS
        by_contra hne
        have hmem : some n ∈ H₀.targets m := List.count_pos_iff.mp (Nat.pos_of_ne_zero hne)
        have hm₀ : H₀.lifetime? m = some .alive := by rw [hst.lifetime_eq, mem_aliveSet.mp hm]
        obtain ⟨i, hi⟩ := holds_of_mem_targets hm₀ hmem
        obtain ⟨hia, hi⟩ := holds_of_emptied hst hi
        exact hmS (ih m i hi hia (mem_aliveSet.mp hm))
      have hsum : ∑ m ∈ H.aliveSet, holders (H₀.targets m) n =
          ∑ m ∈ S, holders (H.targets m) n := by
        have hsub : S ⊆ H.aliveSet := fun m hm => mem_aliveSet.mpr (hf.alive m hm)
        rw [← Finset.sum_subset hsub hfield]
        refine Finset.sum_congr rfl fun m hm => ?_
        rw [targets_congr (hst.nodes_eq m fun hma => haS m hma hm)]
      refine hf.complete n (object?_self.mpr hn) (hH.refs_pos held.choose_spec) ?_
      have hlive := live_store hl hs halive n
      rw [live, aliveSet_congr hst.lifetime_eq, hout, ← hH.refs_eq n] at hlive
      have hrefs := hf.refs_eq n
      have hnull : holders [Handle.null.counter] n = 0 := rfl
      omega

/-- A release that has a result was of a place that does not fall, and a place
that can be read after it does not fall either. -/
theorem release_not_falls (hK : K.Lawful ok) (hH : Counted K ok H) (hl : H.load a = some h)
    (hb : H.load b = some g) (hr : release K (deleteNode K fuel) H a = some H')
    (hb' : H'.load b = some g') :
    ∀ n, a.node = some n ∨ b.node = some n → ¬ Falls H a n := by
  obtain ⟨S, h₁, v, H₁, hl₁, hf, hframe, -, hread, -, hs⟩ := release_fell hK (fun _ _ => object?_eq)
    (deleteNode_fell hK (fun _ _ => object?_eq) fuel) hH.typed hr
  cases hl.symm.trans hl₁
  have haS : ∀ n, a.node = some n → n ∉ S := fun n hn => hf.not_mem hread hn
  intro n hn hfalls
  rcases hn with hn | hn
  · exact haS n hn (falls_mem hH hl hf haS hfalls (hH.alive_of_load hl hn))
  · have hS := falls_mem hH hl hf haS hfalls (hH.alive_of_load hb hn)
    exact (hf.stored (stored hs)).not_mem hb' hn hS

/-! ## A vacant place -/

/-- A heap that is counted but for the object of a place that was released. -/
structure Vacant (K : Counter C) (ok : C → Prop) (H : Heap C) (a : Loc) : Prop where
  refs_eq : ∀ c, H.refs K c = H.live c
  ok : ∀ c k, H.counter? c = some k → 0 < K.strong k → ok k
  settled : ∀ n, H.lifetime? n ≠ some .dying
  vacant : ∃ v, H.load a = some v ∧ v.counter = none
  empty : ∀ l h, l ≠ a → H.load l = some h → h.counter = none → h.ptr = none
  object : ∀ l h c, l ≠ a → H.load l = some h → h.counter = some c → h.ptr = H.object? c

/-- Whatever a release leaves in its place, the others count the same. -/
theorem staying_stored (hframe : H₁.handles = H.handles)
    (hnode : ∀ n ∈ H.kept a, H₁.nodes[n]? = H.nodes[n]?) (hl : H.load a = some h)
    (hl₁ : H₁.load a = some h) (hv : v.counter = none) (hs : H.store a .null = some H₀)
    (hs₁ : H₁.store a v = some H') : H'.staying (H.kept a) d = H₀.staying (H.kept a) d := by
  have hst := stored hs
  have hst₁ := stored hs₁
  rw [staying, staying]
  cases a with
  | handle i =>
      have hout : H'.outside = H₀.outside := by
        rw [(outside_store hl₁ hs₁).1, (outside_store hl hs).1, hv, outside, outside, hframe]
        rfl
      rw [hout]
      refine congrArg _ (Finset.sum_congr rfl fun n hn => ?_)
      rw [targets_congr (hst₁.nodes_eq n fun he => by cases he),
        targets_congr (hst.nodes_eq n fun he => by cases he), targets_congr (hnode n hn)]
  | field m i =>
      have hout : H'.outside = H₀.outside := by
        rw [outside, outside, hst₁.handles_eq (fun he => by cases he), hframe,
          hst.handles_eq (fun he => by cases he)]
      rw [hout]
      refine congrArg _ (Finset.sum_congr rfl fun n hn => ?_)
      by_cases hmn : m = n
      · subst hmn
        rw [(targets_store hl₁ hs₁).1, (targets_store hl hs).1, hv, targets_congr (hnode m hn)]
        rfl
      · rw [targets_congr (hst₁.nodes_eq n fun he => hmn (Option.some.inj he)),
          targets_congr (hst.nodes_eq n fun he => hmn (Option.some.inj he)),
          targets_congr (hnode n hn)]

/-- What is left after a release: nothing that stays has changed. -/
structure Released (K : Counter C) (ok : C → Prop) (H : Heap C) (a : Loc) (H' : Heap C) :
    Prop where
  vacant : Vacant K ok H' a
  load_eq : ∀ l, l ≠ a → (∀ n, l.node = some n → ¬ Falls H a n) → H'.load l = H.load l
  object_eq : ∀ l c, l ≠ a → (∀ n, l.node = some n → ¬ Falls H a n) → H.Holds l c →
    H'.object? c = H.object? c

theorem release_vacant (hK : K.Lawful ok) (hH : Counted K ok H) (hl : H.load a = some h)
    (ha : ∀ n, a.node = some n → ¬ Falls H a n) (hfuel : H.nodes.length ≤ fuel) :
    ∃ H', release K (deleteNode K fuel) H a = some H' ∧ Released K ok H a H' := by
  obtain ⟨H₀, hs₀⟩ := exists_store hl .null
  have hobj : ∀ c n, H.object? c = some n → n = c := fun _ _ => object?_eq
  have hfell : DeleteFells K H.object? (deleteNode K fuel) := deleteNode_fell hK hobj fuel
  have hready := hH.ready hl ha hs₀ hfuel
  have hkept : ∀ n, a.node = some n → n ∈ H.kept a := fun n hn =>
    mem_kept.mpr ⟨hH.alive_of_load hl hn, ha n hn⟩
  obtain ⟨H', hr, hr'⟩ := release_ready hK hobj hfell (deleteNode_ready hK hobj fuel) hl hready
    fun n hn => .inl (hkept n hn)
  obtain ⟨S, h₁, v, H₁, hl₁, hf₁, hframe, -, hread, hv, hs⟩ :=
    release_fell hK hobj hfell hH.typed hr
  cases hl.symm.trans hl₁
  have hst := stored hs
  have hf := hf₁.stored hst
  have haS : ∀ n, a.node = some n → n ∉ S := fun n hn => hf₁.not_mem hread hn
  have hkeptS : ∀ n ∈ H.kept a, n ∉ S := by
    intro n hn hS
    have hdead := hf.dead n hS
    rw [hr'.kept n hn] at hdead
    cases hdead
  -- what is not deleted is as it was
  have hlife : ∀ n, n ∉ S → H'.lifetime? n = H.lifetime? n := fun n hn => by
    rw [hst.lifetime_eq, lifetime?_congr (hframe.nodes_eq n hn)]
  have hload : ∀ l, l ≠ a → (∀ n, l.node = some n → n ∉ S) → H'.load l = H.load l := by
    intro l hla hlS
    rw [hst.load_eq, if_neg hla, hframe.load_eq hlS]
  have hobject : ∀ l c, l ≠ a → (∀ n, l.node = some n → ¬ Falls H a n) → H.Holds l c →
      H'.object? c = H.object? c := by
    intro l c hla hn hholds
    refine object?_congr ?_
    by_cases hc : c ∈ S
    · have hcfalls := not_falls_of_holds hholds hla hn
      exact absurd hc (hkeptS c (mem_kept.mpr ⟨hf.alive c hc, hcfalls⟩))
    · rw [hlife c hc]
  have hstays : ∀ l g, H'.load l = some g → ∀ n, l.node = some n → n ∉ S := fun l g hg n hn =>
    hf.not_mem hg hn
  have hnot : ∀ l g, l ≠ a → H'.load l = some g → H.load l = some g ∧
      ∀ n, l.node = some n → ¬ Falls H a n := by
    intro l g hla hg
    have hlS := hstays l g hg
    have hg₀ : H.load l = some g := (hload l hla hlS).symm.trans hg
    exact ⟨hg₀, fun n hn hfalls =>
      hlS n hn (falls_mem hH hl hf₁ haS hfalls (hH.alive_of_load hg₀ hn))⟩
  refine ⟨H', hr, ⟨fun c => ?_, hr'.ok, fun n hn => ?_, ⟨v, ?_, hv⟩, fun l g hla hg hc => ?_,
    fun l g c hla hg hc => ?_⟩, fun l hla hn => ?_, hobject⟩
  · have hsub : H.kept a ⊆ H'.aliveSet := fun n hn => mem_aliveSet.mpr (hr'.kept n hn)
    have hsame := staying_stored (d := c) hframe.handles_eq
      (fun n hn => hframe.nodes_eq n (hkeptS n hn)) hl hread hv hs₀ hs
    have hsplit := Finset.sum_sdiff (f := fun n => holders (H'.targets n) c) hsub
    have hrefs := hr'.refs_eq c
    rw [← hsame, staying] at hrefs
    rw [live, ← hsplit, hrefs]
    have hnil : holders ([] : List (Option Nat)) c = 0 := rfl
    omega
  · by_cases hnS : n ∈ S
    · rw [hf.dead n hnS] at hn
      cases hn
    · exact hH.settled n ((hlife n hnS).symm.trans hn)
  · rw [hst.load_eq, if_pos rfl]
  · exact hH.empty l g (hnot l g hla hg).1 hc
  · obtain ⟨hg₀, hn⟩ := hnot l g hla hg
    rw [hobject l c hla hn ⟨g, hg₀, hc⟩]
    exact hH.object l g c hg₀ hc
  · refine hload l hla fun n hn' hS => ?_
    exact hkeptS n (mem_kept.mpr ⟨hf.alive n hS, hn n hn'⟩) hS

end Ycetl.Ref.Shared.Heap
