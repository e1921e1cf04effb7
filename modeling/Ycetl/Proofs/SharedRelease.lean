import Ycetl.Proofs.SharedHeap

/-!
# What a release takes with it

`Fell` is what a release has done, when it has a result: the nodes it took
down, and what each count has lost by that. It holds in any heap, because a
decrement of zero has no result. `Ready` is what makes sure that there is one:
every count is the number of handles that are still to be released or will
stay, and some nodes are kept by handles that stay. Both are proved along the
recursion of `delete`, for a field, for the fields of a node, and for a node.
-/

namespace Ycetl.Ref.Shared.Heap

open Ycetl.Lib

variable {C : Type} {K : Counter C} {ok : C → Prop} {obj : Nat → Option Nat}
  {H H₁ H₂ H' : Heap C} {a : Loc} {h v : Handle} {c d n m i : Nat} {S S' F : Finset Nat}
  {t t' : List (Option Nat)}

/-! ## What has been done -/

/-- Every handle of a counter has the object of that counter. -/
def Typed (obj : Nat → Option Nat) (H : Heap C) : Prop :=
  ∀ a h c, H.load a = some h → h.counter = some c → h.ptr = obj c

/-- Handles with the counters in `t` were released, and with them the nodes in
`S` were deleted: each count has lost those in `t` and in the fields of `S`,
and a node whose count has become zero is in `S`. -/
structure Fell (K : Counter C) (obj : Nat → Option Nat) (H : Heap C) (t : List (Option Nat))
    (S : Finset Nat) (H' : Heap C) : Prop where
  refs_eq : ∀ d, H.refs K d =
    H'.refs K d + holders t d + ∑ n ∈ S, holders (H.targets n) d
  alive : ∀ n ∈ S, H.lifetime? n = some .alive
  dead : ∀ n ∈ S, H'.lifetime? n = some .dead
  complete : ∀ n, obj n = some n → 0 < H.refs K n → H'.refs K n = 0 → n ∈ S
  counter_eq : ∀ d, H.refs K d = 0 → H'.counter? d = H.counter? d

/-- Nothing outside the nodes in `F` and the counters has changed. -/
structure Frame (H : Heap C) (F : Finset Nat) (H' : Heap C) : Prop where
  handles_eq : H'.handles = H.handles
  length_eq : H'.nodes.length = H.nodes.length
  nodes_eq : ∀ m, m ∉ F → H'.nodes[m]? = H.nodes[m]?

theorem Frame.refl (H : Heap C) (F : Finset Nat) : Frame H F H := ⟨rfl, rfl, fun _ _ => rfl⟩

theorem Frame.load_eq (hf : Frame H F H') (ha : ∀ n, a.node = some n → n ∉ F) :
    H'.load a = H.load a :=
  load_congr hf.handles_eq fun n hn => hf.nodes_eq n (ha n hn)

theorem Fell.refl (H : Heap C) : Fell K obj H [] ∅ H :=
  ⟨fun _ => rfl, fun _ hn => absurd hn (Finset.notMem_empty _),
    fun _ hn => absurd hn (Finset.notMem_empty _), fun _ _ hpos hz => absurd hz (Nat.ne_of_gt hpos),
    fun _ _ => rfl⟩

theorem Fell.refl_none (H : Heap C) : Fell K obj H [none] ∅ H :=
  { Fell.refl H with refs_eq := fun _ => rfl }

theorem Fell.refs_le (hf : Fell K obj H t S H') (d : Nat) : H'.refs K d ≤ H.refs K d := by
  have := hf.refs_eq d
  omega

/-- A place that can still be read is not in a node that was deleted. -/
theorem Fell.not_mem (hf : Fell K obj H t S H') (hl : H'.load a = some h) (hn : a.node = some n) :
    n ∉ S := by
  intro hS
  obtain ⟨l, hlife, hdead⟩ := not_dead_of_load hl hn
  rw [hf.dead n hS, Option.some.injEq] at hlife
  exact hdead hlife.symm

/-- A decrement, and then a `delete` when it has come to zero. -/
theorem Fell.dec {k k' : C} (hc : H.counter? c = some k) (hpos : 0 < K.strong k)
    (hk' : K.strong k' = K.strong k - 1) (hf : Fell K obj (H.setCounter c k') [] S H')
    (hcS : obj c = some c → K.strong k' = 0 → c ∈ S) : Fell K obj H [some c] S H' := by
  have hrefs := refs_of_counter (K := K) hc
  have hset := refs_setCounter (K := K) hc k'
  refine ⟨fun d => ?_, hf.alive, hf.dead, fun n hobj hn hz => ?_, fun d hd => ?_⟩
  · have hd := hf.refs_eq d
    rw [hset] at hd
    rw [holders_singleton]
    by_cases hcd : c = d
    · rw [if_pos hcd] at hd
      rw [if_pos (congrArg some hcd), ← hcd, hrefs]
      rw [← hcd] at hd
      simp only [holders, List.count_nil] at hd
      simp only [holders]
      exact (show K.strong k = K.strong k' + 1 by omega).trans (by
        rw [hd]
        exact Nat.add_right_comm _ _ _)
    · rw [if_neg hcd] at hd
      rw [if_neg fun h => hcd (Option.some.inj h)]
      exact hd
  · by_cases hcn : c = n
    · subst hcn
      by_cases hzero : K.strong k' = 0
      · exact hcS hobj hzero
      · refine hf.complete c hobj ?_ hz
        rw [hset, if_pos rfl]
        exact Nat.pos_of_ne_zero hzero
    · refine hf.complete n hobj ?_ hz
      rwa [hset, if_neg hcn]
  · have hcd : c ≠ d := by
      intro hcd
      rw [← hcd, hrefs] at hd
      omega
    rw [hf.counter_eq d (by rwa [hset, if_neg hcd]), counter?_setCounter hc, if_neg hcd]

/-- What is left of a counter that has come to zero counts nothing. -/
theorem Fell.dispose {k : C} {o : Option C} (hf : Fell K obj H t S H₁)
    (hc : H₁.counter? c = some k) (hzero : (o.map K.strong).getD 0 = K.strong k)
    (hpos : 0 < H.refs K c) : Fell K obj H t S (H₁.putCounter c o) := by
  have hput : ∀ d, (H₁.putCounter c o).refs K d = H₁.refs K d := by
    intro d
    rw [refs_putCounter hc]
    split
    · next hcd => rw [hzero, ← hcd, refs_of_counter hc]
    · rfl
  refine ⟨fun d => by rw [hput, hf.refs_eq d], hf.alive, fun n hn => ?_,
    fun n hobj hn hz => hf.complete n hobj hn ((hput n).symm.trans hz), fun d hd => ?_⟩
  · rw [lifetime?, nodes_putCounter]
    exact hf.dead n hn
  · have hcd : c ≠ d := by
      rintro rfl
      omega
    rw [counter?_putCounter hc, if_neg hcd, hf.counter_eq d hd]

/-- What `delete` is known to do, when it has a result. -/
def DeleteFells (K : Counter C) (obj : Nat → Option Nat)
    (delete : Heap C → Nat → Option (Heap C)) : Prop :=
  ∀ H n H', delete H n = some H' → Typed obj H →
    ∃ S, n ∈ S ∧ Fell K obj H [] S H' ∧ Frame H S H' ∧ Typed obj H'

theorem typed_congr (ht : Typed obj H) (hl : ∀ a, H'.load a = H.load a) : Typed obj H' :=
  fun a h c ha hc => ht a h c (hl a ▸ ha) hc

/-- The object of a counter, if there is one, has been deleted. -/
theorem deletePtr_fell (hobj : ∀ c n, obj c = some n → n = c)
    {delete : Heap C → Nat → Option (Heap C)} (hdel : DeleteFells K obj delete)
    (ht : Typed obj H) {p : Option Nat} {c : Nat} (hp : p = obj c)
    (h : deletePtr delete H p = some H') :
    ∃ S, (obj c = some c → c ∈ S) ∧ Fell K obj H [] S H' ∧ Frame H S H' ∧ Typed obj H' := by
  rw [deletePtr.eq_def] at h
  split at h
  · cases h
    refine ⟨∅, fun ho => ?_, Fell.refl _, Frame.refl _ _, ht⟩
    rw [← hp] at ho
    cases ho
  · next n =>
      have hn : n = c := hobj c n hp.symm
      rw [hn] at h
      obtain ⟨S, hS, hfell, hframe, ht'⟩ := hdel _ c H' h ht
      exact ⟨S, fun _ => hS, hfell, hframe, ht'⟩

/-- A release, up to the last write to the members. -/
theorem release_fell (hK : K.Lawful ok) (hobj : ∀ c n, obj c = some n → n = c)
    {delete : Heap C → Nat → Option (Heap C)} (hdel : DeleteFells K obj delete)
    (ht : Typed obj H) (hr : release K delete H a = some H') :
    ∃ S h v H₁, H.load a = some h ∧ Fell K obj H [h.counter] S H₁ ∧ Frame H S H₁ ∧
      Typed obj H₁ ∧ H₁.load a = some h ∧ v.counter = none ∧ H₁.store a v = some H' := by
  rw [release] at hr
  obtain ⟨h, hl, hr⟩ := Option.bind_eq_some_iff.mp hr
  split at hr
  · next hc =>
      refine ⟨∅, h, K.rest h, H, hl, ?_, Frame.refl H ∅, ht, hl, hK.rest_counter h, hr⟩
      rw [hc]
      exact Fell.refl_none H
  · next c hc =>
      obtain ⟨k, hk, hr⟩ := Option.bind_eq_some_iff.mp hr
      obtain ⟨k', hdec, hr⟩ := Option.bind_eq_some_iff.mp hr
      obtain ⟨hpos, hk'⟩ := hK.of_dec hdec
      have hl₀ := load_setCounter (H := H) (c := c) k'
      have ht₀ : Typed obj (H.setCounter c k') := typed_congr ht hl₀
      have hptr : h.ptr = obj c := ht a h c hl hc
      split at hr
      · next hzero =>
          rw [releaseLast] at hr
          obtain ⟨H₂, hH₂, hr⟩ := Option.bind_eq_some_iff.mp hr
          obtain ⟨S, hcS, hfell, hframe, ht₂⟩ := deletePtr_fell hobj hdel ht₀ hptr hH₂
          obtain ⟨h₂, hl₂, hr⟩ := Option.bind_eq_some_iff.mp hr
          obtain ⟨c₂, hc₂, hr⟩ := Option.bind_eq_some_iff.mp hr
          obtain ⟨k₂, hk₂, hr⟩ := Option.bind_eq_some_iff.mp hr
          obtain ⟨o, ho, hstore⟩ := Option.bind_eq_some_iff.mp hr
          have hsame : H₂.load a = some h := by
            rw [hframe.load_eq fun n hn => hfell.not_mem hl₂ hn, hl₀, hl]
          rw [hsame, Option.some.injEq] at hl₂
          rw [← hl₂, hc, Option.some.injEq] at hc₂
          subst hc₂
          have hcount : H₂.counter? c = some k' := by
            rw [hfell.counter_eq c (by rw [refs_setCounter hk, if_pos rfl, hzero]),
              counter?_setCounter hk, if_pos rfl]
          rw [hcount, Option.some.injEq] at hk₂
          subst hk₂
          have hleft : (o.map K.strong).getD 0 = K.strong k' := by
            cases o with
            | none => exact hzero.symm
            | some k₃ => exact hK.strong_dispose k' k₃ ho
          have hall := (hfell.dec hk hpos hk' fun hoc _ => hcS hoc).dispose hcount hleft
            (by rw [refs_of_counter hk]; exact hpos)
          refine ⟨S, h, .null, H₂.putCounter c o, hl, hc ▸ hall, ?_, ?_, ?_, rfl, hstore⟩
          · refine ⟨?_, ?_, fun m hm => ?_⟩
            · rw [handles_putCounter, hframe.handles_eq]
              rfl
            · rw [nodes_putCounter, hframe.length_eq]
              rfl
            · rw [nodes_putCounter, hframe.nodes_eq m hm]
              rfl
          · exact typed_congr ht₂ (load_putCounter o)
          · rw [load_putCounter, hsame]
      · next hzero =>
          refine ⟨∅, h, K.rest h, H.setCounter c k', hl, ?_, ⟨rfl, rfl, fun _ _ => rfl⟩, ht₀,
            (hl₀ a).trans hl, hK.rest_counter h, hr⟩
          rw [hc]
          have hrefl : Fell K obj (H.setCounter c k') [] ∅ (H.setCounter c k') := Fell.refl _
          exact hrefl.dec hk hpos hk' fun _ h0 => absurd h0 hzero

theorem Fell.stored (hf : Fell K obj H t S H₁) (hs : Stored H₁ a v H') :
    Fell K obj H t S H' := by
  have hcounter : ∀ d, H'.counter? d = H₁.counter? d := fun d => by
    rw [counter?, counter?, hs.counters_eq]
  have hrefs : ∀ d, H'.refs K d = H₁.refs K d := fun d => refs_congr (hcounter d)
  exact ⟨fun d => by rw [hrefs, hf.refs_eq d], hf.alive,
    fun n hn => (hs.lifetime_eq n).trans (hf.dead n hn),
    fun n hobj hn hz => hf.complete n hobj hn ((hrefs n).symm.trans hz),
    fun d hd => (hcounter d).trans (hf.counter_eq d hd)⟩

theorem typed_stored (ht : Typed obj H) (hs : Stored H a v H') (hv : v.counter = none) :
    Typed obj H' := by
  intro b h c hl hc
  rw [hs.load_eq] at hl
  split at hl
  · cases hl
    rw [hv] at hc
    cases hc
  · exact ht b h c hl hc

/-- One after the other. -/
theorem Fell.trans (hf : Fell K obj H t S H₁) (hf' : Fell K obj H₁ t' S' H')
    (hkeep : ∀ m ∈ S', H₁.targets m = H.targets m ∧ H.lifetime? m = some .alive)
    (hstay : ∀ m ∈ S, H'.lifetime? m = some .dead) :
    Fell K obj H (t' ++ t) (S ∪ S') H' := by
  refine ⟨fun d => ?_, fun n hn => ?_, fun n hn => ?_, fun n hobj hn hz => ?_,
    fun d hd => ?_⟩
  · have htar : ∑ n ∈ S', holders (H₁.targets n) d = ∑ n ∈ S', holders (H.targets n) d :=
      Finset.sum_congr rfl fun m hm => by rw [(hkeep m hm).1]
    have hdisj : Disjoint S S' := by
      rw [Finset.disjoint_left]
      intro m hm hm'
      have hdead := hf.dead m hm
      rw [hf'.alive m hm'] at hdead
      cases hdead
    have h₁ := hf.refs_eq d
    have h₂ := hf'.refs_eq d
    rw [htar] at h₂
    rw [holders_append_add, Finset.sum_union hdisj]
    omega
  · rcases Finset.mem_union.mp hn with hn | hn
    · exact hf.alive n hn
    · exact (hkeep n hn).2
  · rcases Finset.mem_union.mp hn with hn | hn
    · exact hstay n hn
    · exact hf'.dead n hn
  · rcases Nat.eq_zero_or_pos (H₁.refs K n) with hz₁ | hpos
    · exact Finset.mem_union.mpr (.inl (hf.complete n hobj hn hz₁))
    · exact Finset.mem_union.mpr (.inr (hf'.complete n hobj hpos hz))
  · have hz₁ : H₁.refs K d = 0 := Nat.le_zero.mp (hd ▸ hf.refs_le d)
    rw [hf'.counter_eq d hz₁, hf.counter_eq d hd]

theorem destroyFields_fell (hK : K.Lawful ok) (hobj : ∀ c n, obj c = some n → n = c)
    {delete : Heap C → Nat → Option (Heap C)} (hdel : DeleteFells K obj delete) (n i : Nat) :
    ∀ H H', destroyFields K delete n i H = some H' → Typed obj H →
      H.lifetime? n = some .dying →
      ∃ S, n ∉ S ∧ Fell K obj H ((H.targets n).take i) S H' ∧ Frame H (insert n S) H' ∧
        Typed obj H' ∧ H'.lifetime? n = some .dying := by
  induction i with
  | zero =>
      intro H H' hd ht hn
      cases hd
      exact ⟨∅, Finset.notMem_empty n, Fell.refl H, Frame.refl _ _, ht, hn⟩
  | succ i ih =>
      intro H H' hd ht hn
      obtain ⟨H₂, hr, hd⟩ := Option.bind_eq_some_iff.mp hd
      obtain ⟨S, h, v, H₁, hl, hf, hframe, ht₁, hl₁, hv, hs⟩ := release_fell hK hobj hdel ht hr
      have hst := stored hs
      have hnS : n ∉ S := by
        intro hS
        rw [hf.alive n hS] at hn
        cases hn
      have hn₁ : H₁.nodes[n]? = H.nodes[n]? := hframe.nodes_eq n hnS
      have hn₂ : H₂.lifetime? n = some .dying := by
        rw [hst.lifetime_eq, lifetime?_congr hn₁, hn]
      have hother : ∀ m, m ≠ n → m ∉ S → H₂.nodes[m]? = H.nodes[m]? := by
        intro m hmn hmS
        rw [hst.nodes_eq m fun he => hmn (Option.some.inj he).symm, hframe.nodes_eq m hmS]
      have hf₂ := hf.stored hst
      obtain ⟨S', hnS', hf', hframe', ht', hn'⟩ := ih H₂ H' hd (typed_stored ht₁ hst hv) hn₂
      have htake : (H.targets n).take (i + 1) = (H₂.targets n).take i ++ [h.counter] := by
        obtain ⟨hset, -⟩ := targets_store hl₁ hs
        obtain ⟨x, hx, -, hfi⟩ := load_field hl
        rw [hset, targets_congr hn₁, List.take_set_of_le (Nat.le_refl i), List.take_add_one,
          targets_of_node hx, List.getElem?_map, hfi]
        rfl
      rw [htake]
      refine ⟨S ∪ S', ?_, hf₂.trans hf' (fun m hm => ?_) (fun m hm => ?_), ?_, ht', hn'⟩
      · rw [Finset.mem_union, not_or]
        exact ⟨hnS, hnS'⟩
      · have halive := hf'.alive m hm
        have hmn : m ≠ n := fun he => hnS' (he ▸ hm)
        have hmS : m ∉ S := by
          intro hS
          rw [hf₂.dead m hS] at halive
          cases halive
        have hsame := hother m hmn hmS
        exact ⟨targets_congr hsame, (lifetime?_congr hsame).symm.trans halive⟩
      · have hdead := hf₂.dead m hm
        have hmn : m ≠ n := fun he => hnS (he ▸ hm)
        have hmS' : m ∉ S' := by
          intro hS'
          rw [hf'.alive m hS'] at hdead
          cases hdead
        rw [lifetime?_congr (hframe'.nodes_eq m ?_), hdead]
        rw [Finset.mem_insert, not_or]
        exact ⟨hmn, hmS'⟩
      · refine ⟨?_, ?_, fun m hm => ?_⟩
        · rw [hframe'.handles_eq, hst.handles_eq (fun he => by cases he), hframe.handles_eq]
        · rw [hframe'.length_eq, hst.length_eq, hframe.length_eq]
        · rw [Finset.mem_insert, Finset.mem_union, not_or, not_or] at hm
          rw [hframe'.nodes_eq m, hother m hm.1 hm.2.1]
          rw [Finset.mem_insert, not_or]
          exact ⟨hm.1, hm.2.2⟩

/-- The node itself has fallen, and all that fell with its fields. -/
theorem deleteNode_fell (hK : K.Lawful ok) (hobj : ∀ c n, obj c = some n → n = c) :
    ∀ fuel, DeleteFells K obj (deleteNode K fuel) := by
  intro fuel
  induction fuel with
  | zero =>
      intro H n H' hd
      cases hd
  | succ fuel ih =>
      intro H n H' hd ht
      obtain ⟨x, hx, hd⟩ := Option.bind_eq_some_iff.mp hd
      split at hd
      · next halive =>
          obtain ⟨H₁, hfields, hd⟩ := Option.bind_eq_some_iff.mp hd
          cases hd
          have hn : H.lifetime? n = some .alive := by rw [lifetime?_of_node hx, halive]
          have htar : ∀ m, (H.setLifetime n .dying).targets m = H.targets m :=
            targets_setLifetime n .dying
          have hlife := lifetime?_setLifetime hn .dying
          obtain ⟨S, hnS, hf, hframe, ht₁, hn₁⟩ := destroyFields_fell hK hobj ih n _ _ _ hfields
            (typed_congr ht (load_setLifetime hn)) ((hlife n).trans (if_pos rfl))
          have hall : (H.targets n).take x.fields.length = H.targets n := by
            rw [targets_of_node hx, List.take_of_length_le (Nat.le_of_eq (List.length_map _))]
          have hlife₁ := lifetime?_setLifetime hn₁ .dead
          refine ⟨insert n S, Finset.mem_insert_self n S, ⟨fun d => ?_, fun m hm => ?_,
            fun m hm => ?_, fun m hobj hm hz => ?_, hf.counter_eq⟩, ?_, ?_⟩
          · have hd := hf.refs_eq d
            rw [show ({ H.setLifetime n .dying with deleted := H.deleted ++ [n] } : Heap C).targets
              = H.targets from funext htar, hall] at hd
            rw [Finset.sum_insert hnS]
            exact hd.trans (by
              show _ + _ + _ = _ + holders [] d + _
              rw [show holders ([] : List (Option Nat)) d = 0 from rfl]
              exact Nat.add_assoc _ _ _)
          · rcases Finset.mem_insert.mp hm with rfl | hm
            · exact hn
            · have hma := hf.alive m hm
              have hnm : n ≠ m := fun he => hnS (he ▸ hm)
              exact ((hlife m).trans (if_neg hnm)).symm.trans hma
          · rw [hlife₁]
            split
            · rfl
            · next hnm =>
                rcases Finset.mem_insert.mp hm with rfl | hm
                · exact absurd rfl hnm
                · exact hf.dead m hm
          · exact Finset.mem_insert_of_mem (hf.complete m hobj hm hz)
          · refine ⟨hframe.handles_eq, ?_, fun m hm => ?_⟩
            · exact (List.length_modify ..).trans (hframe.length_eq.trans (List.length_modify ..))
            · have hnm : n ≠ m := fun he => hm (he ▸ Finset.mem_insert_self n S)
              rw [nodes_setLifetime, if_neg hnm, hframe.nodes_eq m hm]
              exact (nodes_setLifetime n .dying m).trans (if_neg hnm)
          · exact fun b h c hl => ht₁ b h c (load_of_setLifetime_dead hl)
      · cases hd

end Ycetl.Ref.Shared.Heap
