import Ycetl.Lib.Cycles
import Ycetl.Lib.Runs
import Ycetl.Proofs.SharedAssign
import Ycetl.Proofs.SharedHoldings
import Ycetl.Ref.SharedNodes

/-!
# What counting does not delete

A node is alive exactly as long as a handle holds it, so a node that is alive
after the last handle outside has gone is held by a field of a node that is
alive: going back from field to field never ends, and the nodes are finitely
many. What reference counting leaks is what is behind a cycle of nodes, and
nothing else; and no order in which the handles outside go makes a difference
to that, since a node behind a cycle never falls with a handle outside.

This is proved of all programs over `shared_ptr` and over `trivial_shared_ptr`
that have a result; and a program has one if no assignment and no `reset` in it
deletes the node of its own target or source.
-/

namespace Ycetl.Ref.Shared.Heap

open Ycetl.Lib

variable {C : Type} {K : Counter C} {ok : C → Prop} {fuel : Nat} {H H₁ H' : Heap C}
  {a b l : Loc} {g h v y : Handle} {c m n i : Nat}

/-! ## Releases -/

/-- The place is not in a node that falls with the handle at `a`. -/
def Stays (H : Heap C) (a l : Loc) : Prop := ∀ n, l.node = some n → ¬ Falls H a n

theorem stays_handle (H : Heap C) (a : Loc) (i : Nat) : Stays H a (.handle i) :=
  fun n hn => by cases hn

/-- What a release that has a result has done to a counted heap. -/
structure Release (K : Counter C) (ok : C → Prop) (H : Heap C) (a : Loc) (H' : Heap C) :
    Prop where
  released : Released K ok H a H'
  stays : Stays H a a
  alive_iff : ∀ n, H'.lifetime? n = some .alive ↔ H.lifetime? n = some .alive ∧ ¬ Falls H a n
  read : ∀ l g, l ≠ a → H'.load l = some g → H.load l = some g ∧ Stays H a l
  length_eq : H'.nodes.length = H.nodes.length
  counters_eq : H'.counters.length = H.counters.length

theorem release_spec (hK : K.Lawful ok) (hH : Counted K ok H) (hfuel : H.nodes.length ≤ fuel)
    (hr : release K (deleteNode K fuel) H a = some H') : Release K ok H a H' := by
  have hobj : ∀ c n, H.object? c = some n → n = c := fun _ _ => object?_eq
  have hfell : DeleteFells K H.object? (deleteNode K fuel) := deleteNode_fell hK hobj fuel
  obtain ⟨S, h, v, H₁, hl, hf₁, hframe, -, hread, hv, hs⟩ :=
    release_fell hK hobj hfell hH.typed hr
  have hst := stored hs
  have hf := hf₁.stored hst
  have haS : ∀ n, a.node = some n → n ∉ S := fun n hn => hf₁.not_mem hread hn
  have hstays : Stays H a a := fun n hn hfalls =>
    haS n hn (falls_mem hH hl hf₁ haS hfalls (hH.alive_of_load hl hn))
  obtain ⟨H₂, hr₂, hrel⟩ := release_vacant hK hH hl hstays hfuel
  cases hr.symm.trans hr₂
  -- What stays is not deleted.
  obtain ⟨H₀, hs₀⟩ := exists_store hl .null
  have hready := hH.ready hl hstays hs₀ hfuel
  obtain ⟨H₃, hr₃, hkept⟩ := release_ready hK hobj hfell (deleteNode_ready hK hobj fuel) hl hready
    fun n hn => .inl (mem_kept.mpr ⟨hH.alive_of_load hl hn, hstays n hn⟩)
  cases hr.symm.trans hr₃
  have hlife : ∀ n, n ∉ S → H'.lifetime? n = H.lifetime? n := fun n hn => by
    rw [hst.lifetime_eq, lifetime?_congr (hframe.nodes_eq n hn)]
  refine ⟨hrel, hstays, fun n => ⟨fun hn => ?_, fun hn => ?_⟩, fun l g hla hg => ?_,
    hst.length_eq.trans hframe.length_eq, (quietBut_release (quiet_deleteNode fuel) hr).counters⟩
  · have hnS : n ∉ S := by
      intro hS
      rw [hf.dead n hS] at hn
      cases hn
    rw [hlife n hnS] at hn
    exact ⟨hn, fun hfalls => hnS (falls_mem hH hl hf₁ haS hfalls hn)⟩
  · exact hkept.kept n (mem_kept.mpr hn)
  · have hlS : ∀ n, l.node = some n → n ∉ S := fun n hn => hf.not_mem hg hn
    have hg₀ : H.load l = some g := by
      rw [hst.load_eq, if_neg hla, hframe.load_eq hlS] at hg
      exact hg
    exact ⟨hg₀, fun n hn hfalls =>
      hlS n hn (falls_mem hH hl hf₁ haS hfalls (hH.alive_of_load hg₀ hn))⟩

/-! ## Heaps of a program -/

/-- Every count is the number of handles, and a node is alive while it has one. -/
structure Linked (K : Counter C) (ok : C → Prop) (H : Heap C) : Prop extends Counted K ok H where
  length_eq : H.counters.length = H.nodes.length
  alive_iff : ∀ n, H.lifetime? n = some .alive ↔ ∃ l, H.Holds l n

/-- A call that deletes nothing, and after which the same nodes are held. -/
theorem Linked.same (hH : Linked K ok H) (hc : Counted K ok H')
    (hlife : ∀ n, H'.lifetime? n = H.lifetime? n)
    (hlen : H'.counters.length = H'.nodes.length)
    (hholds : ∀ n, (∃ l, H'.Holds l n) ↔ ∃ l, H.Holds l n) : Linked K ok H' :=
  ⟨hc, hlen, fun n => by rw [hlife, hH.alive_iff, hholds]⟩

/-- What does not fall is held from a place that stays. -/
theorem Linked.held (hH : Linked K ok H) (hn : H.lifetime? n = some .alive)
    (hfalls : ¬ Falls H a n) : ∃ l, l ≠ a ∧ Stays H a l ∧ H.Holds l n := by
  by_contra hno
  refine hfalls (.intro ((hH.alive_iff n).mp hn) (fun i hi => ?_) fun m i hi hia => ?_)
  · by_contra hia
    exact hno ⟨.handle i, hia, stays_handle H a i, hi⟩
  · by_contra hm
    refine hno ⟨.field m i, hia, fun k hk => ?_, hi⟩
    cases hk
    exact hm

/-- A call that releases, and then hands over what is held from the places that
stay. -/
theorem Linked.afterRelease (hH : Linked K ok H) (hr : Release K ok H a H₁) (hc : Counted K ok H')
    (hlife : ∀ n, H'.lifetime? n = H₁.lifetime? n)
    (hlen : H'.nodes.length = H₁.nodes.length)
    (hcounters : H'.counters.length = H₁.counters.length)
    (hkept : ∀ l n, l ≠ a → H₁.Holds l n → ∃ l', H'.Holds l' n)
    (hsource : ∀ l n, H'.Holds l n → ∃ l', l' ≠ a ∧ H₁.Holds l' n) : Linked K ok H' := by
  refine ⟨hc, ?_, fun n => ⟨fun hn => ?_, fun hn => ?_⟩⟩
  · rw [hcounters, hlen, hr.counters_eq, hr.length_eq, hH.length_eq]
  · rw [hlife] at hn
    obtain ⟨halive, hfalls⟩ := (hr.alive_iff n).mp hn
    obtain ⟨l, hla, hstays, g, hg, hgn⟩ := hH.held halive hfalls
    exact hkept l n hla ⟨g, (hr.released.load_eq l hla hstays).trans hg, hgn⟩
  · obtain ⟨l, hl⟩ := hn
    obtain ⟨l', hla, g, hg, hgn⟩ := hsource l n hl
    obtain ⟨hg, hstays⟩ := hr.read l' g hla hg
    rw [hlife, hr.alive_iff, hH.alive_iff]
    exact ⟨⟨l', g, hg, hgn⟩, not_falls_of_holds ⟨g, hg, hgn⟩ hla hstays⟩

/-! ## Handles outside that come and go -/

theorem load_addHandle (H : Heap C) (y : Handle) (l : Loc) :
    (H.addHandle y).load l = if l = .handle H.handles.length then some y else H.load l := by
  cases l with
  | handle i =>
      refine (record?_append H.handles (some y) i).trans ?_
      simp only [Loc.handle.injEq]
      rfl
  | field n i =>
      rw [if_neg fun he => by cases he]
      rfl

theorem load_new (H : Heap C) : H.load (.handle H.handles.length) = none :=
  record?_of_length_le (Nat.le_refl _)

/-- The new handle holds what it was given, and the others what they held. -/
theorem holds_addHandle {y : Handle} {l : Loc} {n : Nat} : (H.addHandle y).Holds l n ↔
    (l = .handle H.handles.length ∧ y.counter = some n) ∨ H.Holds l n := by
  constructor
  · intro hl
    obtain ⟨g, hg, hgn⟩ := hl
    rw [load_addHandle] at hg
    split at hg
    · next hl =>
        cases hg
        exact Or.inl ⟨hl, hgn⟩
    · exact Or.inr ⟨g, hg, hgn⟩
  · intro hl
    rcases hl with hl | hl
    · obtain ⟨rfl, hn⟩ := hl
      exact ⟨y, by rw [load_addHandle, if_pos rfl], hn⟩
    · obtain ⟨g, hg, hgn⟩ := hl
      refine ⟨g, ?_, hgn⟩
      rw [load_addHandle, if_neg, hg]
      intro hl
      rw [hl, load_new] at hg
      cases hg

theorem live_addHandle (H : Heap C) (y : Handle) (c : Nat) :
    (H.addHandle y).live c = H.live c + holders [y.counter] c := by
  have hout : (H.addHandle y).outside = H.outside ++ [y.counter] := List.map_append
  show holders (H.addHandle y).outside c + ∑ n ∈ H.aliveSet, holders (H.targets n) c = _
  rw [hout, holders_append_add, live, Nat.add_right_comm]

/-- One handle more than was counted. -/
theorem addHandle_sound (hH : Counted K ok H) (hy : H.Fits y) :
    Sound K ok (H.addHandle y) ∧
      ∀ c, (H.addHandle y).live c = (H.addHandle y).refs K c + holders [y.counter] c := by
  refine ⟨⟨hH.ok, hH.settled, fun l g hg hc => ?_, fun l g c hg hc => ?_⟩, fun c => ?_⟩
  · rw [load_addHandle] at hg
    split at hg
    · cases hg
      exact hy.1 hc
    · exact hH.empty l g hg hc
  · rw [load_addHandle] at hg
    split at hg
    · cases hg
      exact hy.2 c hc
    · exact hH.object l g c hg hc
  · rw [live_addHandle, ← hH.refs_eq c]
    rfl

theorem Counted.fits (hH : Counted K ok H) (hl : H.load l = some y) : H.Fits y :=
  ⟨hH.empty l y hl, fun c => hH.object l y c hl⟩

theorem fits_null (H : Heap C) : H.Fits .null := ⟨fun _ => rfl, fun c hc => by cases hc⟩

theorem acquire_frame (hr : H.acquire K y = some H') : H'.nodes = H.nodes ∧
    H'.handles = H.handles ∧ H'.counters.length = H.counters.length := by
  rw [acquire] at hr
  split at hr
  · cases hr
    exact ⟨rfl, rfl, rfl⟩
  · obtain ⟨k, -, hr⟩ := Option.bind_eq_some_iff.mp hr
    cases hr
    exact ⟨rfl, rfl, List.length_set ..⟩

/-- A new handle and its counter can be made in either order. -/
theorem acquire_addHandle (H : Heap C) (y v : Handle) :
    (H.addHandle v).acquire K y = (H.acquire K y).map fun H => H.addHandle v := by
  rw [acquire, acquire]
  cases y.counter with
  | none => rfl
  | some c =>
      show ((H.counter? c).bind fun k => _) = ((H.counter? c).bind fun k => _).map _
      cases H.counter? c <;> rfl

theorem lifetime?_of_nodes (hn : H'.nodes = H.nodes) (n : Nat) : H'.lifetime? n = H.lifetime? n :=
  lifetime?_congr (by rw [hn])

/-! ## Each call keeps the heap linked -/

theorem linked_empty : Linked K ok (empty : Heap C) := by
  have hload : ∀ l h, (empty : Heap C).load l ≠ some h := by
    intro l h hl
    cases l with
    | handle i => cases hl
    | field n i => cases hl
  refine ⟨⟨⟨fun c k hk => (by cases hk), fun n hn => (by cases hn),
    fun l h hl => absurd hl (hload l h), fun l h c hl => absurd hl (hload l h)⟩, fun c => rfl⟩, rfl,
    fun n => ⟨fun hn => (by cases hn), fun hn => ?_⟩⟩
  obtain ⟨l, h, hl, -⟩ := hn
  exact absurd hl (hload l h)

theorem Linked.addNull (hH : Linked K ok H) : Linked K ok (H.addHandle .null) := by
  obtain ⟨hsound, hlive⟩ := addHandle_sound hH.toCounted (fits_null H)
  refine hH.same ⟨hsound, fun c => (hlive c).symm⟩ (fun _ => rfl) hH.length_eq fun n => ?_
  refine exists_congr fun l => holds_addHandle.trans (or_iff_right fun hl => ?_)
  cases hl.2

/-- A second handle holds nothing that was not held. -/
theorem holds_again (hl : H.load b = some y) (n : Nat) :
    (∃ l, (H.addHandle y).Holds l n) ↔ ∃ l, H.Holds l n := by
  constructor
  · intro hn
    obtain ⟨l, hl'⟩ := hn
    rcases holds_addHandle.mp hl' with hnew | hold
    · exact ⟨b, y, hl, hnew.2⟩
    · exact ⟨l, hold⟩
  · intro hn
    obtain ⟨l, hl'⟩ := hn
    exact ⟨l, holds_addHandle.mpr (Or.inr hl')⟩

theorem Linked.copy (hK : K.Lawful ok) (hH : Linked K ok H) (hr : H.copy K b = some H') :
    Linked K ok H' := by
  obtain ⟨y, hl, hr⟩ := Option.bind_eq_some_iff.mp hr
  obtain ⟨H₁, hacq, hr⟩ := Option.bind_eq_some_iff.mp hr
  obtain ⟨hsound, hlive⟩ := addHandle_sound hH.toCounted (hH.fits hl)
  obtain ⟨H₂, hacq₂, hc, hload, hlife⟩ := acquire_counted hK hsound hlive
    fun c hc => hH.refs_pos ⟨y, hl, hc⟩
  have hsame : H₂ = H' := by
    rw [acquire_addHandle, hacq] at hacq₂
    exact Option.some.inj (hacq₂.symm.trans hr)
  subst hsame
  have hframe := acquire_frame hacq₂
  refine hH.same hc hlife ?_ fun n => ?_
  · rw [hframe.2.2, hframe.1]
    exact hH.length_eq
  · rw [← holds_again hl n]
    exact exists_congr fun l => exists_congr fun g => by rw [hload]

theorem exists_copy (hK : K.Lawful ok) (hH : Linked K ok H) (hl : H.load b = some y) :
    ∃ H', H.copy K b = some H' := by
  obtain ⟨hsound, hlive⟩ := addHandle_sound hH.toCounted (hH.fits hl)
  obtain ⟨H₂, hacq, -⟩ := acquire_counted hK hsound hlive fun c hc => hH.refs_pos ⟨y, hl, hc⟩
  rw [acquire_addHandle] at hacq
  obtain ⟨H₁, hacq₁, -⟩ := Option.map_eq_some_iff.mp hacq
  exact ⟨H₁.addHandle y, by rw [copy, hl, Option.bind_eq_bind, Option.bind_some, hacq₁]; rfl⟩

theorem ne_new (hl : H.load b = some y) : b ≠ .handle H.handles.length := by
  rintro rfl
  rw [load_new] at hl
  cases hl

theorem load_addHandle_old (y : Handle) (hl : H.load b = some v) :
    (H.addHandle y).load b = some v := by
  rw [load_addHandle, if_neg (ne_new hl), hl]

theorem exists_moveConstruct (hl : H.load b = some y) : ∃ H', H.moveConstruct b = some H' := by
  obtain ⟨H', hs⟩ := exists_store (load_addHandle_old y hl) .null
  exact ⟨H', by rw [moveConstruct, hl]; exact hs⟩

theorem Linked.moveConstruct (hH : Linked K ok H) (hr : H.moveConstruct b = some H') :
    Linked K ok H' := by
  obtain ⟨y, hl, hs⟩ := Option.bind_eq_some_iff.mp hr
  obtain ⟨hsound, hlive⟩ := addHandle_sound hH.toCounted (hH.fits hl)
  have hl₁ := load_addHandle_old y hl
  have hst := stored hs
  refine hH.same (null_counted hsound hlive hl₁ hs) hst.lifetime_eq ?_ fun n => ?_
  · rw [hst.counters_eq, hst.length_eq]
    exact hH.length_eq
  · rw [← holds_again hl n]
    constructor
    · intro hn
      obtain ⟨l, hl'⟩ := hn
      exact ⟨l, (holds_of_emptied hst hl').2⟩
    · intro hn
      obtain ⟨l, hl'⟩ := hn
      by_cases hlb : l = b
      · subst hlb
        obtain ⟨g, hg, hgn⟩ := hl'
        cases hl₁.symm.trans hg
        have hnew : (H.addHandle y).Holds (.handle H.handles.length) n :=
          holds_addHandle.mpr (Or.inl ⟨rfl, hgn⟩)
        exact ⟨_, holds_emptied hst hnew (Ne.symm (ne_new hl))⟩
      · exact ⟨l, holds_emptied hst hl' hlb⟩

theorem Linked.copyAssign (hK : K.Lawful ok) (hH : Linked K ok H)
    (hfuel : H.nodes.length ≤ fuel) (hr : H.copyAssign K fuel a b = some H') :
    Linked K ok H' := by
  by_cases hab : a = b
  · rw [Heap.copyAssign, if_pos hab, Option.some.injEq] at hr
    exact hr ▸ hH
  · have hcopy := hr
    rw [Heap.copyAssign, if_neg hab] at hr
    obtain ⟨H₁, hrel, hr⟩ := Option.bind_eq_some_iff.mp hr
    obtain ⟨y, hb₁, hr⟩ := Option.bind_eq_some_iff.mp hr
    obtain ⟨H₂, hs, hacq⟩ := Option.bind_eq_some_iff.mp hr
    have hspec := release_spec hK hH.toCounted hfuel hrel
    obtain ⟨h, ha, -⟩ := Option.bind_eq_some_iff.mp hrel
    obtain ⟨hb, hstays⟩ := hspec.read b y (Ne.symm hab) hb₁
    have hap : Apart H a b := fun n hn => hn.elim (hspec.stays n) (hstays n)
    obtain ⟨H₃, hr₃, htook⟩ := copyAssign_took hK hH.toCounted hab ha hb hap hfuel
    cases hcopy.symm.trans hr₃
    have hst := stored hs
    have hframe := acquire_frame hacq
    have hload : ∀ l, H'.load l = if l = a then some y else H₁.load l := fun l => by
      rw [← hst.load_eq]
      exact load_congr hframe.2.1 fun n _ => by rw [hframe.1]
    refine hH.afterRelease hspec htook.counted (fun n => ?_) ?_ ?_ (fun l n hla hl => ?_)
      fun l n hl => ?_
    · rw [lifetime?_of_nodes hframe.1, hst.lifetime_eq]
    · rw [hframe.1, hst.length_eq]
    · rw [hframe.2.2, hst.counters_eq]
    · obtain ⟨g, hg, hgn⟩ := hl
      exact ⟨l, g, by rw [hload, if_neg hla, hg], hgn⟩
    · obtain ⟨g, hg, hgn⟩ := hl
      rw [hload] at hg
      split at hg
      · cases hg
        exact ⟨b, Ne.symm hab, y, hb₁, hgn⟩
      · next hla => exact ⟨l, hla, g, hg, hgn⟩

theorem load_drop (hl : H.load (.handle i) = some v) (l : Loc) :
    ({ H with handles := H.handles.set i none } : Heap C).load l =
      if l = .handle i then none else H.load l := by
  cases l with
  | handle j =>
      refine (record?_set (lt_of_record? hl) none j).trans ?_
      simp only [Loc.handle.injEq, eq_comm (a := i)]
      rfl
  | field n j =>
      rw [if_neg fun he => by cases he]
      rfl

/-- The place of a handle that is destroyed held nothing any more. -/
theorem Vacant.drop (hv : Vacant K ok H (.handle i)) :
    Counted K ok { H with handles := H.handles.set i none } := by
  obtain ⟨v, hl, hvc⟩ := hv.vacant
  have hload := load_drop hl
  refine ⟨⟨hv.ok, hv.settled, fun l g hg hc => ?_, fun l g c hg hc => ?_⟩, fun c => ?_⟩
  · rw [hload] at hg
    split at hg
    · cases hg
    · next hla => exact hv.empty l g hla hg hc
  · rw [hload] at hg
    split at hg
    · cases hg
    · next hla => exact hv.object l g c hla hg hc
  · have hget : H.outside[i]? = some none := by
      rw [outside, List.getElem?_map, getElem?_of_record? hl]
      exact congrArg some hvc
    have hout : ({ H with handles := H.handles.set i none } : Heap C).outside =
        H.outside.set i none := List.map_set
    have hlive : ({ H with handles := H.handles.set i none } : Heap C).live c =
        holders (H.outside.set i none) c + ∑ n ∈ H.aliveSet, holders (H.targets n) c := by
      rw [live, hout]
      rfl
    have hset := holders_set_add hget none c
    refine (hv.refs_eq c).trans ?_
    rw [hlive, live]
    omega

/-- A field of one node holds the other. -/
def Link (H : Heap C) (m n : Nat) : Prop := ∃ i, H.Holds (.field m i) n

/-- What the end of a handle outside does. -/
structure Destroyed (K : Counter C) (ok : C → Prop) (H : Heap C) (i : Nat) (H' : Heap C) :
    Prop where
  linked : Linked K ok H'
  load_eq : ∀ j, H'.load (.handle j) = if j = i then none else H.load (.handle j)
  link_iff : ∀ m n, H'.Link m n ↔ H.Link m n ∧ ¬ Falls H (.handle i) m

theorem destroy_spec (hK : K.Lawful ok) (hH : Linked K ok H) (hfuel : H.nodes.length ≤ fuel)
    (hr : H.destroy K fuel i = some H') : Destroyed K ok H i H' := by
  obtain ⟨H₁, hrel, hr⟩ := Option.bind_eq_some_iff.mp hr
  cases hr
  have hspec := release_spec hK hH.toCounted hfuel hrel
  obtain ⟨v, hl, -⟩ := hspec.released.vacant.vacant
  have hload := load_drop hl
  refine ⟨hH.afterRelease hspec hspec.released.vacant.drop (fun _ => rfl) rfl rfl
    (fun l n hla hl => ?_) fun l n hl => ?_, fun j => ?_,
    fun m n => ⟨fun hlink => ?_, fun hlink => ?_⟩⟩
  · obtain ⟨g, hg, hgn⟩ := hl
    exact ⟨l, g, by rw [hload, if_neg hla, hg], hgn⟩
  · obtain ⟨g, hg, hgn⟩ := hl
    rw [hload] at hg
    split at hg
    · cases hg
    · next hla => exact ⟨l, hla, g, hg, hgn⟩
  · rw [hload]
    simp only [Loc.handle.injEq]
    split
    · rfl
    · next hj =>
        exact hspec.released.load_eq _ (fun he => hj (Loc.handle.inj he)) (stays_handle H _ j)
  · obtain ⟨j, g, hg, hgn⟩ := hlink
    rw [hload, if_neg (fun he => by cases he)] at hg
    obtain ⟨hg, hstays⟩ := hspec.read _ g (fun he => by cases he) hg
    exact ⟨⟨j, g, hg, hgn⟩, hstays m rfl⟩
  · obtain ⟨⟨j, g, hg, hgn⟩, hfalls⟩ := hlink
    have hstays : Stays H (.handle i) (.field m j) := by
      intro k hk
      cases hk
      exact hfalls
    refine ⟨j, g, ?_, hgn⟩
    rw [hload, if_neg (fun he => by cases he)]
    exact (hspec.released.load_eq _ (fun he => by cases he) hstays).trans hg

/-- A handle outside can always go. -/
theorem exists_destroy (hK : K.Lawful ok) (hH : Linked K ok H) (hfuel : H.nodes.length ≤ fuel)
    (hl : H.load (.handle i) = some h) : ∃ H', H.destroy K fuel i = some H' := by
  obtain ⟨H₁, hr, -⟩ := release_vacant hK hH.toCounted hl (stays_handle H _ i) hfuel
  exact ⟨_, by rw [destroy, hr]; rfl⟩

/-- A new node and its counter, which counts a handle that is not there yet. -/
def grow (one : C) (H : Heap C) (fields : Nat) : Heap C :=
  { H with
    nodes := H.nodes ++ [⟨.alive, List.replicate fields .null⟩]
    counters := H.counters ++ [some one] }

theorem nodes_grow (one : C) (H : Heap C) (fields n : Nat) : (H.grow one fields).nodes[n]? =
    if n = H.nodes.length then some ⟨.alive, List.replicate fields .null⟩ else H.nodes[n]? := by
  rcases Nat.lt_trichotomy n H.nodes.length with hn | rfl | hn
  · rw [if_neg (by omega)]
    exact List.getElem?_append_left hn
  · rw [if_pos rfl]
    exact List.getElem?_concat_length
  · have hlen : (H.grow one fields).nodes.length = H.nodes.length + 1 := List.length_append
    rw [if_neg (by omega), List.getElem?_eq_none (by omega), List.getElem?_eq_none (by omega)]

theorem lifetime?_grow (one : C) (H : Heap C) (fields n : Nat) :
    (H.grow one fields).lifetime? n =
      if n = H.nodes.length then some .alive else H.lifetime? n := by
  rw [lifetime?, nodes_grow]
  split <;> rfl

theorem load_grow {one : C} {fields : Nat} (hl : (H.grow one fields).load l = some g) :
    H.load l = some g ∨ g = .null := by
  cases l with
  | handle i => exact Or.inl hl
  | field n i =>
      obtain ⟨x, hx, hdead, hf⟩ := load_field hl
      rw [nodes_grow] at hx
      split at hx
      · cases hx
        exact Or.inr (List.eq_of_mem_replicate (List.mem_of_getElem? hf))
      · exact Or.inl (by rw [load_field_of hx hdead, hf])

theorem load_of_grow (one : C) (fields : Nat) (hl : H.load l = some g) :
    (H.grow one fields).load l = some g := by
  cases l with
  | handle i => exact hl
  | field n i =>
      obtain ⟨x, hx, hdead, hf⟩ := load_field hl
      have hlt := (List.getElem?_eq_some_iff.mp hx).1
      rw [load_field_of (x := x) _ hdead, hf]
      rw [nodes_grow, if_neg (Nat.ne_of_lt hlt), hx]

/-- The fields of the new node hold nothing. -/
theorem live_grow (one : C) (H : Heap C) (fields c : Nat) :
    (H.grow one fields).live c = H.live c := by
  have hnew : H.nodes.length ∉ H.aliveSet := by
    intro hmem
    rw [mem_aliveSet, lifetime?, List.getElem?_eq_none (Nat.le_refl _)] at hmem
    cases hmem
  have hset : (H.grow one fields).aliveSet = insert H.nodes.length H.aliveSet := by
    ext n
    rw [mem_aliveSet, Finset.mem_insert, mem_aliveSet, lifetime?_grow]
    split
    · next hn => exact iff_of_true rfl (Or.inl hn)
    · next hn => exact (or_iff_right hn).symm
  have hzero : holders ((H.grow one fields).targets H.nodes.length) c = 0 := by
    rw [targets_of_node (by rw [nodes_grow, if_pos rfl]), List.map_replicate, holders,
      List.count_replicate]
    rfl
  have hrest : ∀ n ∈ H.aliveSet, holders ((H.grow one fields).targets n) c =
      holders (H.targets n) c := by
    intro n hn
    have hne : n ≠ H.nodes.length := fun he => hnew (he ▸ hn)
    rw [targets_congr ((nodes_grow one H fields n).trans (if_neg hne))]
  rw [live, live, hset, Finset.sum_insert hnew, hzero, Nat.zero_add, Finset.sum_congr rfl hrest]
  rfl

/-- `new T`, with its owner. -/
theorem Linked.make {one : C} (hH : Linked K ok H) (hone : K.strong one = 1) (hok : ok one)
    (fields : Nat) : Linked K ok (H.make one fields) := by
  let y : Handle := ⟨some H.counters.length, some H.nodes.length⟩
  have hmake : H.make one fields = (H.grow one fields).addHandle y := rfl
  have hcounter : ∀ c, (H.make one fields).counter? c =
      if c = H.nodes.length then some one else H.counter? c := fun c => by
    rw [← hH.length_eq]
    exact record?_append H.counters (some one) c
  have hlife : ∀ n, (H.make one fields).lifetime? n =
      if n = H.nodes.length then some .alive else H.lifetime? n := lifetime?_grow one H fields
  have hload : ∀ l g c, (H.make one fields).load l = some g → g.counter = some c →
      g = y ∨ H.load l = some g := by
    intro l g c hg hc
    rw [hmake, load_addHandle] at hg
    split at hg
    · exact Or.inl (Option.some.inj hg).symm
    · rcases load_grow hg with hg | rfl
      · exact Or.inr hg
      · cases hc
  have hobject : ∀ c, c ≠ H.nodes.length → (H.make one fields).object? c = H.object? c :=
    fun c hc => object?_congr (by rw [hlife, if_neg hc])
  refine ⟨⟨⟨fun c k hk hpos => ?_, fun n hn => ?_, fun l g hg hc => ?_, fun l g c hg hc => ?_⟩,
    fun c => ?_⟩, ?_, fun n => ⟨fun hn => ?_, fun hn => ?_⟩⟩
  · rw [hcounter] at hk
    split at hk
    · exact Option.some.inj hk ▸ hok
    · exact hH.ok c k hk hpos
  · rw [hlife] at hn
    split at hn
    · cases hn
    · exact hH.settled n hn
  · rw [hmake, load_addHandle] at hg
    split at hg
    · cases hg
      cases hc
    · rcases load_grow hg with hg | rfl
      · exact hH.empty l g hg hc
      · rfl
  · rcases hload l g c hg hc with rfl | hg
    · cases hc
      rw [hH.length_eq, object?_self.mpr (by rw [hlife, if_pos rfl])]
    · have hne : c ≠ H.nodes.length := by
        intro he
        have hlt := hH.refs_pos ⟨g, hg, hc⟩
        obtain ⟨k, hk, -⟩ := counter_of_refs hlt
        have := lt_of_record? hk
        have := hH.length_eq
        omega
      rw [hobject c hne]
      exact hH.object l g c hg hc
  · have hy : y.counter = some H.nodes.length := congrArg some hH.length_eq
    rw [hmake, live_addHandle, live_grow, ← hH.refs_eq c, ← hmake, refs, hcounter, refs,
      holders_singleton, hy]
    by_cases hc : c = H.nodes.length
    · have hnone : H.counter? c = none := record?_of_length_le (by rw [hH.length_eq, hc])
      rw [if_pos hc, hnone, if_pos (congrArg some hc.symm)]
      exact hone
    · rw [if_neg hc, if_neg fun he => hc (Option.some.inj he).symm]
      rfl
  · rw [Heap.make, List.length_append, List.length_append, hH.length_eq]
    rfl
  · rw [hlife] at hn
    split at hn
    · next hnew =>
        refine ⟨.handle H.handles.length, y, ?_, ?_⟩
        · rw [hmake, load_addHandle]
          exact if_pos rfl
        · rw [hnew]
          exact congrArg some hH.length_eq
    · obtain ⟨l, g, hg, hgn⟩ := (hH.alive_iff n).mp hn
      refine ⟨l, holds_addHandle.mpr (Or.inr ⟨g, load_of_grow one fields hg, hgn⟩)⟩
  · obtain ⟨l, g, hg, hgn⟩ := hn
    rw [hlife]
    split
    · rfl
    · next hnew =>
        rcases hload l g n hg hgn with rfl | hg
        · exact absurd ((Option.some.inj hgn).symm.trans hH.length_eq) hnew
        · exact (hH.alive_iff n).mpr ⟨l, g, hg, hgn⟩

/-! ## The calls that one class has -/

theorem Linked.moveAssign {H H' : Heap ControlBlock} {ok : ControlBlock → Prop}
    (hK : sharedCounter.Lawful ok) (hH : Linked sharedCounter ok H)
    (hfuel : H.nodes.length ≤ fuel) (hr : H.moveAssign fuel a b = some H') :
    Linked sharedCounter ok H' := by
  by_cases hab : a = b
  · rw [Heap.moveAssign, if_pos hab, Option.some.injEq] at hr
    exact hr ▸ hH
  · have hmove := hr
    rw [Heap.moveAssign, if_neg hab] at hr
    obtain ⟨H₁, hrel, hr⟩ := Option.bind_eq_some_iff.mp hr
    obtain ⟨y, hb₁, hr⟩ := Option.bind_eq_some_iff.mp hr
    obtain ⟨H₂, hs, hs'⟩ := Option.bind_eq_some_iff.mp hr
    have hspec := release_spec hK hH.toCounted hfuel hrel
    obtain ⟨h, ha, -⟩ := Option.bind_eq_some_iff.mp hrel
    obtain ⟨hb, hstays⟩ := hspec.read b y (Ne.symm hab) hb₁
    have hap : Apart H a b := fun n hn => hn.elim (hspec.stays n) (hstays n)
    obtain ⟨H₃, hr₃, htook⟩ := moveAssign_took hK hH.toCounted hab ha hb hap hfuel
    cases hmove.symm.trans hr₃
    have hst := stored hs
    have hst' := stored hs'
    refine hH.afterRelease hspec htook.counted (fun n => ?_) ?_ ?_ (fun l n hla hl => ?_)
      fun l n hl => ?_
    · rw [hst'.lifetime_eq, hst.lifetime_eq]
    · rw [hst'.length_eq, hst.length_eq]
    · rw [hst'.counters_eq, hst.counters_eq]
    · obtain ⟨g, hg, hgn⟩ := hl
      by_cases hlb : l = b
      · subst hlb
        cases hb₁.symm.trans hg
        exact ⟨a, y, by rw [hst'.load_eq, if_neg hab, hst.load_eq, if_pos rfl], hgn⟩
      · exact ⟨l, g, by rw [hst'.load_eq, if_neg hlb, hst.load_eq, if_neg hla, hg], hgn⟩
    · obtain ⟨hlb, g, hg, hgn⟩ := holds_of_emptied hst' hl
      rw [hst.load_eq] at hg
      split at hg
      · cases hg
        exact ⟨b, Ne.symm hab, y, hb₁, hgn⟩
      · next hla => exact ⟨l, hla, g, hg, hgn⟩

/-- `reset` clears both members, whatever owners are left. -/
theorem load_reset {delete : Heap Nat → Nat → Option (Heap Nat)} {H H' : Heap Nat}
    (hr : release trivialCounter delete H a = some H') : H'.load a = some .null := by
  have hnull : ∀ {H H' : Heap Nat}, H.store a .null = some H' → H'.load a = some .null :=
    fun hs => by rw [(stored hs).load_eq, if_pos rfl]
  obtain ⟨h, -, hr⟩ := Option.bind_eq_some_iff.mp hr
  split at hr
  · exact hnull hr
  · obtain ⟨k, -, hr⟩ := Option.bind_eq_some_iff.mp hr
    obtain ⟨k', -, hr⟩ := Option.bind_eq_some_iff.mp hr
    split at hr
    · obtain ⟨H₁, -, hr⟩ := Option.bind_eq_some_iff.mp hr
      obtain ⟨h₁, -, hr⟩ := Option.bind_eq_some_iff.mp hr
      obtain ⟨c, -, hr⟩ := Option.bind_eq_some_iff.mp hr
      obtain ⟨k₁, -, hr⟩ := Option.bind_eq_some_iff.mp hr
      obtain ⟨o, -, hr⟩ := Option.bind_eq_some_iff.mp hr
      exact hnull hr
    · exact hnull hr

theorem Linked.reset {H H' : Heap Nat} {ok : Nat → Prop} (hK : trivialCounter.Lawful ok)
    (hH : Linked trivialCounter ok H) (hfuel : H.nodes.length ≤ fuel)
    (hr : release trivialCounter (deleteNode trivialCounter fuel) H a = some H') :
    Linked trivialCounter ok H' := by
  have hspec := release_spec hK hH.toCounted hfuel hr
  have hv := hspec.released.vacant
  have hload := load_reset hr
  refine hH.afterRelease hspec ⟨⟨hv.ok, hv.settled, fun l g hg hc => ?_, fun l g c hg hc => ?_⟩,
    hv.refs_eq⟩ (fun _ => rfl) rfl rfl (fun l n _ hl => ⟨l, hl⟩) fun l n hl => ⟨l, ?_, hl⟩
  · by_cases hla : l = a
    · subst hla
      cases hload.symm.trans hg
      rfl
    · exact hv.empty l g hla hg hc
  · by_cases hla : l = a
    · subst hla
      cases hload.symm.trans hg
      cases hc
    · exact hv.object l g c hla hg hc
  · rintro rfl
    obtain ⟨g, hg, hgn⟩ := hl
    cases hload.symm.trans hg
    cases hgn

/-! ## Reached, or behind a cycle -/

theorem Link.alive (hH : Linked K ok H) (hl : H.Link m n) :
    H.lifetime? m = some .alive ∧ H.lifetime? n = some .alive := by
  obtain ⟨i, g, hg, hgn⟩ := hl
  exact ⟨hH.alive_of_load hg rfl, (hH.alive_iff n).mpr ⟨_, g, hg, hgn⟩⟩

/-- What a handle outside holds. -/
def Outside (H : Heap C) (n : Nat) : Prop := ∃ i, H.Holds (.handle i) n

/-- What is alive is held from outside, through fields or not, or behind a
cycle. -/
theorem Linked.alive_iff_kept (hH : Linked K ok H) (n : Nat) :
    H.lifetime? n = some .alive ↔ Kept H.Link H.Outside n := by
  constructor
  · intro hn
    refine kept_of_back (s := H.aliveSet) (fun m hm => ?_) (mem_aliveSet.mpr hn)
    obtain ⟨l, hl⟩ := (hH.alive_iff m).mp (mem_aliveSet.mp hm)
    cases l with
    | handle i => exact Or.inl ⟨i, hl⟩
    | field k i =>
        have hlink : H.Link k m := ⟨i, hl⟩
        exact Or.inr ⟨k, mem_aliveSet.mpr (hlink.alive hH).1, hlink⟩
  · intro hn
    rcases hn.before with hout | hlast
    · obtain ⟨i, hi⟩ := hout
      exact (hH.alive_iff n).mpr ⟨_, hi⟩
    · obtain ⟨m, -, hlink⟩ := hlast
      exact (hlink.alive hH).2

/-- No handle outside takes with it what is behind a cycle. -/
theorem not_falls_of_behindCycle (h : BehindCycle H.Link n) : ¬ Falls H (.handle i) n := by
  intro hfalls
  induction hfalls with
  | intro held outside fields ih =>
      obtain ⟨m, hm, j, hj⟩ := h.before
      exact ih m j hj (fun he => by cases he) hm

theorem Destroyed.behindCycle_iff (h : Destroyed K ok H i H') (n : Nat) :
    BehindCycle H'.Link n ↔ BehindCycle H.Link n :=
  ⟨fun hn => hn.mono fun m k hl => ((h.link_iff m k).mp hl).1,
    fun hn => hn.restrict fun m k hm hl => (h.link_iff m k).mpr ⟨hl, not_falls_of_behindCycle hm⟩⟩

end Ycetl.Ref.Shared.Heap

namespace Ycetl.Ref.Shared.Owner

open Ycetl.Lib Ycetl.Ref.Shared.Heap

variable {C E : Type} {W : Owner C E} {ok : C → Prop} {H H' : Heap C}

/-- An assignment between places that exist, none of them in a node that falls
with what is released. -/
def Assigns (H : Heap C) (a b : Loc) : Prop :=
  (H.load a).isSome = true ∧ (H.load b).isSome = true ∧ (a ≠ b → Apart H a b)

/-- The calls that read and write places of live nodes only; which of its own a
class has is said by `own`. -/
def Clear (own : Heap C → E → Prop) (H : Heap C) : NodeOp E → Prop
  | .make _ | .empty => True
  | .copy b => (H.load b).isSome = true
  | .assign a b => Assigns H a b
  | .destroy i => (H.load (.handle i)).isSome = true
  | .own e => own H e

/-- What is asked of a class of owners. -/
structure Lawful (W : Owner C E) (ok : C → Prop) (own : Heap C → E → Prop) : Prop where
  counter : W.counter.Lawful ok
  strong_one : W.counter.strong W.one = 1
  ok_one : ok W.one
  defined : ∀ H e, Linked W.counter ok H → own H e →
    ∃ H', W.call (H.nodes.length + 1) H e = some H'
  call : ∀ H e H', Linked W.counter ok H → W.call (H.nodes.length + 1) H e = some H' →
    Linked W.counter ok H'

variable {own : Heap C → E → Prop}

theorem step_linked (hW : W.Lawful ok own) (hH : Linked W.counter ok H) {op : NodeOp E}
    (hs : W.step H op = some H') : Linked W.counter ok H' := by
  have hfuel : H.nodes.length ≤ H.nodes.length + 1 := Nat.le_succ _
  cases op with
  | make fields =>
      cases hs
      exact hH.make hW.strong_one hW.ok_one fields
  | empty =>
      cases hs
      exact hH.addNull
  | copy b => exact hH.copy hW.counter hs
  | assign a b => exact hH.copyAssign hW.counter hfuel hs
  | destroy i => exact (destroy_spec hW.counter hH hfuel hs).linked
  | own e => exact hW.call H e H' hH hs

theorem run_linked (hW : W.Lawful ok own) {ops : List (NodeOp E)}
    (hr : runFrom W.step .empty ops = some H) : Linked W.counter ok H :=
  runFrom_inv (fun _ _ _ hH hs => step_linked hW hH hs) linked_empty hr

theorem step_defined (hW : W.Lawful ok own) (hH : Linked W.counter ok H) {op : NodeOp E}
    (hop : Clear own H op) : ∃ H', W.step H op = some H' := by
  have hfuel : H.nodes.length ≤ H.nodes.length + 1 := Nat.le_succ _
  cases op with
  | make fields => exact ⟨_, rfl⟩
  | empty => exact ⟨_, rfl⟩
  | copy b =>
      obtain ⟨y, hy⟩ := Option.isSome_iff_exists.mp hop
      exact exists_copy hW.counter hH hy
  | assign a b =>
      obtain ⟨ha, hb, hap⟩ := hop
      obtain ⟨h, ha⟩ := Option.isSome_iff_exists.mp ha
      obtain ⟨y, hb⟩ := Option.isSome_iff_exists.mp hb
      by_cases hab : a = b
      · exact ⟨H, if_pos hab⟩
      · obtain ⟨H', hr, -⟩ := copyAssign_took hW.counter hH.toCounted hab ha hb (hap hab) hfuel
        exact ⟨H', hr⟩
  | destroy i =>
      obtain ⟨h, hl⟩ := Option.isSome_iff_exists.mp hop
      exact exists_destroy hW.counter hH hfuel hl
  | own e => exact hW.defined H e hH hop

/-- The handles outside can go in any order. -/
theorem destroy_all (hW : W.Lawful ok own) (hH : Linked W.counter ok H) {is : List Nat}
    (hnodup : is.Nodup) (his : ∀ i ∈ is, (H.load (.handle i)).isSome = true) :
    ∃ H', runFrom W.step H (is.map .destroy) = some H' ∧ Linked W.counter ok H' ∧
      (∀ n, BehindCycle H'.Link n ↔ BehindCycle H.Link n) ∧
      ∀ i, H'.load (.handle i) = if i ∈ is then none else H.load (.handle i) := by
  induction is generalizing H with
  | nil => exact ⟨H, rfl, hH, fun _ => Iff.rfl, fun i => (if_neg List.not_mem_nil).symm⟩
  | cons i is ih =>
      obtain ⟨hi, hnodup⟩ := List.nodup_cons.mp hnodup
      obtain ⟨h, hl⟩ := Option.isSome_iff_exists.mp (his i List.mem_cons_self)
      have hfuel : H.nodes.length ≤ H.nodes.length + 1 := Nat.le_succ _
      obtain ⟨H₁, hr₁⟩ := exists_destroy hW.counter hH hfuel hl
      have hspec := destroy_spec hW.counter hH hfuel hr₁
      obtain ⟨H', hr, hlinked, hcycle, hload⟩ := ih hspec.linked hnodup fun j hj => by
        rw [hspec.load_eq, if_neg (fun he : j = i => hi (he ▸ hj))]
        exact his j (List.mem_cons_of_mem i hj)
      refine ⟨H', ?_, hlinked, fun n => (hcycle n).trans (hspec.behindCycle_iff n), fun j => ?_⟩
      · rw [List.map_cons, runFrom, step, hr₁]
        exact hr
      · rw [hload, hspec.load_eq]
        by_cases hj : j ∈ is
        · rw [if_pos hj, if_pos (List.mem_cons_of_mem i hj)]
        · rw [if_neg hj]
          by_cases hji : j = i
          · rw [if_pos hji, if_pos (List.mem_cons.mpr (Or.inl hji))]
          · rw [if_neg hji, if_neg fun hmem => (List.mem_cons.mp hmem).elim hji hj]

/-- A program has a result if its calls read and write live nodes only. After
any program that has one, the nodes that are alive are those a handle outside
leads to and those behind a cycle; and whatever order the handles outside go in,
exactly those behind a cycle are left. -/
def LeaksCyclesOnly (W : Owner C E) (own : Heap C → E → Prop) : Prop :=
  (∀ ops, Along W.step (Clear own) .empty ops → ∃ H, runFrom W.step .empty ops = some H) ∧
  ∀ ops H, runFrom W.step .empty ops = some H →
    (∀ n, H.lifetime? n = some .alive ↔ Kept H.Link H.Outside n) ∧
    ∀ is : List Nat, is.Nodup → (∀ i, i ∈ is ↔ (H.load (.handle i)).isSome = true) →
      ∃ H', runFrom W.step H (is.map .destroy) = some H' ∧
        ∀ n, H'.lifetime? n = some .alive ↔ BehindCycle H.Link n

theorem leaksCyclesOnly (hW : W.Lawful ok own) : LeaksCyclesOnly W own := by
  refine ⟨fun ops hops => ?_, fun ops H hr => ?_⟩
  · have hstep : ∀ H op, Linked W.counter ok H → Clear own H op →
        ∃ H', W.step H op = some H' ∧ Linked W.counter ok H' := by
      intro H op hH hop
      obtain ⟨H', hs⟩ := step_defined hW hH hop
      exact ⟨H', hs, step_linked hW hH hs⟩
    obtain ⟨H, hr, -⟩ := runFrom_defined hstep linked_empty hops
    exact ⟨H, hr⟩
  · have hH := run_linked hW hr
    refine ⟨hH.alive_iff_kept, fun is hnodup his => ?_⟩
    obtain ⟨H', hr', hH', hcycle, hload⟩ := destroy_all hW hH hnodup fun i => (his i).mp
    refine ⟨H', hr', fun n => ?_⟩
    have hnone : ∀ r, ¬ H'.Outside r := by
      intro r hr
      obtain ⟨i, g, hg, -⟩ := hr
      rw [hload] at hg
      split at hg
      · cases hg
      · next hi =>
          rw [his, Option.not_isSome_iff_eq_none] at hi
          rw [hi] at hg
          cases hg
    rw [hH'.alive_iff_kept, ← hcycle]
    exact or_iff_right fun hreach => hnone _ hreach.choose_spec.1

/-- Moves of `shared_ptr` between places of live nodes. -/
def SharedClear (H : Heap ControlBlock) : MoveOp → Prop
  | .construct b => (H.load b).isSome = true
  | .assign a b => Assigns H a b

/-- `reset` of a place that does not fall with what it releases. -/
def TrivialClear (H : Heap Nat) (a : Loc) : Prop := (H.load a).isSome = true ∧ Stays H a a

theorem sharedOwner_lawful : sharedOwner.Lawful (fun b => 0 < b.weakCount) SharedClear where
  counter := sharedCounter_lawful
  strong_one := rfl
  ok_one := Nat.one_pos
  defined H e hH he := by
    cases e with
    | construct b =>
        obtain ⟨y, hy⟩ := Option.isSome_iff_exists.mp he
        exact exists_moveConstruct hy
    | assign a b =>
        obtain ⟨ha, hb, hap⟩ := he
        obtain ⟨h, ha⟩ := Option.isSome_iff_exists.mp ha
        obtain ⟨y, hb⟩ := Option.isSome_iff_exists.mp hb
        by_cases hab : a = b
        · exact ⟨H, if_pos hab⟩
        · obtain ⟨H', hr, -⟩ := moveAssign_took sharedCounter_lawful hH.toCounted hab ha hb
            (hap hab) (Nat.le_succ _)
          exact ⟨H', hr⟩
  call H e H' hH hs := by
    cases e with
    | construct b => exact hH.moveConstruct hs
    | assign a b => exact hH.moveAssign sharedCounter_lawful (Nat.le_succ _) hs

theorem trivialOwner_lawful : trivialOwner.Lawful (fun _ => True) TrivialClear where
  counter := trivialCounter_lawful
  strong_one := rfl
  ok_one := trivial
  defined H a hH ha := by
    obtain ⟨h, hl⟩ := Option.isSome_iff_exists.mp ha.1
    obtain ⟨H', hr, -⟩ := release_vacant trivialCounter_lawful hH.toCounted hl ha.2 (Nat.le_succ _)
    exact ⟨H', hr⟩
  call _ _ _ hH hs := hH.reset trivialCounter_lawful (Nat.le_succ _) hs

theorem counting_leaks_cycles_only :
    LeaksCyclesOnly sharedOwner SharedClear ∧ LeaksCyclesOnly trivialOwner TrivialClear :=
  ⟨leaksCyclesOnly sharedOwner_lawful, leaksCyclesOnly trivialOwner_lawful⟩

/-- Two nodes that hold each other outlive the handles. -/
example : (runFrom sharedOwner.step .empty
      [.make 1, .make 1, .assign (.field 0 0) (.handle 1), .assign (.field 1 0) (.handle 0),
        .destroy 0, .destroy 1]).map (fun H => H.nodes.map Node.lifetime) =
    some [.alive, .alive] := by decide

/-- And nothing outlives them where only one holds the other. -/
example : (runFrom trivialOwner.step .empty
      [.make 1, .make 1, .assign (.field 0 0) (.handle 1), .destroy 1, .destroy 0]).map
        (fun H => H.nodes.map Node.lifetime) = some [.dead, .dead] := by decide

end Ycetl.Ref.Shared.Owner
