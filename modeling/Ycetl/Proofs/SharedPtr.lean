import Ycetl.Lib.Runs
import Ycetl.Proofs.SharedCounts
import Ycetl.Proofs.SharedHoldings

/-!
# Counting is exact in every run

Programs over free-standing `shared_ptr`s and `weak_ptr`s. The invariant has
one equation: the heap is the one in which each number has as many owners and
observers as there are handles that hold it. Every call keeps it, whatever the
order of its releases and acquisitions is, because a handle that is assigned
from still counts while the old object of the other one is released.
-/

namespace Ycetl.Ref.Shared.World

open Ycetl.Lib Ycetl.Ref.Shared.Heap

variable {w w₁ w' : World} {H : Heap ControlBlock} {l : List (Option Handle)} {h y g : Handle}
  {o : Option Handle} {op : Op} {c i j n : Nat}

/-! ## Handles in a list -/

/-- How many handles hold each number. -/
def held (l : List (Option Handle)) : Nat → Nat := holders (l.map fun o => o.bind Handle.counter)

/-- The `shared_ptr`s on each control block. -/
def owners (w : World) : Nat → Nat := held w.heap.handles

/-- The `weak_ptr`s on each control block. -/
def observers (w : World) : Nat → Nat := held w.weaks

/-- A handle has the object of its control block. -/
def Tidy (l : List (Option Handle)) : Prop := ∀ i h, record? l i = some h → h.ptr = h.counter

theorem held_append (l : List (Option Handle)) (h : Handle) :
    held (l ++ [some h]) = gain (held l) h.counter := by
  rw [held, List.map_append]
  exact holders_append _ _

theorem held_set (hi : record? l i = some h) (o : Option Handle) :
    held (l.set i o) = gain (lose (held l) h.counter) (o.bind Handle.counter) := by
  have hget : (l.map fun o => o.bind Handle.counter)[i]? = some h.counter := by
    rw [List.getElem?_map, getElem?_of_record? hi]
    rfl
  rw [held, List.map_set]
  exact holders_set hget _

theorem held_pos (hi : record? l i = some h) (hc : h.counter = some c) : 0 < held l c := by
  refine holders_pos (i := i) ?_
  rw [List.getElem?_map, getElem?_of_record? hi, ← hc]
  rfl

theorem Tidy.append (hl : Tidy l) (hh : h.ptr = h.counter) : Tidy (l ++ [some h]) := by
  intro i g hg
  rw [record?_append] at hg
  split at hg
  · cases hg
    exact hh
  · exact hl i g hg

theorem Tidy.set (hl : Tidy l) (hi : record? l i = some h)
    (ho : ∀ g, o = some g → g.ptr = g.counter) : Tidy (l.set i o) := by
  intro j g hg
  rw [record?_set (lt_of_record? hi)] at hg
  split at hg
  · exact ho g hg
  · exact hl j g hg

theorem Tidy.set_null (hl : Tidy l) (hi : record? l i = some h) : Tidy (l.set i (some .null)) :=
  hl.set hi fun g hg => by
    cases hg
    rfl

/-! ## The invariant -/

structure Inv (w : World) : Prop where
  tallied : Tallied w.owners w.observers w.heap
  strong_ptr : Tidy w.heap.handles
  weak_ptr : Tidy w.weaks

/-- A call has a result, which keeps the invariant. -/
def Ok (w : World) (o : Option World) : Prop := ∃ w', o = some w' ∧ Inv w' ∧ Grows w.heap w'.heap

theorem Inv.of_tallied {s k : Nat → Nat} {m : List (Option Handle)} (ht : Tallied s k H)
    (hs : held l = s) (hk : held m = k) (hl : Tidy l) (hm : Tidy m) :
    Inv ⟨{ H with handles := l }, m⟩ := by
  subst hs hk
  exact ⟨ht.withHandles l, hl, hm⟩

theorem owners_pos (hi : w.strong? i = some h) (hc : h.counter = some c) : 0 < w.owners c :=
  held_pos hi hc

theorem observers_pos (hi : w.weak? i = some h) (hc : h.counter = some c) :
    0 < w.observers c :=
  held_pos hi hc

/-! ## Owners -/

theorem Inv.addStrong (hw : Inv w) (ht : Tallied (gain w.owners h.counter) w.observers H)
    (hH : H.handles = w.heap.handles) (hh : h.ptr = h.counter) : Inv (w.addStrong H h) :=
  .of_tallied ht (by rw [hH, held_append]; rfl) rfl (hH ▸ hw.strong_ptr.append hh) hw.weak_ptr

theorem Inv.addStrong_null (hw : Inv w) : Inv (w.addStrong w.heap .null) :=
  hw.addStrong (by rw [show Handle.null.counter = none from rfl, gain_none]; exact hw.tallied)
    rfl rfl

theorem make_ok (hw : Inv w) : Ok w (some w.make) := by
  refine ⟨_, rfl, hw.addStrong ?_ rfl ?_, ?_⟩
  · show Tallied (gain w.owners (some w.heap.counters.length)) _ _
    rw [← hw.tallied.length_eq]
    exact hw.tallied.make
  · rw [hw.tallied.length_eq]
  · exact ⟨by rw [make, World.addStrong, List.length_append]; exact Nat.le_add_right ..,
      List.prefix_refl _, List.prefix_refl _⟩

theorem copy_ok (hw : Inv w) (hi : w.strong? i = some h) : Ok w (w.copy i) := by
  obtain ⟨H', hacq, ht, hH, hg⟩ := hw.tallied.acquire fun c hc => owners_pos hi hc
  have hr : w.copy i = some (w.addStrong H' h) := by
    simp only [copy, hi, hacq, Option.bind_eq_bind, Option.bind_some]
  exact ⟨_, hr, hw.addStrong ht hH (hw.strong_ptr i h hi), hg.length_le, hg.deleted, hg.freed⟩

theorem move_ok (hw : Inv w) (hi : w.strong? i = some h) : Ok w (w.move i) := by
  have hr : w.move i = some (w.addStrong
      { w.heap with handles := w.heap.handles.set i (some .null) } h) := by
    have hstore := store_handle (H := w.heap) hi .null
    simp only [move, hi, hstore, Option.bind_eq_bind, Option.bind_some]
  refine ⟨_, hr, .of_tallied (hw.tallied.withHandles _) ?_ rfl
    ((hw.strong_ptr.set_null hi).append (hw.strong_ptr i h hi)) hw.weak_ptr, .of_eq rfl rfl rfl⟩
  rw [held_append, held_set hi]
  show gain (gain (lose w.owners h.counter) none) h.counter = w.owners
  rw [gain_none, gain_lose fun c hc => owners_pos hi hc]

/-- What the release of a handle does for an assignment. -/
theorem release_ok (hw : Inv w) (hi : w.strong? i = some h) :
    ∃ H v, w.heap.release sharedCounter (deleteNode sharedCounter w.fuel) (.handle i) = some H ∧
      H.handles = w.heap.handles.set i (some v) ∧
      held H.handles = lose w.owners h.counter ∧
      Tallied (lose w.owners h.counter) w.observers H ∧ Grows w.heap H := by
  obtain ⟨H, v, hr, hv, hH, ht, hg⟩ := hw.tallied.release w.heap.nodes.length hi
    (hw.strong_ptr i h hi) fun c hc => owners_pos hi hc
  refine ⟨H, v, hr, hH, ?_, ht, hg⟩
  rw [hH, held_set hi]
  show gain (lose w.owners h.counter) v.counter = _
  rw [hv, gain_none]

theorem assign_ok (hw : Inv w) (hi : w.strong? i = some h) (hj : w.strong? j = some y) :
    Ok w (w.assign i j) := by
  by_cases hij : i = j
  · refine ⟨w, ?_, hw, Grows.refl _⟩
    simp only [assign, copyAssign, hij, if_pos, Option.bind_eq_bind, Option.bind_some]
  · obtain ⟨H₁, v, hrel, hH, hheld, ht, hg⟩ := release_ok hw hi
    have hlt := lt_of_record? hi
    have hi₁ : H₁.load (.handle i) = some v := by
      rw [load, hH, record?_set hlt, if_pos rfl]
    have hj₁ : record? H₁.handles j = some y := by rw [hH, record?_set hlt, if_neg hij]; exact hj
    let H₂ : Heap ControlBlock := { H₁ with handles := H₁.handles.set i (some y) }
    obtain ⟨H', hacq, ht', hH', hg'⟩ := (ht.withHandles H₂.handles).acquire fun c hc =>
      hheld ▸ held_pos hj₁ hc
    have hr : w.assign i j = some { w with heap := H' } := by
      have hne : Loc.handle i ≠ .handle j := fun he => hij (Loc.handle.inj he)
      have hl : H₁.load (.handle j) = some y := hj₁
      simp only [assign, copyAssign, if_neg hne, hrel, hl, store_handle hi₁ y, Option.bind_eq_bind,
        Option.bind_some]
      rw [hacq]
      rfl
    have hhandles : H'.handles = w.heap.handles.set i (some y) := by
      rw [hH', show H₂.handles = H₁.handles.set i (some y) from rfl, hH, List.set_set]
    refine ⟨_, hr, .of_tallied ht' ?_ rfl ?_ hw.weak_ptr, hg.trans ⟨hg'.length_le, hg'.deleted,
      hg'.freed⟩⟩
    · rw [hhandles, held_set hi]
      rfl
    · rw [hhandles]
      exact hw.strong_ptr.set hi fun g hg => by
        cases hg
        exact hw.strong_ptr j y hj

theorem moveAssign_ok (hw : Inv w) (hi : w.strong? i = some h) (hj : w.strong? j = some y) :
    Ok w (w.moveAssign i j) := by
  by_cases hij : i = j
  · refine ⟨w, ?_, hw, Grows.refl _⟩
    simp only [moveAssign, Heap.moveAssign, hij, if_pos, Option.bind_eq_bind, Option.bind_some]
  · obtain ⟨H₁, v, hrel, hH, hheld, ht, hg⟩ := release_ok hw hi
    have hlt := lt_of_record? hi
    have hi₁ : H₁.load (.handle i) = some v := by
      rw [load, hH, record?_set hlt, if_pos rfl]
    have hj₁ : H₁.load (.handle j) = some y := by
      rw [load, hH, record?_set hlt, if_neg hij]
      exact hj
    let l : List (Option Handle) := (H₁.handles.set i (some y)).set j (some .null)
    have hj₂ : record? (H₁.handles.set i (some y)) j = some y := by
      rw [record?_set (lt_of_record? hi₁), if_neg hij]
      exact hj₁
    have hl₂ : load { H₁ with handles := H₁.handles.set i (some y) } (.handle j) = some y := hj₂
    have hr : w.moveAssign i j = some { w with heap := { H₁ with handles := l } } := by
      have hne : Loc.handle i ≠ .handle j := fun he => hij (Loc.handle.inj he)
      simp only [moveAssign, Heap.moveAssign, if_neg hne, hrel, hj₁, store_handle hi₁ y,
        Option.bind_eq_bind, Option.bind_some]
      exact store_handle hl₂ .null ▸ rfl
    have hset : H₁.handles.set i (some y) = w.heap.handles.set i (some y) := by
      rw [hH, List.set_set]
    refine ⟨_, hr, .of_tallied ht ?_ rfl ?_ hw.weak_ptr, hg.trans (.of_eq rfl rfl rfl)⟩
    · rw [held_set hj₂, hset, held_set hi]
      show gain (lose (gain (lose w.owners h.counter) y.counter) y.counter) none = _
      rw [lose_gain, gain_none]
    · refine Tidy.set_null ?_ hj₂
      rw [hset]
      exact hw.strong_ptr.set hi fun g hg => by
        cases hg
        exact hw.strong_ptr j y hj

theorem destroy_ok (hw : Inv w) (hi : w.strong? i = some h) : Ok w (w.destroy i) := by
  obtain ⟨H₁, v, hrel, hH, hheld, ht, hg⟩ := release_ok hw hi
  have hr : w.destroy i = some { w with heap := { H₁ with handles := H₁.handles.set i none } } := by
    simp only [destroy, hrel, Option.bind_eq_bind, Option.bind_some]
  have hset : H₁.handles.set i none = w.heap.handles.set i none := by rw [hH, List.set_set]
  refine ⟨_, hr, .of_tallied ht ?_ rfl ?_ hw.weak_ptr, hg.trans (.of_eq rfl rfl rfl)⟩
  · rw [hset, held_set hi]
    exact gain_none _
  · rw [hset]
    exact hw.strong_ptr.set hi fun g hg => by cases hg

/-! ## Observers -/

theorem weakOf_ok (hw : Inv w) (hi : w.strong? i = some h) : Ok w (w.weakOf i) := by
  obtain ⟨H', hacq, ht, hH, hg⟩ := hw.tallied.acquireWeak fun c hc => .inl (owners_pos hi hc)
  have hr : w.weakOf i = some (w.addWeak H' h) := by
    simp only [weakOf, hi, hacq, Option.bind_eq_bind, Option.bind_some]
  refine ⟨_, hr, .of_tallied (l := H'.handles) ht (by rw [hH]; rfl) (held_append _ _) ?_
    (hw.weak_ptr.append (hw.strong_ptr i h hi)), hg⟩
  rw [hH]
  exact hw.strong_ptr

theorem weakCopy_ok (hw : Inv w) (hi : w.weak? i = some h) : Ok w (w.weakCopy i) := by
  obtain ⟨H', hacq, ht, hH, hg⟩ := hw.tallied.acquireWeak fun c hc => .inr (observers_pos hi hc)
  have hr : w.weakCopy i = some (w.addWeak H' h) := by
    simp only [weakCopy, hi, hacq, Option.bind_eq_bind, Option.bind_some]
  refine ⟨_, hr, .of_tallied (l := H'.handles) ht (by rw [hH]; rfl) (held_append _ _) ?_
    (hw.weak_ptr.append (hw.weak_ptr i h hi)), hg⟩
  rw [hH]
  exact hw.strong_ptr

theorem weakEmpty_ok (hw : Inv w) : Ok w (some (w.addWeak w.heap .null)) := by
  refine ⟨_, rfl, .of_tallied (l := w.heap.handles) hw.tallied rfl ?_ hw.strong_ptr
    (hw.weak_ptr.append rfl), Grows.refl _⟩
  rw [held_append]
  exact gain_none _

theorem weakMove_ok (hw : Inv w) (hi : w.weak? i = some h) : Ok w (w.weakMove i) := by
  have hr : w.weakMove i = some ((w.setWeak w.heap i (some .null)).addWeak w.heap h) := by
    simp only [weakMove, hi, Option.bind_eq_bind, Option.bind_some]
  refine ⟨_, hr, .of_tallied (l := w.heap.handles) hw.tallied rfl ?_ hw.strong_ptr
    ((hw.weak_ptr.set_null hi).append (hw.weak_ptr i h hi)), Grows.refl _⟩
  rw [held_append, setWeak, held_set hi]
  show gain (gain (lose w.observers h.counter) none) h.counter = w.observers
  rw [gain_none, gain_lose fun c hc => observers_pos hi hc]

/-- The release that the other members begin with. -/
theorem weakReset_spec (hw : Inv w) (hi : w.weak? i = some h) :
    ∃ w₁, w.weakReset i = some w₁ ∧ Inv w₁ ∧ Grows w.heap w₁.heap ∧
      w₁.weaks = w.weaks.set i (some .null) ∧ w₁.heap.handles = w.heap.handles := by
  obtain ⟨H', hrel, ht, hH, hg⟩ := hw.tallied.releaseWeak fun c hc => observers_pos hi hc
  have hr : w.weakReset i = some (w.setWeak H' i (some .null)) := by
    simp only [weakReset, hi, hrel, Option.bind_eq_bind, Option.bind_some]
  refine ⟨_, hr, .of_tallied (l := H'.handles) ht (by rw [hH]; rfl) ?_ ?_ (hw.weak_ptr.set_null hi),
    hg, rfl, hH⟩
  · rw [held_set hi]
    exact gain_none _
  · rw [hH]
    exact hw.strong_ptr

theorem weakReset_ok (hw : Inv w) (hi : w.weak? i = some h) : Ok w (w.weakReset i) := by
  obtain ⟨w₁, hr, hw₁, hg, -, -⟩ := weakReset_spec hw hi
  exact ⟨w₁, hr, hw₁, hg⟩

/-- An empty observer takes hold of what is there. -/
theorem weakTake_ok (hw : Inv w) (hi : w.weak? i = some .null) (hh : h.ptr = h.counter)
    (hpos : ∀ c, h.counter = some c → 0 < w.owners c ∨ 0 < w.observers c) :
    Ok w (w.weakTake i h) := by
  obtain ⟨H', hacq, ht, hH, hg⟩ := hw.tallied.acquireWeak hpos
  have hr : w.weakTake i h = some (w.setWeak H' i (some h)) := by
    simp only [weakTake, hacq, Option.bind_eq_bind, Option.bind_some]
  refine ⟨_, hr, .of_tallied (l := H'.handles) ht (by rw [hH]; rfl) ?_ ?_ ?_, hg⟩
  · rw [held_set hi]
    show gain (lose w.observers none) h.counter = _
    rw [lose_none]
  · rw [hH]
    exact hw.strong_ptr
  · exact hw.weak_ptr.set hi fun g hg => by
      cases hg
      exact hh

/-- A release, and a call after it. -/
theorem Ok.after {r : Option World} (hg : Grows w.heap w₁.heap) (hr : Ok w₁ r) : Ok w r := by
  obtain ⟨w', hr, hw', hg'⟩ := hr
  exact ⟨w', hr, hw', hg.trans hg'⟩

theorem weakAssign_ok (hw : Inv w) (hi : w.weak? i = some h) (hj : w.weak? j = some y) :
    Ok w (w.weakAssign i j) := by
  by_cases hij : i = j
  · exact ⟨w, by rw [weakAssign, if_pos hij], hw, Grows.refl _⟩
  · obtain ⟨w₁, hr, hw₁, hg, hweaks, -⟩ := weakReset_spec hw hi
    have hget := record?_set (lt_of_record? hi) (some Handle.null)
    have hi₁ : w₁.weak? i = some .null := by rw [weak?, hweaks, hget, if_pos rfl]
    have hj₁ : w₁.weak? j = some y := by
      rw [weak?, hweaks, hget, if_neg hij]
      exact hj
    rw [weakAssign, if_neg hij, hr]
    refine Ok.after hg ?_
    simp only [Option.bind_eq_bind, Option.bind_some, hj₁]
    exact weakTake_ok hw₁ hi₁ (hw₁.weak_ptr j y hj₁) fun c hc => .inr (observers_pos hj₁ hc)

theorem weakMoveAssign_ok (hw : Inv w) (hi : w.weak? i = some h) (hj : w.weak? j = some y) :
    Ok w (w.weakMoveAssign i j) := by
  by_cases hij : i = j
  · exact ⟨w, by rw [weakMoveAssign, if_pos hij], hw, Grows.refl _⟩
  · obtain ⟨w₁, hr, hw₁, hg, hweaks, -⟩ := weakReset_spec hw hi
    have hget := record?_set (lt_of_record? hi) (some Handle.null)
    have hi₁ : w₁.weak? i = some .null := by rw [weak?, hweaks, hget, if_pos rfl]
    have hj₁ : w₁.weak? j = some y := by
      rw [weak?, hweaks, hget, if_neg hij]
      exact hj
    have hj₂ : record? (w₁.weaks.set i (some y)) j = some y := by
      rw [record?_set (lt_of_record? hi₁), if_neg hij]
      exact hj₁
    rw [weakMoveAssign, if_neg hij, hr]
    refine Ok.after hg ?_
    simp only [Option.bind_eq_bind, Option.bind_some, hj₁]
    refine ⟨_, rfl, .of_tallied (l := w₁.heap.handles) hw₁.tallied rfl ?_ hw₁.strong_ptr ?_,
      Grows.refl _⟩
    · rw [setWeak, held_set hj₂, held_set hi₁]
      show gain (lose (gain (lose w₁.observers none) y.counter) y.counter) none = _
      rw [lose_none, lose_gain, gain_none]
    · refine Tidy.set_null ?_ hj₂
      exact hw₁.weak_ptr.set hi₁ fun g hg => by
        cases hg
        exact hw₁.weak_ptr j y hj₁

theorem weakAssignShared_ok (hw : Inv w) (hi : w.weak? i = some h) (hj : w.strong? j = some y) :
    Ok w (w.weakAssignShared i j) := by
  obtain ⟨w₁, hr, hw₁, hg, hweaks, hhandles⟩ := weakReset_spec hw hi
  have hi₁ : w₁.weak? i = some .null := by
    rw [weak?, hweaks, record?_set (lt_of_record? hi), if_pos rfl]
  have hj₁ : w₁.strong? j = some y := by
    rw [strong?, hhandles]
    exact hj
  rw [weakAssignShared, hr]
  refine Ok.after hg ?_
  simp only [Option.bind_eq_bind, Option.bind_some, hj₁]
  exact weakTake_ok hw₁ hi₁ (hw₁.strong_ptr j y hj₁) fun c hc => .inl (owners_pos hj₁ hc)

theorem weakDestroy_ok (hw : Inv w) (hi : w.weak? i = some h) : Ok w (w.weakDestroy i) := by
  obtain ⟨w₁, hr, hw₁, hg, hweaks, -⟩ := weakReset_spec hw hi
  have hi₁ : w₁.weak? i = some .null := by
    rw [weak?, hweaks, record?_set (lt_of_record? hi), if_pos rfl]
  rw [weakDestroy, hr]
  refine Ok.after hg ⟨_, rfl, .of_tallied (l := w₁.heap.handles) hw₁.tallied rfl ?_ hw₁.strong_ptr
    (hw₁.weak_ptr.set (o := none) hi₁ fun g hg => by cases hg), Grows.refl _⟩
  rw [held_set hi₁]
  show gain (lose w₁.observers none) none = _
  rw [lose_none, gain_none]

/-- The object that an observer observes is alive. -/
def ObjectAlive (w : World) (h : Handle) : Prop :=
  ∃ n, h.counter = some n ∧ w.heap.lifetime? n = some .alive

theorem Inv.object_alive (hw : Inv w) (hn : n < w.heap.nodes.length) :
    w.heap.lifetime? n = some .alive ↔ 0 < w.owners n := by
  have hget := List.getElem?_eq_getElem hn
  rw [lifetime?_of_node hget, hw.tallied.node_eq n _ hget, nodeOf, Option.some.injEq]
  split
  · next hz => exact iff_of_false (fun he => by cases he) (by omega)
  · next hz => exact iff_of_true rfl (Nat.pos_of_ne_zero hz)

/-- `lock` answers with an owner of the object while it is alive, and with an
empty one after that. -/
theorem lock_spec (hw : Inv w) (hi : w.weak? i = some h) :
    ∃ w' g, w.lock i = some w' ∧ Inv w' ∧ Grows w.heap w'.heap ∧
      w'.strong? w.heap.handles.length = some g ∧
      (w.ObjectAlive h → g = h) ∧ (¬ w.ObjectAlive h → g = .null) := by
  have hlast : ∀ (H : Heap ControlBlock) g, H.handles = w.heap.handles →
      (w.addStrong H g).strong? w.heap.handles.length = some g := by
    intro H g hH
    show record? (H.handles ++ [some g]) _ = _
    rw [record?_append, hH, if_pos rfl]
  cases hc : h.counter with
  | none =>
      refine ⟨_, .null, ?_, hw.addStrong_null, .of_eq rfl rfl rfl, hlast _ _ rfl, fun ha => ?_,
        fun _ => rfl⟩
      · simp only [lock, hi, hc, Option.bind_eq_bind, Option.bind_some]
      · obtain ⟨n, hn, -⟩ := ha
        rw [hc] at hn
        cases hn
  | some c =>
      have hpos : 0 < w.observers c := observers_pos hi hc
      have hne : ¬ (w.owners c = 0 ∧ w.observers c = 0) := by omega
      have hcounter : w.heap.counter? c = some ⟨w.owners c,
          if w.owners c = 0 then w.observers c else w.observers c + 1⟩ := by
        rw [hw.tallied.counter_eq, block, if_neg hne]
      have halive := hw.object_alive (hw.tallied.lt (.inr hpos))
      by_cases hz : w.owners c = 0
      · refine ⟨_, .null, ?_, hw.addStrong_null, .of_eq rfl rfl rfl, hlast _ _ rfl, fun ha => ?_,
          fun _ => rfl⟩
        · simp only [lock, hi, hc, hcounter, hz, Option.bind_eq_bind, Option.bind_some, if_pos]
        · obtain ⟨n, hn, hlife⟩ := ha
          rw [hc, Option.some.injEq] at hn
          subst hn
          exact absurd (halive.mp hlife) (by omega)
      · obtain ⟨H', hacq, ht, hH, hg⟩ := hw.tallied.acquire (h := h) fun d hd => by
          rw [hc, Option.some.injEq] at hd
          subst hd
          exact Nat.pos_of_ne_zero hz
        refine ⟨w.addStrong H' h, h, ?_, hw.addStrong ht hH (hw.weak_ptr i h hi),
          ⟨hg.length_le, hg.deleted, hg.freed⟩, hlast _ _ hH, fun _ => rfl, fun ha => ?_⟩
        · simp only [acquire, hc, hcounter, Option.bind_eq_bind, Option.bind_some,
            Option.some.injEq] at hacq
          simp only [lock, hi, hc, hcounter, if_neg hz, Option.bind_eq_bind, Option.bind_some,
            ← hacq]
          rfl
        · exact absurd ⟨c, hc, halive.mpr (Nat.pos_of_ne_zero hz)⟩ ha

/-! ## Runs -/

theorem inv_empty : Inv empty := by
  refine ⟨⟨rfl, fun c => ?_, fun n x hx => ?_, fun n => ?_, fun c => ?_⟩, fun i h hi => ?_,
    fun i h hi => ?_⟩
  · exact (block_eq_none.mpr ⟨rfl, rfl⟩).symm
  · cases hx
  · exact (if_neg fun hn => Nat.not_lt_zero n hn.1).symm
  · exact (if_neg fun hc => Nat.not_lt_zero c hc.1).symm
  · cases hi
  · cases hi

theorem step_ok (hw : Inv w) (hl : w.Legal op) : Ok w (w.step op) := by
  cases op with
  | make => exact make_ok hw
  | empty => exact ⟨_, rfl, hw.addStrong_null, .of_eq rfl rfl rfl⟩
  | copy i =>
      obtain ⟨h, hi⟩ := Option.isSome_iff_exists.mp hl
      exact copy_ok hw hi
  | move i =>
      obtain ⟨h, hi⟩ := Option.isSome_iff_exists.mp hl
      exact move_ok hw hi
  | assign i j =>
      obtain ⟨h, hi⟩ := Option.isSome_iff_exists.mp hl.1
      obtain ⟨y, hj⟩ := Option.isSome_iff_exists.mp hl.2
      exact assign_ok hw hi hj
  | moveAssign i j =>
      obtain ⟨h, hi⟩ := Option.isSome_iff_exists.mp hl.1
      obtain ⟨y, hj⟩ := Option.isSome_iff_exists.mp hl.2
      exact moveAssign_ok hw hi hj
  | destroy i =>
      obtain ⟨h, hi⟩ := Option.isSome_iff_exists.mp hl
      exact destroy_ok hw hi
  | weakEmpty => exact weakEmpty_ok hw
  | weakOf i =>
      obtain ⟨h, hi⟩ := Option.isSome_iff_exists.mp hl
      exact weakOf_ok hw hi
  | weakCopy i =>
      obtain ⟨h, hi⟩ := Option.isSome_iff_exists.mp hl
      exact weakCopy_ok hw hi
  | weakMove i =>
      obtain ⟨h, hi⟩ := Option.isSome_iff_exists.mp hl
      exact weakMove_ok hw hi
  | weakAssign i j =>
      obtain ⟨h, hi⟩ := Option.isSome_iff_exists.mp hl.1
      obtain ⟨y, hj⟩ := Option.isSome_iff_exists.mp hl.2
      exact weakAssign_ok hw hi hj
  | weakMoveAssign i j =>
      obtain ⟨h, hi⟩ := Option.isSome_iff_exists.mp hl.1
      obtain ⟨y, hj⟩ := Option.isSome_iff_exists.mp hl.2
      exact weakMoveAssign_ok hw hi hj
  | weakAssignShared i j =>
      obtain ⟨h, hi⟩ := Option.isSome_iff_exists.mp hl.1
      obtain ⟨y, hj⟩ := Option.isSome_iff_exists.mp hl.2
      exact weakAssignShared_ok hw hi hj
  | weakReset i =>
      obtain ⟨h, hi⟩ := Option.isSome_iff_exists.mp hl
      exact weakReset_ok hw hi
  | weakDestroy i =>
      obtain ⟨h, hi⟩ := Option.isSome_iff_exists.mp hl
      exact weakDestroy_ok hw hi
  | lock i =>
      obtain ⟨h, hi⟩ := Option.isSome_iff_exists.mp hl
      obtain ⟨w', -, hr, hw', hg, -⟩ := lock_spec hw hi
      exact ⟨w', hr, hw', hg⟩

theorem held_handlesOf {t : List (Option (Option Nat))} :
    held (handlesOf t) c = 0 ↔ some (some c) ∉ t := by
  have hjoin : (handlesOf t).map (fun o => o.bind Handle.counter) = t.map Option.join := by
    rw [handlesOf, List.map_map]
    refine List.map_congr_left fun o _ => ?_
    cases o <;> rfl
  rw [held, hjoin, holders, List.count_eq_zero, List.mem_map, not_iff_not]
  constructor
  · intro hex
    obtain ⟨o, ho, hc⟩ := hex
    exact Option.join_eq_some_iff.mp hc ▸ ho
  · exact fun ho => ⟨_, ho, rfl⟩

/-- The count of a control block is zero when no owner has the object. -/
theorem Inv.refCount_eq_zero (hw : Inv w) {s : Holdings} (hs : w.Shows s) {b : ControlBlock}
    (hb : w.heap.counter? c = some b) : b.refCount = 0 ↔ some (some c) ∉ s.strong := by
  rw [← held_handlesOf, ← hs.strong]
  rw [hw.tallied.counter_eq, block] at hb
  split at hb
  · cases hb
  · cases hb
    rfl

/-- A legal run has a result, the invariant holds there, and the handles are
those that the calls pass on. -/
theorem run_ok (hw : Inv w) {s : Holdings} (hs : w.Shows s) {ops : List Op}
    (hl : Along step Legal w ops) :
    ∃ w', runFrom step w ops = some w' ∧ Inv w' ∧ w'.Shows (ops.foldl Holdings.step s) := by
  refine runFrom_foldl (R := fun w s => Inv w ∧ w.Shows s) (fun w s op h hop => ?_) ⟨hw, hs⟩ hl
  obtain ⟨hw, hs⟩ := h
  obtain ⟨w₁, hr, hw₁, -⟩ := step_ok hw hop
  exact ⟨w₁, hr, hw₁, hs.step (fun c b hb => hw.refCount_eq_zero hs hb) hr⟩

/-! ## What the invariant says -/

/-- A world in which both counts of every control block are exact, whatever is
not referred to any more is gone, and nothing went twice. -/
structure Exact (w : World) : Prop where
  ref_count : ∀ c b, w.heap.counter? c = some b → b.refCount = w.owners c
  weak_count : ∀ c b, w.heap.counter? c = some b →
    b.weakCount = w.observers c + if 0 < b.refCount then 1 else 0
  blocks : w.heap.counters.length = w.heap.nodes.length
  block_alive : ∀ c < w.heap.nodes.length,
    (w.heap.counter? c).isSome = true ↔ 0 < w.owners c ∨ 0 < w.observers c
  freed_once : ∀ c < w.heap.nodes.length,
    w.heap.freed.count c = if 0 < w.owners c ∨ 0 < w.observers c then 0 else 1
  object_alive : ∀ n < w.heap.nodes.length, w.heap.lifetime? n = some .alive ↔ 0 < w.owners n
  deleted_once : ∀ n < w.heap.nodes.length,
    w.heap.deleted.count n = if 0 < w.owners n then 0 else 1
  no_dangling : ∀ i h c, w.strong? i = some h ∨ w.weak? i = some h → h.counter = some c →
    (w.heap.counter? c).isSome = true

theorem Inv.block_isSome (hw : Inv w) (c : Nat) :
    (w.heap.counter? c).isSome = true ↔ 0 < w.owners c ∨ 0 < w.observers c := by
  rw [hw.tallied.counter_eq, ← Option.ne_none_iff_isSome, Ne, block_eq_none]
  omega

theorem Inv.exact (hw : Inv w) : Exact w where
  ref_count c b hb := by
    rw [hw.tallied.counter_eq, block] at hb
    split at hb
    · cases hb
    · cases hb
      rfl
  weak_count c b hb := by
    rw [hw.tallied.counter_eq, block] at hb
    split at hb
    · cases hb
    · cases hb
      simp only [Nat.pos_iff_ne_zero, ite_not]
      split <;> rfl
  blocks := hw.tallied.length_eq.symm
  block_alive c _ := hw.block_isSome c
  freed_once c hc := by
    rw [hw.tallied.freed_eq]
    split
    · next h => rw [if_neg (by omega)]
    · next h => rw [if_pos (by omega)]
  object_alive n hn := hw.object_alive hn
  deleted_once n hn := by
    rw [hw.tallied.deleted_eq]
    split
    · next h => rw [if_neg (by omega)]
    · next h => rw [if_pos (by omega)]
  no_dangling i h c hi hc := by
    rw [hw.block_isSome]
    exact hi.imp (fun hi => owners_pos hi hc) fun hi => observers_pos hi hc

/-- What a call deletes and frees of what there was: the objects that it takes
the last owner of, and the control blocks that it takes the last handle of. -/
structure OnTime (w w' : World) : Prop where
  deleted : ∀ n < w.heap.nodes.length, w'.heap.deleted.count n =
    w.heap.deleted.count n + if 0 < w.owners n ∧ w'.owners n = 0 then 1 else 0
  freed : ∀ c < w.heap.nodes.length, w'.heap.freed.count c = w.heap.freed.count c +
    if (0 < w.owners c ∨ 0 < w.observers c) ∧ w'.owners c = 0 ∧ w'.observers c = 0 then 1 else 0

/-- The records only grow, so what is gone does not come back. -/
theorem onTime_of_grows (hw : Inv w) (hw' : Inv w') (hg : Grows w.heap w'.heap) : OnTime w w' := by
  refine ⟨fun n hn => ?_, fun c hc => ?_⟩
  · have hle : w.heap.deleted.count n ≤ w'.heap.deleted.count n := hg.deleted.sublist.count_le n
    have hn' := Nat.lt_of_lt_of_le hn hg.length_le
    rw [hw.tallied.deleted_eq, hw'.tallied.deleted_eq] at hle ⊢
    simp only [hn, hn', true_and] at hle ⊢
    by_cases h₁ : w.owners n = 0
    · by_cases h₂ : w'.owners n = 0
      · simp [h₁, h₂]
      · simp [h₁, h₂] at hle
    · by_cases h₂ : w'.owners n = 0
      · simp [h₁, h₂, Nat.pos_of_ne_zero h₁]
      · simp [h₁, h₂]
  · have hle : w.heap.freed.count c ≤ w'.heap.freed.count c := hg.freed.sublist.count_le c
    have hc' := Nat.lt_of_lt_of_le hc hg.length_le
    rw [hw.tallied.freed_eq, hw'.tallied.freed_eq] at hle ⊢
    simp only [hc, hc', true_and] at hle ⊢
    by_cases h₁ : w.owners c = 0 ∧ w.observers c = 0
    · by_cases h₂ : w'.owners c = 0 ∧ w'.observers c = 0
      · simp [h₁, h₂]
      · rw [if_pos h₁, if_neg h₂] at hle
        exact absurd hle (Nat.not_succ_le_zero 0)
    · have hpos : 0 < w.owners c ∨ 0 < w.observers c := by omega
      by_cases h₂ : w'.owners c = 0 ∧ w'.observers c = 0
      · rw [if_neg h₁, if_pos h₂, if_pos ⟨hpos, h₂⟩]
      · rw [if_neg h₁, if_neg h₂, if_neg fun he => h₂ he.2]

/-- Every run of calls on handles that exist has a result. The handles there have
the objects that the calls passed on to them, and counting is exact; every
further call deletes and frees what it has to; and `lock` answers with an owner
that is not empty just when the object is alive. -/
theorem counting_is_exact (ops : List Op) (hl : Along step Legal empty ops) :
    ∃ w, runFrom step empty ops = some w ∧ w.Shows (ops.foldl Holdings.step .empty) ∧ Exact w ∧
      (∀ op, w.Legal op → ∃ w', w.step op = some w' ∧ OnTime w w') ∧
      ∀ i h, w.weak? i = some h → ∃ w' g, w.step (.lock i) = some w' ∧
        w'.strong? w.heap.handles.length = some g ∧
        (g.ptr.isSome = true ↔ w.ObjectAlive h) ∧ (g.ptr.isSome = true → g = h) := by
  obtain ⟨w, hrun, hw, hshows⟩ := run_ok inv_empty shows_empty hl
  refine ⟨w, hrun, hshows, hw.exact, fun op hop => ?_, fun i h hi => ?_⟩
  · obtain ⟨w', hr, hw', hg⟩ := step_ok hw hop
    exact ⟨w', hr, onTime_of_grows hw hw' hg⟩
  · obtain ⟨w', g, hr, -, -, hlast, halive, hdead⟩ := lock_spec hw hi
    have hsome : g.ptr.isSome = true ↔ w.ObjectAlive h := by
      by_cases ha : w.ObjectAlive h
      · refine iff_of_true ?_ ha
        rw [halive ha, hw.weak_ptr i h hi]
        obtain ⟨n, hn, -⟩ := ha
        rw [hn]
        rfl
      · refine iff_of_false ?_ ha
        rw [hdead ha]
        exact fun he => by cases he
    exact ⟨w', g, hr, hlast, hsome, fun hg => halive (hsome.mp hg)⟩

/-- Two owners and two observers of one object: an assignment from one to the
other, a `lock`, the last owner gone, and a `lock` that comes too late. -/
theorem counting_is_exact_of_shared_object :
    ∃ w, runFrom step empty [.make, .weakOf 0, .copy 0, .assign 0 1, .weakCopy 0, .lock 0,
      .moveAssign 0 1, .destroy 2, .weakAssign 0 1, .destroy 0, .lock 1, .weakReset 0,
      .weakDestroy 1] = some w ∧ Exact w ∧
      w.Shows ⟨[none, some none, none, some none], [some none, none], 1⟩ := by
  obtain ⟨w, hrun, hshows, hexact, -, -⟩ := counting_is_exact [.make, .weakOf 0, .copy 0,
    .assign 0 1, .weakCopy 0, .lock 0, .moveAssign 0 1, .destroy 2, .weakAssign 0 1, .destroy 0,
    .lock 1, .weakReset 0, .weakDestroy 1] (by decide)
  exact ⟨w, hrun, hexact, hshows⟩

end Ycetl.Ref.Shared.World
