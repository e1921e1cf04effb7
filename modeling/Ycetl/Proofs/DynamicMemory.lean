import Ycetl.Lib.Runs
import Ycetl.Proofs.DynamicMemoryHeap
import Ycetl.Proofs.Holdings

/-!
# Working memory is released by the last holder

The holders of a backend are the memory objects that point to it: those a
caller made, those inside handlers, and those inside the pointers that were
returned. Each call moves the number of holders by the objects it makes,
changes and ends, and the heap is accounted for those numbers before and after
it. So in every state of a run the count is the number of holders, a backend
with a holder has all its blocks, and one without was deleted once and gave
each of them back.
-/

namespace Ycetl.Ref.World

open Ycetl.Lib Heap

variable {Ty : Type} {w w' : World Ty} {h g : Nat} {x y : Handle}

/-- The backend of an object. -/
def backendOf (x : Option Handle) : Option Nat := x.bind fun x => x.memory.ptr

def owners (w : World Ty) : List (Option Nat) := w.handles.map backendOf

/-- The number of objects that hold a backend. -/
def holdersOf (w : World Ty) : Nat → Nat := holders w.owners

/-- What holds between two calls. -/
structure Inv (w : World Ty) : Prop where
  accounted : w.heap.Accounted w.holdersOf
  ptr_eq : ∀ h x, w.handle? h = some x → x.memory.ptr = x.memory.count
  distinct : ∀ m ∈ w.multitypes, (m.map Prod.snd).Nodup

theorem inv_empty : Inv (empty : World Ty) where
  accounted := accounted_empty
  ptr_eq _ _ hx := by cases hx
  distinct _ hm := by cases hm

theorem Inv.held (hi : Inv w) (hx : w.handle? h = some x) : Held w.holdersOf x.memory := by
  have heq := hi.ptr_eq h x hx
  refine ⟨heq, fun c hc => holders_pos (i := h) ?_⟩
  rw [owners, List.getElem?_map, getElem?_of_record? hx]
  exact congrArg some (heq.trans hc)

/-! ## Objects -/

theorem holdersOf_construct (w : World Ty) (H : Heap) (x : Handle) :
    (w.construct H x).holdersOf = gain w.holdersOf x.memory.ptr := by
  rw [holdersOf, owners, construct, List.map_append]
  exact holders_append w.owners _

theorem holdersOf_put (hx : w.handle? h = some x) (H : Heap) (y : Option Handle) :
    (w.put H h y).holdersOf = gain (lose w.holdersOf x.memory.ptr) (backendOf y) := by
  rw [holdersOf, owners, put, List.map_set]
  refine holders_set ?_ _
  rw [List.getElem?_map, getElem?_of_record? hx]
  rfl

theorem handle?_construct (w : World Ty) (H : Heap) (x : Handle) (i : Nat) :
    (w.construct H x).handle? i = if i = w.handles.length then some x else w.handle? i :=
  record?_append _ _ _

theorem handle?_put (hx : w.handle? h = some x) (H : Heap) (y : Option Handle) (i : Nat) :
    (w.put H h y).handle? i = if h = i then y else w.handle? i :=
  record?_set (lt_of_record? hx) _ _

/-- A new object on a heap that is accounted for it. -/
theorem Inv.construct (hi : Inv w) {H : Heap} (hp : x.memory.ptr = x.memory.count)
    (hH : H.Accounted (gain w.holdersOf x.memory.ptr)) : Inv (w.construct H x) where
  accounted := holdersOf_construct w H x ▸ hH
  ptr_eq i y hy := by
    rw [handle?_construct] at hy
    split at hy
    · rw [Option.some.injEq] at hy
      exact hy ▸ hp
    · exact hi.ptr_eq i y hy
  distinct := hi.distinct

/-- A new value of an object, or its end. -/
theorem Inv.put (hi : Inv w) (hx : w.handle? h = some x) {H : Heap} {y : Option Handle}
    (hp : ∀ z, y = some z → z.memory.ptr = z.memory.count)
    (hH : H.Accounted (gain (lose w.holdersOf x.memory.ptr) (backendOf y))) :
    Inv (w.put H h y) where
  accounted := holdersOf_put hx H y ▸ hH
  ptr_eq i z hz := by
    rw [handle?_put hx] at hz
    split at hz
    · exact hp z hz
    · exact hi.ptr_eq i z hz
  distinct := hi.distinct

theorem Inv.create (hi : Inv w) : Inv w.create := by
  obtain ⟨hacc, hptr⟩ := hi.accounted.create
  refine hi.construct ?_ ?_
  · rw [hptr]
  · rw [hptr]
    exact hacc

/-- Whatever holds a backend, a pointer with a copy of it is one holder more. -/
theorem Inv.pointer (hi : Inv w) (hx : w.handle? h = some x) (raw : Option Nat) :
    ∃ H, w.pointer x.memory raw = some (w.construct H ⟨x.memory, raw⟩) ∧
      Inv (w.construct H ⟨x.memory, raw⟩) ∧ H.blocks = w.heap.blocks := by
  have hheld := hi.held hx
  obtain ⟨H, hcopy, hacc, hblocks⟩ := hheld.copy hi.accounted
  refine ⟨H, ?_, hi.construct hheld.ptr_eq (hheld.ptr_eq ▸ hacc), hblocks⟩
  simp only [World.pointer, hcopy, Option.bind_eq_bind, Option.bind_some]
  rfl

theorem Inv.copy (hi : Inv w) (hx : w.handle? h = some x) :
    ∃ H, w.copy h = some (w.construct H x) ∧ Inv (w.construct H x) ∧
      H.blocks = w.heap.blocks := by
  obtain ⟨H, hptr, hinv, hblocks⟩ := hi.pointer hx x.ptr
  refine ⟨H, ?_, hinv, hblocks⟩
  rw [World.pointer] at hptr
  rw [World.copy, hx, Option.bind_eq_bind, Option.bind_some]
  exact hptr

theorem Inv.reset (hi : Inv w) (hx : w.handle? h = some x) :
    ∃ H, w.reset h = some (w.put H h (some ⟨.null, x.ptr⟩)) ∧
      Inv (w.put H h (some ⟨.null, x.ptr⟩)) ∧ H.blocks = w.heap.blocks := by
  have hheld := hi.held hx
  obtain ⟨H, hreset, hacc, hblocks⟩ := hheld.reset hi.accounted
  refine ⟨H, ?_, hi.put hx (fun z hz => ?_) (hheld.ptr_eq ▸ hacc), hblocks⟩
  · simp only [World.reset, hx, hreset, Option.bind_eq_bind, Option.bind_some]
    rfl
  · rw [Option.some.injEq] at hz
    exact hz ▸ rfl

theorem Inv.destroy (hi : Inv w) (hx : w.handle? h = some x) :
    ∃ H, w.destroy h = some (w.put H h none) ∧ Inv (w.put H h none) ∧
      H.blocks = w.heap.blocks := by
  have hheld := hi.held hx
  obtain ⟨H, hreset, hacc, hblocks⟩ := hheld.reset hi.accounted
  refine ⟨H, ?_, hi.put hx (fun z hz => by cases hz) (hheld.ptr_eq ▸ hacc), hblocks⟩
  simp only [World.destroy, hx, hreset, Option.bind_eq_bind, Option.bind_some]
  rfl

/-- The old backend is let go of before the new one is held. -/
theorem Inv.assign (hi : Inv w) (hx : w.handle? h = some x) (hy : w.handle? g = some y) :
    ∃ w', w.assign h g = some w' ∧ Inv w' ∧ w'.heap.blocks = w.heap.blocks := by
  by_cases hhg : h = g
  · exact ⟨w, by rw [World.assign, if_pos hhg], hi, rfl⟩
  · obtain ⟨H₁, hreset, hi₁, hb₁⟩ := hi.reset hx
    have hx₁ : (w.put H₁ h (some ⟨.null, x.ptr⟩)).handle? h = some ⟨.null, x.ptr⟩ := by
      rw [handle?_put hx, if_pos rfl]
    have hy₁ : (w.put H₁ h (some ⟨.null, x.ptr⟩)).handle? g = some y := by
      rw [handle?_put hx, if_neg hhg, hy]
    have hheld := hi₁.held hy₁
    obtain ⟨H₂, hcopy, hacc, hb₂⟩ := hheld.copy hi₁.accounted
    refine ⟨(w.put H₁ h (some ⟨.null, x.ptr⟩)).put H₂ h (some y), ?_,
      hi₁.put hx₁ (fun z hz => ?_) ?_, hb₂.trans hb₁⟩
    · rw [World.assign, if_neg hhg]
      simp only [hreset, hy₁, hcopy, Option.bind_eq_bind, Option.bind_some]
      rfl
    · rw [Option.some.injEq] at hz
      exact hz ▸ hheld.ptr_eq
    · rw [← hheld.ptr_eq] at hacc
      exact hacc

theorem usable_iff : w.Usable h ↔ ∃ x b, w.handle? h = some x ∧ x.memory.ptr = some b := by
  rw [Usable, Option.isSome_iff_exists]
  constructor
  · intro hex
    obtain ⟨b, hb⟩ := hex
    obtain ⟨x, hx, hxb⟩ := Option.bind_eq_some_iff.mp hb
    exact ⟨x, b, hx, hxb⟩
  · intro hex
    obtain ⟨x, b, hx, hxb⟩ := hex
    exact ⟨b, Option.bind_eq_some_iff.mpr ⟨x, hx, hxb⟩⟩

theorem alive_iff : w.Alive h ↔ ∃ x, w.handle? h = some x := Option.isSome_iff_exists

/-- A pointer to a new block, or a null pointer when nothing was asked for. -/
structure Returned (w w' : World Ty) (b n : Nat) (raw : Option Nat) : Prop where
  pointer : w'.handle? w.handles.length = some ⟨⟨some b, some b⟩, raw⟩
  null : n = 0 → raw = none ∧ w'.heap.blocks = w.heap.blocks
  block : 0 < n → raw = some w.heap.blocks.length ∧
    w'.heap.blocks = w.heap.blocks ++ [(b, ⟨raw, n⟩)]

theorem Inv.allocate (hi : Inv w) (hx : w.handle? h = some x) {b : Nat}
    (hb : x.memory.ptr = some b) (n : Nat) :
    ∃ w' raw, w.allocate h n = some w' ∧ Inv w' ∧ Returned w w' b n raw := by
  have hheld := hi.held hx
  have hcount := hheld.ptr_eq ▸ hb
  obtain ⟨H₁, raw, halloc, hacc, hblocks⟩ :=
    hi.accounted.allocate (hheld.pos b hcount) n
  have hi₁ : Inv ({ w with heap := H₁ } : World Ty) := ⟨hacc, hi.ptr_eq, hi.distinct⟩
  obtain ⟨H₂, hptr, hinv, hb₂⟩ := hi₁.pointer (h := h) hx raw
  refine ⟨_, raw, ?_, hinv, ⟨?_, fun hn => ?_, fun hn => ?_⟩⟩
  · simp only [World.allocate, hx, hb, halloc, Option.bind_eq_bind, Option.bind_some]
    exact hptr
  · rw [handle?_construct, if_pos rfl]
    congr 2
    exact congrArg₂ SharedPtr.mk hb hcount
  · rw [if_pos hn] at hblocks
    exact ⟨hblocks.1, hb₂.trans hblocks.2⟩
  · rw [if_neg (by omega)] at hblocks
    exact ⟨hblocks.1, hb₂.trans hblocks.2⟩

/-- The argument of `deallocate` is a holder for the time of the call, and
nothing else changes. -/
theorem Inv.deallocate (hi : Inv w) (hx : w.handle? h = some x) {b : Nat}
    (hb : x.memory.ptr = some b) {p : Nat} (hy : w.handle? p = some y) (n : Nat) :
    ∃ w', w.deallocate h p n = some w' ∧ Inv w' ∧ w'.heap.blocks = w.heap.blocks := by
  obtain ⟨H₁, hcopy, hi₁, hb₁⟩ := hi.copy hy
  have hq : (w.construct H₁ y).handle? w.handles.length = some y := by
    rw [handle?_construct, if_pos rfl]
  have hx₁ : (w.construct H₁ y).handle? h = some x := by
    have := lt_of_record? hx
    rw [handle?_construct, if_neg (by omega), hx]
  have hheld := hi₁.held hx₁
  have hdealloc := hi₁.accounted.deallocate (hheld.pos b (hheld.ptr_eq ▸ hb)) y.ptr n
  obtain ⟨H₂, hdestroy, hi₂, hb₂⟩ := hi₁.destroy hq
  refine ⟨_, ?_, hi₂, hb₂.trans hb₁⟩
  simp only [World.deallocate, hcopy, hq, hx₁, hb, hdealloc, Option.bind_eq_bind,
    Option.bind_some]
  exact hdestroy

/-! ## Every backend in a state -/

/-- What is true of the memory after every run. -/
structure Released (w : World Ty) : Prop where
  count_eq : ∀ b < w.heap.backends.length, w.heap.count? b =
    if w.holdersOf b = 0 then none else some (w.holdersOf b)
  alive_iff : ∀ b < w.heap.backends.length,
    (w.heap.backend? b).isSome = true ↔ 0 < w.holdersOf b
  destroyed_once : ∀ b < w.heap.backends.length, w.heap.destroyed.count b =
    if w.holdersOf b = 0 then 1 else 0
  recorded_once : ∀ b B, w.heap.backend? b = some B → B.Ledger (w.heap.blocksOf b)
  released_once : ∀ e ∈ w.heap.blocks,
    w.heap.released.filter (fun r => r.ptr = e.2.ptr) =
      if w.holdersOf e.1 = 0 then [e.2] else []
  released_known : ∀ r ∈ w.heap.released, ∃ b, (b, r) ∈ w.heap.blocks

theorem Inv.released (hi : Inv w) : Released w where
  count_eq b _ := by
    have he := hi.accounted.entry b
    cases hf : w.holdersOf b with
    | zero =>
        rw [hf] at he
        exact he.1
    | succ n =>
        rw [hf] at he
        exact he.1
  alive_iff b _ := by
    have he := hi.accounted.entry b
    cases hf : w.holdersOf b with
    | zero =>
        rw [hf] at he
        rw [he.2]
        simp
    | succ n =>
        rw [hf] at he
        obtain ⟨-, B, hB, -⟩ := he
        rw [hB]
        simp
  destroyed_once _ hb := hi.accounted.count_destroyed hb
  recorded_once b B hB := by
    have he := hi.accounted.entry b
    cases hf : w.holdersOf b with
    | zero =>
        rw [hf, Entry, hB] at he
        cases he.2
    | succ n =>
        rw [hf] at he
        obtain ⟨-, B', hB', hled⟩ := he
        rw [hB, Option.some.injEq] at hB'
        exact hB' ▸ hled
  released_once e he := by
    rw [hi.accounted.filter_released he,
      hi.accounted.count_destroyed (hi.accounted.owner_lt e he)]
    split <;> rfl
  released_known _ hr := hi.accounted.mem_released hr

/-! ## Handlers -/

/-- The members of a tuple that is being built have the next numbers. -/
def NewMembers (w : World Ty) (tuple : List (Ty × Nat)) : Prop :=
  (tuple.map Prod.snd).Nodup ∧ ∀ e ∈ tuple, w.handles.length ≤ e.2

theorem newMembers_cons {H : Heap} {tuple : List (Ty × Nat)}
    (h : NewMembers (w.construct H x) tuple) (t : Ty) :
    NewMembers w ((t, w.handles.length) :: tuple) := by
  have hlen : (w.construct H x).handles.length = w.handles.length + 1 := by
    rw [construct, List.length_append, List.length_singleton]
  refine ⟨List.nodup_cons.mpr ⟨fun hmem => ?_, h.1⟩, fun e he => ?_⟩
  · obtain ⟨e, he, heq⟩ := List.mem_map.mp hmem
    have := h.2 e he
    omega
  · rcases List.mem_cons.mp he with rfl | he
    · exact Nat.le_refl _
    · have := h.2 e he
      omega

theorem Inv.addMultitype {r : World Ty × List (Ty × Nat)} (hi : Inv r.1)
    (hnew : (r.2.map Prod.snd).Nodup) : Inv (addMultitype r) where
  accounted := hi.accounted
  ptr_eq := hi.ptr_eq
  distinct m hm := by
    rcases List.mem_append.mp hm with hm | hm
    · exact hi.distinct m hm
    · rw [List.mem_singleton.mp hm]
      exact hnew

theorem Inv.createAll (ts : List Ty) {w : World Ty} (hi : Inv w) :
    Inv (w.createAll ts).1 ∧ NewMembers w (w.createAll ts).2 ∧
      (w.createAll ts).1.heap.blocks = w.heap.blocks := by
  induction ts generalizing w with
  | nil => exact ⟨hi, ⟨List.nodup_nil, fun e he => by cases he⟩, rfl⟩
  | cons t ts ih =>
      obtain ⟨hinv, hnew, hblocks⟩ := ih hi.create
      exact ⟨hinv, newMembers_cons hnew t, hblocks⟩

theorem Inv.destroyAll (tuple : List (Ty × Nat)) {w : World Ty} (hi : Inv w)
    (hnodup : (tuple.map Prod.snd).Nodup) (halive : ∀ e ∈ tuple, w.Alive e.2) :
    ∃ w', w.destroyAll tuple = some w' ∧ Inv w' ∧ w'.heap.blocks = w.heap.blocks := by
  induction tuple generalizing w with
  | nil => exact ⟨w, rfl, hi, rfl⟩
  | cons e tuple ih =>
      rw [List.map_cons, List.nodup_cons] at hnodup
      obtain ⟨x, hx⟩ := alive_iff.mp (halive e (List.mem_cons_self ..))
      obtain ⟨H, hdestroy, hi₁, hb₁⟩ := hi.destroy hx
      obtain ⟨w', hall, hi', hb'⟩ := ih hi₁ hnodup.2 fun f hf => by
        obtain ⟨y, hy⟩ := alive_iff.mp (halive f (List.mem_cons_of_mem _ hf))
        have hne : e.2 ≠ f.2 := fun heq =>
          hnodup.1 (heq ▸ List.mem_map_of_mem (f := Prod.snd) hf)
        exact alive_iff.mpr ⟨y, by rw [handle?_put hx, if_neg hne, hy]⟩
      refine ⟨w', ?_, hi', hb'.trans hb₁⟩
      rw [World.destroyAll, hdestroy, Option.bind_eq_bind, Option.bind_some, hall]

variable [DecidableEq Ty]

/-- The copies leave the larger handler and its memories where they are. -/
theorem Inv.copyAll {m : Nat} (ts : List Ty) {w : World Ty} (hi : Inv w)
    (hts : ∀ t ∈ ts, ∃ h ∈ w.handlerFor m t, w.Alive h) :
    ∃ w' tuple, w.copyAll m ts = some (w', tuple) ∧ Inv w' ∧ NewMembers w tuple ∧
      w'.heap.blocks = w.heap.blocks := by
  induction ts generalizing w with
  | nil => exact ⟨w, [], rfl, hi, ⟨List.nodup_nil, fun e he => by cases he⟩, rfl⟩
  | cons t ts ih =>
      obtain ⟨h, hh, halive⟩ := hts t (List.mem_cons_self ..)
      obtain ⟨x, hx⟩ := alive_iff.mp halive
      obtain ⟨H, hcopy, hi₁, hb₁⟩ := hi.copy hx
      obtain ⟨w', tuple, hall, hi', hnew, hb'⟩ := ih hi₁ fun u hu => by
        obtain ⟨g, hg, hgalive⟩ := hts u (List.mem_cons_of_mem _ hu)
        obtain ⟨y, hy⟩ := alive_iff.mp hgalive
        have hlt := lt_of_record? hy
        exact ⟨g, hg, alive_iff.mpr ⟨y, by rw [handle?_construct, if_neg (by omega), hy]⟩⟩
      refine ⟨w', _, ?_, hi', newMembers_cons hnew t, hb'.trans hb₁⟩
      simp only [World.copyAll, Option.mem_def.mp hh, hcopy, hall, Option.bind_eq_bind,
        Option.bind_some]
      rfl

/-! ## Calls -/

/-- The object a call asks for memory, and how much. -/
def asks (w : World Ty) : Op Ty → Option (Nat × Nat)
  | .allocate h n => some (h, n)
  | .allocateFor m t n => (w.handlerFor m t).map fun h => (h, n)
  | _ => none

/-- An allocation returns the pointer to a block that is recorded with its
size, or a null pointer, and every other call leaves the blocks as they are. -/
def Records (w w' : World Ty) (op : Op Ty) : Prop :=
  match w.asks op with
  | none => w'.heap.blocks = w.heap.blocks
  | some (h, n) => ∃ b raw, backendOf (w.handle? h) = some b ∧ Returned w w' b n raw

theorem step_spec (hi : Inv w) {op : Op Ty} (hl : w.Legal op) :
    ∃ w', w.step op = some w' ∧ Inv w' ∧ Records w w' op := by
  cases op with
  | create => exact ⟨w.create, rfl, hi.create, rfl⟩
  | copy h =>
      obtain ⟨x, hx⟩ := alive_iff.mp hl
      obtain ⟨H, hcopy, hi', hb⟩ := hi.copy hx
      exact ⟨_, hcopy, hi', hb⟩
  | assign h g =>
      obtain ⟨x, hx⟩ := alive_iff.mp hl.1
      obtain ⟨y, hy⟩ := alive_iff.mp hl.2
      exact hi.assign hx hy
  | reset h =>
      obtain ⟨x, hx⟩ := alive_iff.mp hl
      obtain ⟨H, hreset, hi', hb⟩ := hi.reset hx
      exact ⟨_, hreset, hi', hb⟩
  | destroy h =>
      obtain ⟨x, hx⟩ := alive_iff.mp hl
      obtain ⟨H, hdestroy, hi', hb⟩ := hi.destroy hx
      exact ⟨_, hdestroy, hi', hb⟩
  | none h =>
      obtain ⟨x, hx⟩ := alive_iff.mp hl
      obtain ⟨H, hptr, hi', hb⟩ := hi.pointer hx none
      refine ⟨_, ?_, hi', hb⟩
      rw [step, nullPointer, hx, Option.bind_eq_bind, Option.bind_some]
      exact hptr
  | allocate h n =>
      obtain ⟨x, b, hx, hb⟩ := usable_iff.mp hl
      obtain ⟨w', raw, halloc, hi', hret⟩ := hi.allocate hx hb n
      exact ⟨w', halloc, hi', b, raw, by rw [hx]; exact hb, hret⟩
  | allocateFor m t n =>
      obtain ⟨h, hh, husable⟩ := hl
      obtain ⟨x, b, hx, hb⟩ := usable_iff.mp husable
      obtain ⟨w', raw, halloc, hi', hret⟩ := hi.allocate hx hb n
      refine ⟨w', ?_, hi', ?_⟩
      · rw [step, Option.mem_def.mp hh, Option.bind_eq_bind, Option.bind_some, halloc]
      · rw [Records, asks, Option.mem_def.mp hh, Option.map_some]
        exact ⟨b, raw, by rw [hx]; exact hb, hret⟩
  | deallocate h p n =>
      obtain ⟨x, b, hx, hb⟩ := usable_iff.mp hl.1
      obtain ⟨y, hy⟩ := alive_iff.mp hl.2
      exact hi.deallocate hx hb hy n
  | deallocateFor m t p n =>
      obtain ⟨⟨h, hh, husable⟩, hp⟩ := hl
      obtain ⟨x, b, hx, hb⟩ := usable_iff.mp husable
      obtain ⟨y, hy⟩ := alive_iff.mp hp
      obtain ⟨w', hdealloc, hi', hblocks⟩ := hi.deallocate hx hb hy n
      refine ⟨w', ?_, hi', hblocks⟩
      rw [step, Option.mem_def.mp hh, Option.bind_eq_bind, Option.bind_some, hdealloc]
  | createMultitype ts =>
      obtain ⟨hi', hnew, hb⟩ := hi.createAll ts
      exact ⟨_, rfl, hi'.addMultitype hnew.1, hb⟩
  | downgrade m ts =>
      obtain ⟨w', tuple, hall, hi', hnew, hb⟩ := hi.copyAll ts hl.2
      refine ⟨World.addMultitype (w', tuple), ?_, hi'.addMultitype hnew.1, hb⟩
      rw [step, hall, Option.map_some]
  | destroyMultitype m =>
      obtain ⟨tuple, ht, halive⟩ := hl
      have hmem := List.mem_of_getElem? (Option.mem_def.mp ht)
      obtain ⟨w', hall, hi', hb⟩ := hi.destroyAll tuple.reverse
        (by rw [List.map_reverse]; exact List.nodup_reverse.mpr (hi.distinct tuple hmem))
        fun e he => halive e (List.mem_reverse.mp he)
      refine ⟨w', ?_, hi', hb⟩
      rw [step, Option.mem_def.mp ht, Option.bind_eq_bind, Option.bind_some, hall]

/-! ## Runs -/

/-- Every run of legal calls is defined. The objects are those that the calls
make and end, with the backends that they pass on, and the memory of a backend
is held by its holders, or was released once. Every further call records what
it returns. -/
theorem last_holder_releases {Ty : Type} [DecidableEq Ty] (ops : List (Op Ty))
    (h : Along step Legal (empty : World Ty) ops) :
    ∃ w, runFrom step empty ops = some w ∧ w.holdings = ops.foldl Holdings.step .empty ∧
      Released w ∧ ∀ op, w.Legal op → ∃ w', w.step op = some w' ∧ Records w w' op := by
  have hstep : ∀ (w : World Ty) (s : Holdings Ty) op, (Inv w ∧ w.holdings = s) → w.Legal op →
      ∃ w', w.step op = some w' ∧ Inv w' ∧ w'.holdings = s.step op := by
    rintro w s op ⟨hi, rfl⟩ hl
    obtain ⟨w', hs, hi', -⟩ := step_spec hi hl
    exact ⟨w', hs, hi', step_holdings hl hs⟩
  obtain ⟨w, hw, hi, hholdings⟩ := runFrom_foldl hstep ⟨inv_empty, rfl⟩ h
  refine ⟨w, hw, hholdings, hi.released, fun op hl => ?_⟩
  obtain ⟨w', hs, -, hrec⟩ := step_spec hi hl
  exact ⟨w', hs, hrec⟩

/-- A memory and a pointer into it, a handler made from a larger one, and the
end of all of them in mixed order, but for the pointer that was reset. -/
theorem last_holder_releases_run :
    ∃ w, runFrom step (empty : World Bool)
        [.create, .allocate 0 3, .copy 1, .createMultitype [false, true],
          .downgrade 0 [true], .allocateFor 1 true 5, .assign 2 0, .deallocate 0 1 3,
          .destroy 0, .destroyMultitype 0, .destroyMultitype 1, .reset 1, .destroy 2,
          .destroy 6] = some w ∧ Released w ∧
      w.holdings.objects = [none, some none, none, none, none, none, none, none] := by
  obtain ⟨w, hrun, hholdings, hreleased, -⟩ := last_holder_releases
    ([.create, .allocate 0 3, .copy 1, .createMultitype [false, true],
      .downgrade 0 [true], .allocateFor 1 true 5, .assign 2 0, .deallocate 0 1 3,
      .destroy 0, .destroyMultitype 0, .destroyMultitype 1, .reset 1, .destroy 2,
      .destroy 6] : List (Op Bool)) (by decide)
  exact ⟨w, hrun, hreleased, by rw [hholdings]; decide⟩

end Ycetl.Ref.World
