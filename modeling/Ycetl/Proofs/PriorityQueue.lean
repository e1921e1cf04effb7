import Ycetl.Lib.Heaps
import Ycetl.Proofs.OrderedOps
import Ycetl.Ref.PriorityQueue

/-!
# `priority_queue` is a heap

On the list that the container holds, an exchange through a temporary is an
exchange, and nothing else the queue does touches more than the last element.
The two sifts then keep the almost-heaps of `Lib.Heaps` and end in a heap: the
upward one because its place moves up, the downward one because its place moves
down. What a call adds or takes out is one element, and what it takes out is
one that nothing in the queue exceeds.
-/

namespace Ycetl.Ref.PriorityQueue

open Ycetl.Lib Ycetl.Lib.Heaps Ordered DynamicArray

variable {T : Type} {C : WeakOrder T} {q : PriorityQueue T} {l : List T}

/-! ## The container as a list -/

theorem holds_pushBack (h : Holds q l) (v : T) : Holds (pushBack q v) (l ++ [v]) := by
  have : Inhabited T := ⟨v⟩
  have hgranted : Granted TypedDynamicMemory.allocate q.store
      (growthRequest q.data (.pushBack v)) := by
    rw [Granted, TypedDynamicMemory.allocate]
  have hr := call_result h.fits h.offset_pos (c := .pushBack v) trivial hgranted
  refine ⟨?_, hr.fits h.fits h.offset_pos, ?_⟩
  · have := hr.offset_eq
    have := h.offset_pos
    show 0 < (call TypedDynamicMemory.allocate q.store q.data (.pushBack v)).1.offset
    omega
  · refine hr.contents_eq.trans ?_
    rw [h.contents_eq, List.map_append]
    rfl

theorem holds_popBack (h : Holds q l) (h0 : 0 < l.length) : Holds (popBack q) l.dropLast := by
  have hsize : q.data.size = l.length := h.size_eq
  have hp := popBack_inPlace h.fits (by omega)
  rw [h.contents_eq, hsize, ← List.map_take, ← List.dropLast_eq_take] at hp
  exact holds_of_inPlace h hp

/-- What a move out of a cell leaves. -/
theorem view_drain_move (s : Store T) (p r : Nat) :
    (s.drain (.move p)).view r =
      if r = p then (s.view p).map fun _ => none else s.view r := by
  rw [Store.view_drain, Src.moved]
  by_cases hr : r = p
  · rw [if_pos (congrArg some hr.symm), if_pos hr, hr]
  · rw [if_neg fun hm => hr (Option.some.inj hm).symm, if_neg hr]

/-- The cells after an exchange through a temporary. -/
theorem view_exchange {s : Store T} {p u : Nat} {v w : T} (hne : p ≠ u)
    (hv : s.view p = some (some v)) (hw : s.view u = some (some w)) (r : Nat) :
    (((s.drain (.move p)).assign p (.move u)).assign u (.value v)).view r =
      if r = u then some (some v) else if r = p then some (some w) else s.view r := by
  have hlive : (s.drain (.move p)).Live p := by
    rw [Store.Live, view_drain_move, if_pos rfl, hv]
    rfl
  have hfetch : (s.drain (.move p)).fetch (.move u) = some w := by
    show ((s.drain (.move p)).view u).join = some w
    rw [view_drain_move, if_neg (Ne.symm hne), hw]
    rfl
  have hfirst : ∀ r, ((s.drain (.move p)).assign p (.move u)).view r =
      if r = p then some (some w) else if r = u then some none else s.view r := by
    intro r
    rw [Store.view_assign _ (Src.moved_move_ne hne.symm), hfetch]
    by_cases hr : r = p
    · rw [if_pos ⟨hr, hlive⟩, if_pos hr]
    · rw [if_neg fun hc => hr hc.1, if_neg hr, view_drain_move, view_drain_move,
        view_drain_move, if_neg (Ne.symm hne), if_neg hr, hw]
      rfl
  have hlive' : ((s.drain (.move p)).assign p (.move u)).Live u := by
    rw [Store.Live, hfirst, if_neg (Ne.symm hne), if_pos rfl]
    rfl
  rw [Store.view_assign _ (by simp [Src.moved])]
  by_cases hr' : r = u
  · rw [if_pos ⟨hr', hlive'⟩, if_pos hr']
    rfl
  · rw [if_neg fun hc => hr' hc.1, if_neg hr']
    show ((s.drain (.move p)).assign p (.move u)).view r = _
    rw [hfirst, if_neg hr']

theorem view_elem (h : Holds q l) {i : Nat} (hi : i < l.length) :
    q.store.view (q.data.data + i) = some (some l[i]) := by
  have hsize : q.data.size = l.length := h.size_eq
  have hlive := h.fits.live (q.data.data + i) ⟨by omega, by omega⟩
  have hget := contents_get (s := q.store) (a := q.data) (k := i) (by omega)
  rw [h.contents_eq, List.getElem?_map, List.getElem?_eq_getElem hi, Option.map_some,
    Option.some.injEq] at hget
  obtain ⟨o, ho⟩ := Option.isSome_iff_exists.mp hlive
  rw [ho] at hget ⊢
  rw [hget]
  rfl

theorem holds_exchange (h : Holds q l) {i j : Nat} (hne : i ≠ j) (hi : i < l.length)
    (hj : j < l.length) :
    ∃ q', exchange q i j = some q' ∧ Holds q' (Heaps.exchange l i j) := by
  have hsize : q.data.size = l.length := h.size_eq
  have hcap := h.fits.size_le
  have hview := view_exchange (s := q.store) (p := q.data.data + i) (u := q.data.data + j)
    (by omega) (view_elem h hi) (view_elem h hj)
  have hlen := length_exchange hi hj
  have hplace : InPlace q.store q.data (((q.store.drain (.move (q.data.data + i))).assign
      (q.data.data + i) (.move (q.data.data + j))).assign (q.data.data + j) (.value l[i]))
      q.data ((Heaps.exchange l i j).map some) := by
    refine ⟨hcap, Or.inl ⟨rfl, rfl⟩, ?_, fun r hr => ?_, fun r hr => ?_, ?_⟩
    · rw [Store.offset_assign, Store.offset_assign, Store.offset_drain]
    · have hout : ∀ k < l.length, r ≠ q.data.data + k := fun k hk he =>
        hr ⟨by omega, by omega⟩
      rw [hview, if_neg (hout j hj), if_neg (hout i hi)]
    · rw [Store.Live, hview]
      split
      · rfl
      · split
        · rfl
        · exact h.fits.live r hr
    · refine contents_eq_of (by rw [List.length_map, hlen, hsize]) fun k hk => ?_
      have hk' : k < l.length := by omega
      rw [hview, List.getElem?_map, getElem?_exchange hi hj]
      by_cases hkj : k = j
      · rw [if_pos (by omega), hkj, Equiv.swap_apply_right, List.getElem?_eq_getElem hi]
        rfl
      rw [if_neg (by omega)]
      by_cases hki : k = i
      · rw [if_pos (by omega), hki, Equiv.swap_apply_left, List.getElem?_eq_getElem hj]
        rfl
      · rw [if_neg (by omega), Equiv.swap_apply_of_ne_of_ne hki hkj, view_elem h hk',
          List.getElem?_eq_getElem hk']
        rfl
  refine ⟨_, ?_, holds_of_inPlace h hplace⟩
  rw [exchange, if_pos ⟨by rw [h.size_eq]; exact hi, by rw [h.size_eq]; exact hj⟩, h.at?_eq,
    List.getElem?_eq_getElem hi]
  rfl

/-! ## The sifts -/

/-- `sift_up` from the bad place of an almost-heap ends in a heap. -/
theorem siftUp_spec {i : Nat} (fuel : Nat) (hq : Holds q l) (h : UpHeap C l i)
    (hi : i < l.length) (hfuel : i < fuel) :
    ∃ q' l', siftUp C fuel q i = some q' ∧ Holds q' l' ∧ Heaps.Heap C l' ∧ l'.Perm l := by
  induction fuel generalizing q l i with
  | zero => exact absurd hfuel (Nat.not_lt_zero i)
  | succ fuel ih =>
      rw [siftUp]
      by_cases hi0 : 0 < i
      · have hpi := parent_lt hi0
        have hp := Nat.lt_trans hpi hi
        have hpget : q.at? ((i - 1) / 2) = some l[parent i] := by
          rw [hq.at?_eq]
          exact List.getElem?_eq_getElem hp
        have higet : q.at? i = some l[i] := by
          rw [hq.at?_eq, List.getElem?_eq_getElem hi]
        rw [if_pos hi0]
        simp only [hpget, higet, Option.bind_eq_bind, Option.bind_some]
        cases hlt : C.lt l[parent i] l[i] with
        | true =>
            -- The element goes up, and the repair goes on at the place above.
            obtain ⟨q₁, hex, hq₁⟩ := holds_exchange hq (Nat.ne_of_lt hpi) hp hi
            have hup := h.move hi0 hi (Tops.of_lt (List.getElem?_eq_getElem hp)
              (List.getElem?_eq_getElem hi) hlt)
            obtain ⟨q', l', hrun, hq', hheap, hperm⟩ := ih hq₁ hup
              (by rw [length_exchange hp hi]; exact hp) (by omega)
            refine ⟨q', l', ?_, hq', hheap, hperm.trans (exchange_perm hp hi)⟩
            rw [if_pos rfl, show exchange q ((i - 1) / 2) i = some q₁ from hex, Option.bind_some]
            exact hrun
        | false =>
            refine ⟨q, l, if_neg (by simp), hq, h.stop fun _ => ?_, List.Perm.refl l⟩
            exact Tops.of_not_lt (List.getElem?_eq_getElem hp) (List.getElem?_eq_getElem hi) hlt
      · rw [if_neg hi0]
        exact ⟨q, l, rfl, hq, h.stop fun h0 => absurd h0 hi0, List.Perm.refl l⟩

/-- One comparison of `sift_down` keeps the better of two places. -/
theorem better_spec (hq : Holds q l) {best : Nat} (hbest : best < l.length) (k : Nat) :
    ∃ b, better C q l.length best k = some b ∧ b < l.length ∧ (b = best ∨ b = k) ∧
      Tops C l b best ∧ Tops C l b k := by
  rw [better]
  by_cases hk : k < l.length
  · rw [if_pos hk, hq.at?_eq, hq.at?_eq, List.getElem?_eq_getElem hbest,
      List.getElem?_eq_getElem hk]
    simp only [Option.bind_eq_bind, Option.bind_some]
    cases hlt : C.lt l[best] l[k] with
    | true =>
        exact ⟨k, rfl, hk, Or.inr rfl, Tops.of_lt (List.getElem?_eq_getElem hbest)
          (List.getElem?_eq_getElem hk) hlt, Tops.refl C l k⟩
    | false =>
        exact ⟨best, rfl, hbest, Or.inl rfl, Tops.refl C l best,
          Tops.of_not_lt (List.getElem?_eq_getElem hbest) (List.getElem?_eq_getElem hk) hlt⟩
  · rw [if_neg hk]
    exact ⟨best, rfl, hbest, Or.inl rfl, Tops.refl C l best, Tops.of_le (by omega)⟩

/-- `sift_down` from the bad place of an almost-heap ends in a heap. -/
theorem siftDown_spec {i : Nat} (fuel : Nat) (hq : Holds q l) (h : DownHeap C l i)
    (hi : i < l.length) (hfuel : l.length - i < fuel) :
    ∃ q' l', siftDown C l.length fuel q i = some q' ∧ Holds q' l' ∧ Heaps.Heap C l' ∧
      l'.Perm l := by
  induction fuel generalizing q l i with
  | zero => exact absurd hfuel (Nat.not_lt_zero _)
  | succ fuel ih =>
      obtain ⟨b₁, hb₁, hlt₁, hor₁, htop₁, hleft₁⟩ := better_spec (C := C) hq hi (2 * i + 1)
      obtain ⟨b, hb, hlt, hor, htop, hright⟩ := better_spec (C := C) hq hlt₁ (2 * i + 2)
      have hbi : Tops C l b i := htop.trans htop₁ hlt₁
      have hbc : ∀ c, 0 < c → parent c = i → Tops C l b c := by
        intro c hc hpc
        rcases child_cases hc hpc with rfl | rfl
        · exact htop.trans hleft₁ hlt₁
        · exact hright
      rw [siftDown]
      simp only [hb₁, hb, Option.bind_eq_bind, Option.bind_some]
      by_cases hstop : b = i
      · rw [if_pos hstop]
        exact ⟨q, l, rfl, hq, h.stop (hstop ▸ hbc), List.Perm.refl l⟩
      · have hpb : parent b = i := by
          rcases hor with rfl | rfl
          · rcases hor₁ with rfl | rfl
            · exact absurd rfl hstop
            · exact parent_left i
          · exact parent_right i
        have hb0 : 0 < b := by omega
        have hib : i < b := hpb ▸ parent_lt hb0
        obtain ⟨q₁, hex, hq₁⟩ := holds_exchange hq hstop hlt hi
        have hlen := length_exchange hlt hi
        obtain ⟨q', l', hrun, hq', hheap, hperm⟩ := ih hq₁ (h.move hb0 hpb hlt hbi hbc)
          (by omega) (by omega)
        rw [if_neg hstop, hex, Option.bind_some, ← hlen]
        exact ⟨q', l', hrun, hq', hheap, hperm.trans (exchange_perm hlt hi)⟩

/-! ## The calls -/

/-- The container holds this heap. -/
structure HoldsHeap (C : WeakOrder T) (q : PriorityQueue T) (l : List T) : Prop where
  holds : Holds q l
  heap : Heaps.Heap C l

theorem holdsHeap_empty (C : WeakOrder T) : HoldsHeap C (empty : PriorityQueue T) [] :=
  ⟨holds_empty, heap_nil C⟩

theorem push_spec (h : HoldsHeap C q l) (v : T) :
    ∃ q' l', push C q v = some q' ∧ HoldsHeap C q' l' ∧ l'.Perm (v :: l) := by
  have hq := holds_pushBack h.holds v
  have hsize : (pushBack q v).size = l.length + 1 := by
    rw [hq.size_eq, List.length_append, List.length_singleton]
  obtain ⟨q', l', hrun, hq', hheap, hperm⟩ := siftUp_spec (l.length + 1 + 1) hq
    (h.heap.concat v) (by rw [List.length_append, List.length_singleton]; omega) (by omega)
  refine ⟨q', l', ?_, ⟨hq', hheap⟩, hperm.trans (List.perm_append_singleton v l)⟩
  rw [push, hsize]
  exact hrun

/-- `pop` takes the first element out. -/
theorem pop_spec (h : HoldsHeap C q l) {r : T} (hr : l[0]? = some r) :
    ∃ q' l', pop C q = some q' ∧ HoldsHeap C q' l' ∧ l.Perm (r :: l') := by
  have h0 : 0 < l.length := (List.getElem?_eq_some_iff.mp hr).1
  rw [pop, h.holds.size_eq]
  by_cases h1 : l.length ≤ 1
  · obtain ⟨x, rfl⟩ := List.length_eq_one_iff.mp (show l.length = 1 by omega)
    rw [if_pos h1]
    have hx : x = r := Option.some.inj hr
    exact ⟨_, [], rfl, ⟨holds_popBack h.holds h0, heap_nil C⟩, hx ▸ List.Perm.refl _⟩
  · have hlast : l.length - 1 < l.length := by omega
    obtain ⟨q₁, hex, hq₁⟩ := holds_exchange h.holds (by omega) h0 hlast
    have hlen := length_exchange h0 hlast
    have hq₂ : Holds (popBack q₁) (withoutRoot l) := holds_popBack hq₁ (by omega)
    have hlen₂ := length_withoutRoot (l := l) (by omega)
    obtain ⟨q', l', hrun, hq', hheap, hperm⟩ := siftDown_spec
      ((withoutRoot l).length + 1) hq₂ (h.heap.withoutRoot (by omega)) (by omega)
      (by omega)
    refine ⟨q', l', ?_, ⟨hq', hheap⟩,
      (withoutRoot_perm (by omega) hr).trans (hperm.symm.cons r)⟩
    rw [if_neg h1, hex, Option.bind_eq_bind, Option.bind_some]
    show siftDown C (popBack q₁).size ((popBack q₁).size + 1) (popBack q₁) 0 = some q'
    rw [hq₂.size_eq]
    exact hrun

theorem top_eq (h : HoldsHeap C q l) : top q = l[0]? := h.holds.at?_eq 0

/-- Draining a heap takes its elements out in order. -/
theorem drain_spec {fuel : Nat} (h : HoldsHeap C q l) (hfuel : l.length ≤ fuel) :
    ∃ out, drain C fuel q = some out ∧ out.Perm l ∧
      out.Pairwise fun a b => C.lt a b = false := by
  induction fuel generalizing q l with
  | zero =>
      have hnil : l = [] := List.length_eq_zero_iff.mp (by omega)
      subst hnil
      have h0 : q.size = 0 := h.holds.size_eq
      exact ⟨[], by rw [drain, if_pos h0], List.Perm.refl _, List.Pairwise.nil⟩
  | succ fuel ih =>
      rw [drain, h.holds.size_eq]
      cases hl : l with
      | nil => exact ⟨[], if_pos rfl, List.Perm.refl _, List.Pairwise.nil⟩
      | cons r rest =>
          have hr : l[0]? = some r := by rw [hl]; rfl
          obtain ⟨q', l', hpop, hq', hperm⟩ := pop_spec h hr
          have hlen := hperm.length_eq
          rw [List.length_cons] at hlen
          obtain ⟨out, hout, hpout, hpair⟩ := ih hq' (by omega)
          refine ⟨r :: out, ?_, ?_, List.pairwise_cons.mpr ⟨fun y hy => ?_, hpair⟩⟩
          · rw [if_neg (by simp), top_eq h, hr]
            simp only [hpop, hout, Option.bind_eq_bind, Option.bind_some]
            rfl
          · exact (hpout.cons r).trans (hl ▸ hperm.symm)
          · refine h.heap.root_max hr y (hperm.mem_iff.mpr ?_)
            exact List.mem_cons_of_mem r (hpout.mem_iff.mp hy)

/-! ## Runs -/

/-- What a call puts in. -/
def pushed : Op T → List T
  | .push v | .emplace v => [v]
  | .pop => []

/-- What a call takes out: a `pop` takes out what `top` gives. -/
def popped (q : PriorityQueue T) : Op T → List T
  | .push _ | .emplace _ => []
  | .pop => (top q).toList

/-- What the calls of a run take out. -/
def allPopped (C : WeakOrder T) : PriorityQueue T → List (Op T) → List T
  | _, [] => []
  | q, op :: ops => popped q op ++
      match step C q op with
      | some q' => allPopped C q' ops
      | none => []

/-- A call on a heap, other than a `pop` of nothing, ends in a heap with what
it puts in and without what it takes out. -/
theorem step_spec (h : HoldsHeap C q l) (op : Op T) (hop : op = .pop → q.size ≠ 0) :
    ∃ q' l', step C q op = some q' ∧ HoldsHeap C q' l' ∧
      (l' ++ popped q op).Perm (l ++ pushed op) := by
  cases op with
  | push v | emplace v =>
      obtain ⟨q', l', hrun, hq', hperm⟩ := push_spec h v
      refine ⟨q', l', hrun, hq', ?_⟩
      rw [popped, List.append_nil]
      exact hperm.trans (List.perm_append_singleton v l).symm
  | pop =>
      have hne := hop rfl
      obtain ⟨r, hr⟩ : ∃ r, l[0]? = some r :=
        ⟨_, List.getElem?_eq_getElem (by rw [← h.holds.size_eq]; omega)⟩
      obtain ⟨q', l', hrun, hq', hperm⟩ := pop_spec h hr
      refine ⟨q', l', (if_neg hne).trans hrun, hq', ?_⟩
      rw [popped, top_eq h, hr, pushed, List.append_nil]
      exact (List.perm_append_singleton r l').trans hperm.symm

theorem step_defined {q' : PriorityQueue T} {op : Op T} (h : step C q op = some q') :
    op = .pop → q.size ≠ 0 := by
  rintro rfl h0
  rw [step, if_pos h0] at h
  cases h

/-- What a run holds at its end is what it held, with what was put in and
without what was taken out. -/
theorem run_spec {ops : List (Op T)} {q' : PriorityQueue T} (h : HoldsHeap C q l)
    (hrun : runFrom (step C) q ops = some q') :
    ∃ l', HoldsHeap C q' l' ∧ (l' ++ allPopped C q ops).Perm (l ++ ops.flatMap pushed) := by
  induction ops generalizing q l with
  | nil =>
      cases hrun
      exact ⟨l, h, List.Perm.refl _⟩
  | cons op ops ih =>
      obtain ⟨q₁, hs, hrest⟩ := runFrom_cons_some hrun
      obtain ⟨q₂, l₁, hs', h₁, hperm₁⟩ := step_spec h op (step_defined hs)
      rw [hs, Option.some.injEq] at hs'
      subst hs'
      obtain ⟨l', h', hperm⟩ := ih h₁ hrest
      refine ⟨l', h', ?_⟩
      rw [allPopped, hs, List.flatMap_cons]
      calc l' ++ (popped q op ++ allPopped C q₁ ops)
          _ |>.Perm ((l' ++ allPopped C q₁ ops) ++ popped q op) := by
            rw [List.append_assoc]
            exact (List.perm_append_comm).append_left l'
          _ |>.Perm ((l₁ ++ ops.flatMap pushed) ++ popped q op) := hperm.append_right _
          _ |>.Perm ((l₁ ++ popped q op) ++ ops.flatMap pushed) := by
            rw [List.append_assoc, List.append_assoc]
            exact (List.perm_append_comm).append_left l₁
          _ |>.Perm ((l ++ pushed op) ++ ops.flatMap pushed) := hperm₁.append_right _
          _ |>.Perm (l ++ (pushed op ++ ops.flatMap pushed)) := by
            rw [List.append_assoc]

/-- After every run of calls, for every strict weak order: no child exceeds its
parent; a next call, other than a `pop` of nothing, ends inside the container;
the elements are those pushed without those popped; nothing exceeds the top;
and draining gives the elements with none after one that it exceeds. -/
theorem priority_queue_is_heap (C : WeakOrder T) (ops : List (Op T)) (q : PriorityQueue T)
    (hrun : runFrom (step C) empty ops = some q) :
    ∃ l, q.iterate = l.map some ∧
      (∀ i a b, 0 < i → q.at? ((i - 1) / 2) = some a → q.at? i = some b →
        C.lt a b = false) ∧
      (∀ op, (op = .pop → q.size ≠ 0) → ∃ q', step C q op = some q') ∧
      (l ++ allPopped C empty ops).Perm (ops.flatMap pushed) ∧
      (q.size ≠ 0 → ∃ x ∈ l, top q = some x ∧ ∀ y ∈ l, C.lt x y = false) ∧
      ∃ out, drain C q.size q = some out ∧ out.Perm l ∧
        out.Pairwise fun a b => C.lt a b = false := by
  obtain ⟨l, h, hperm⟩ := run_spec (holdsHeap_empty C) hrun
  refine ⟨l, h.holds.iterate_eq, fun i a b hi ha hb => ?_, fun op hop => ?_, hperm,
    fun hne => ?_, drain_spec h (Nat.le_of_eq h.holds.size_eq.symm)⟩
  · rw [h.holds.at?_eq] at ha hb
    exact h.heap i hi a b ha hb
  · obtain ⟨q', -, hs, -⟩ := step_spec h op hop
    exact ⟨q', hs⟩
  · rw [h.holds.size_eq] at hne
    have hget := List.getElem?_eq_getElem (Nat.pos_of_ne_zero hne)
    exact ⟨_, List.mem_of_getElem? hget, (top_eq h).trans hget, h.heap.root_max hget⟩

/-- Three elements in, the greatest out. -/
theorem priority_queue_of_three :
    ∃ q l, runFrom (step natLess) empty [.push 3, .emplace 1, .push 4, .pop] = some q ∧
      q.iterate = l.map some ∧ (l ++ [4]).Perm [3, 1, 4] := by
  obtain ⟨q, hrun⟩ : ∃ q, runFrom (step natLess) empty
      [.push 3, .emplace 1, .push 4, .pop] = some q :=
    Option.isSome_iff_exists.mp (by decide)
  obtain ⟨l, hl, -, -, hperm, -⟩ := priority_queue_is_heap natLess _ q hrun
  exact ⟨q, l, hrun, hl, hperm⟩

end Ycetl.Ref.PriorityQueue
