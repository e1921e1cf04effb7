import Ycetl.Proofs.DynamicArrayOps

/-!
# Any number of arrays over one memory

The arrays of a memory are placed well when each of them has its buffer among
the slots handed out so far and no two buffers meet. A call whose request is
granted keeps that, because the only slots a buffer can gain are fresh ones,
and it leaves every other array as it was, because all it writes are its own
slots and the fresh ones.
-/

namespace Ycetl.Ref.DynamicArray.World

open Ycetl.Lib

variable {T : Type} {w w' : World T}

structure Placed (w : World T) : Prop where
  offset_pos : 0 < w.store.offset
  fits : ∀ i a, w.arrays i = some a → Fits w.store a
  apart : ∀ i j a b, w.arrays i = some a → w.arrays j = some b → i ≠ j →
    ∀ q, Owns a q → ¬ Owns b q

/-- Array `i`, or an array without a buffer where there is none yet. -/
def current (w : World T) (i : Nat) : Arr := (w.arrays i).getD Arr.none

theorem current_of_some {i : Nat} {a : Arr} (h : w.arrays i = some a) :
    w.current i = a := by
  rw [current, h]
  rfl

theorem current_of_none {i : Nat} (h : w.arrays i = none) :
    w.current i = Arr.none := by
  rw [current, h]
  rfl

theorem not_owns_none (q : Nat) : ¬ Owns Arr.none q := fun h =>
  Nat.not_lt.mpr h.1 h.2

theorem Placed.fits_current (h : Placed w) (i : Nat) : Fits w.store (w.current i) := by
  cases ha : w.arrays i with
  | none => rw [current_of_none ha]; exact fits_none w.store
  | some a => rw [current_of_some ha]; exact h.fits i a ha

/-- The buffer of one array is no other array's. -/
theorem Placed.current_apart (h : Placed w) {i j : Nat} (hij : i ≠ j) {b : Arr}
    (hb : w.arrays j = some b) {q : Nat} (hq : Owns b q) : ¬ Owns (w.current i) q := by
  cases ha : w.arrays i with
  | none => rw [current_of_none ha]; exact not_owns_none q
  | some a =>
      rw [current_of_some ha]
      exact fun ho => h.apart i j a b ha hb hij q ho hq

/-- Slots in a buffer have been handed out. -/
theorem Placed.lt_offset (h : Placed w) {i : Nat} {a : Arr} (ha : w.arrays i = some a)
    {q : Nat} (hq : Owns a q) : q < w.store.offset :=
  (h.fits i a ha).owns_lt hq

theorem put_arrays_ne {i k : Nat} (hk : k ≠ i) (r : Store T × Arr) :
    (w.put i r).arrays k = w.arrays k :=
  Function.update_of_ne hk _ _

theorem put_arrays_self {i : Nat} (r : Store T × Arr) :
    (w.put i r).arrays i = some r.2 :=
  Function.update_self _ _ _

/-- The slots of the other arrays are as they were. -/
def Kept (w w' : World T) (targets : List Nat) : Prop :=
  ∀ k ∉ targets, ∀ a, w.arrays k = some a →
    w'.arrays k = some a ∧ ∀ q, Owns a q → w'.store.view q = w.store.view q

/-- An array that a call is not made on has its elements. -/
theorem Kept.contents_eq {ts : List Nat} (hk : Kept w w' ts) (hp : Placed w) {k : Nat}
    (hkt : k ∉ ts) {a : Arr} (ha : w.arrays k = some a) :
    contents w'.store a = contents w.store a := by
  refine List.map_congr_left fun m hm => ?_
  rw [List.mem_range] at hm
  exact congrArg Option.join ((hk k hkt a ha).2 _
    ((hp.fits k a ha).owns ⟨Nat.le_add_right _ _, Nat.add_lt_add_left hm _⟩))

/-- One array does a call and the others stay. -/
theorem Placed.put (h : Placed w) {i n : Nat} {s' : Store T} {a a' : Arr}
    {l : List (Option T)} (ha : w.current i = a) (hr : Result w.store a n s' a' l) :
    Placed (w.put i (s', a')) ∧ Kept w (w.put i (s', a')) [i] := by
  subst ha
  have hfit := h.fits_current i
  have hfit' := hr.fits hfit h.offset_pos
  have hoff := hr.offset_eq
  have hview : ∀ k, k ≠ i → ∀ b, w.arrays k = some b → ∀ q, Owns b q →
      s'.view q = w.store.view q := fun k hk b hb q hq =>
    hr.frame q (h.lt_offset hb hq) (h.current_apart (Ne.symm hk) hb hq)
  have hnew : ∀ k, k ≠ i → ∀ b, w.arrays k = some b → ∀ q, Owns a' q → ¬ Owns b q := by
    intro k hk b hb q hq hbq
    rcases hr.owned hq with hold | hfresh
    · exact h.current_apart (Ne.symm hk) hb hbq hold
    · exact Nat.not_lt.mpr hfresh (h.lt_offset hb hbq)
  refine ⟨⟨?_, ?_, ?_⟩, ?_⟩
  · show 0 < s'.offset
    have := h.offset_pos
    omega
  · intro k b hb
    by_cases hk : k = i
    · subst hk
      rw [put_arrays_self, Option.some.injEq] at hb
      exact hb ▸ hfit'
    · rw [put_arrays_ne hk] at hb
      exact (h.fits k b hb).keep (show w.store.offset ≤ s'.offset by omega)
        (hview k hk b hb)
  · intro k m b c hb hc hkm q hbq hcq
    by_cases hk : k = i
    · subst hk
      rw [put_arrays_self, Option.some.injEq] at hb
      rw [put_arrays_ne (Ne.symm hkm)] at hc
      subst hb
      exact hnew m (Ne.symm hkm) c hc q hbq hcq
    · rw [put_arrays_ne hk] at hb
      by_cases hm : m = i
      · subst hm
        rw [put_arrays_self, Option.some.injEq] at hc
        subst hc
        exact hnew k hk b hb q hcq hbq
      · rw [put_arrays_ne hm] at hc
        exact h.apart k m b c hb hc hkm q hbq hcq
  · intro k hk b hb
    rw [List.mem_singleton] at hk
    exact ⟨(put_arrays_ne hk _).trans hb, hview k hk b hb⟩

/-- A buffer changes hands. -/
theorem Placed.moved (h : Placed w) {i j : Nat} (hij : i ≠ j) {b : Arr}
    (hb : w.arrays j = some b) : Placed ((w.release j).put i (w.store, b)) := by
  have hcase : ∀ k c, ((w.release j).put i (w.store, b)).arrays k = some c →
      (k = i ∧ c = b) ∨ c = Arr.none ∨ (k ≠ i ∧ k ≠ j ∧ w.arrays k = some c) := by
    intro k c hc
    by_cases hk : k = i
    · subst hk
      rw [put_arrays_self, Option.some.injEq] at hc
      exact Or.inl ⟨rfl, hc.symm⟩
    · rw [put_arrays_ne hk] at hc
      by_cases hkj : k = j
      · subst hkj
        rw [release, put_arrays_self, Option.some.injEq] at hc
        exact Or.inr (Or.inl hc.symm)
      · rw [release, put_arrays_ne hkj] at hc
        exact Or.inr (Or.inr ⟨hk, hkj, hc⟩)
  refine ⟨h.offset_pos, fun k c hc => ?_, fun k m c d hc hd hkm q hcq hdq => ?_⟩
  · rcases hcase k c hc with ⟨-, rfl⟩ | rfl | ⟨-, -, hc⟩
    · exact h.fits j c hb
    · exact fits_none _
    · exact h.fits k c hc
  · rcases hcase k c hc with ⟨hki, rfl⟩ | rfl | ⟨hki, hkj, hc'⟩
    · rcases hcase m d hd with ⟨hmi, -⟩ | rfl | ⟨-, hmj, hd'⟩
      · exact hkm (hki.trans hmi.symm)
      · exact not_owns_none q hdq
      · exact h.apart j m c d hb hd' (Ne.symm hmj) q hcq hdq
    · exact not_owns_none q hcq
    · rcases hcase m d hd with ⟨-, rfl⟩ | rfl | ⟨-, -, hd'⟩
      · exact h.apart k j c d hc' hb hkj q hcq hdq
      · exact not_owns_none q hdq
      · exact h.apart k m c d hc' hd' hkm q hcq hdq

theorem Placed.drop (h : Placed w) (i : Nat) :
    Placed ⟨w.store, Function.update w.arrays i none⟩ := by
  have hcase : ∀ k c, Function.update w.arrays i none k = some c →
      w.arrays k = some c := by
    intro k c hc
    rw [Function.update_apply] at hc
    split at hc
    · cases hc
    · exact hc
  exact ⟨h.offset_pos, fun k c hc => h.fits k c (hcase k c hc),
    fun k m c d hc hd => h.apart k m c d (hcase k c hc) (hcase m d hd)⟩

/-! ## Steps -/

/-- The arrays a call is made on. -/
def targets : Op T → List Nat
  | .construct i _ | .copyConstruct i _ | .call i _ | .destroy i => [i]
  | .moveConstruct i j | .moveAssign i j => [i, j]

/-- The slots a call asks the memory for. -/
def request (w : World T) : Op T → Nat
  | .construct _ c => requested c
  | .copyConstruct _ j => (w.current j).capacity
  | .call i c => growthRequest (w.current i) c
  | .moveConstruct _ _ | .moveAssign _ _ | .destroy _ => 0

theorem placed_initial : Placed (initial : World T) where
  offset_pos := Nat.one_pos
  fits _ _ h := by cases h
  apart _ _ _ _ h := by cases h

theorem clearAndDeallocateBuffer_result {s : Store T} {a : Arr} (h : Fits s a) :
    Result s a 0 (clearAndDeallocateBuffer s a).1 Arr.none [] := by
  have := clearAndDeallocateBuffer_inPlace h
  exact ⟨Nat.le_refl 0, fun h0 => absurd rfl h0, this.offset_eq,
    fun q _ hq => this.frame q hq, (fits_none _).live, rfl⟩

/-- What a step can be, and the program after it. -/
inductive Steps [Inhabited T] (alloc : Allocate) (w : World T) : Op T → World T → Prop
  | construct {i : Nat} {c : Ctor T} (hi : w.arrays i = none) :
      Steps alloc w (.construct i c) (w.put i (DynamicArray.construct alloc w.store c))
  | copyConstruct {i j : Nat} {b : Arr} (hi : w.arrays i = none) (hj : w.arrays j = some b) :
      Steps alloc w (.copyConstruct i j) (w.put i (ofCopy alloc w.store b))
  | moveConstruct {i j : Nat} {b : Arr} (hi : w.arrays i = none) (hj : w.arrays j = some b)
      (hij : i ≠ j) : Steps alloc w (.moveConstruct i j) ((w.release j).put i (w.store, b))
  | selfAssign {i : Nat} {a : Arr} (hi : w.arrays i = some a) :
      Steps alloc w (.moveAssign i i) w
  | moveAssign {i j : Nat} {a b : Arr} (hi : w.arrays i = some a) (hj : w.arrays j = some b)
      (hij : i ≠ j) : Steps alloc w (.moveAssign i j)
        (((w.put i ((clearAndDeallocateBuffer w.store a).1, Arr.none)).release j).put i
          ((clearAndDeallocateBuffer w.store a).1, b))
  | call {i : Nat} {c : Call T} {a : Arr} (hi : w.arrays i = some a) (hl : c.Legal a) :
      Steps alloc w (.call i c) (w.put i (DynamicArray.call alloc w.store a c))
  | destroy {i : Nat} {a : Arr} (hi : w.arrays i = some a) :
      Steps alloc w (.destroy i)
        ⟨(clearAndDeallocateBuffer w.store a).1, Function.update w.arrays i none⟩

theorem steps_of_step [Inhabited T] {alloc : Allocate} {op : Op T}
    (hs : step alloc w op = some w') : Steps alloc w op w' := by
  cases op with
  | construct i c =>
      rw [step] at hs
      split at hs
      · next hi => exact Option.some.inj hs ▸ .construct hi
      · cases hs
  | copyConstruct i j =>
      rw [step] at hs
      split at hs
      · next b hi hj => exact Option.some.inj hs ▸ .copyConstruct hi hj
      · cases hs
  | moveConstruct i j =>
      rw [step] at hs
      split at hs
      · next b hi hj =>
          have hij : i ≠ j := by
            intro hij
            rw [← hij, hi] at hj
            cases hj
          exact Option.some.inj hs ▸ .moveConstruct hi hj hij
      · cases hs
  | moveAssign i j =>
      rw [step] at hs
      split at hs
      · next a b hi hj =>
          split at hs
          · next hij =>
              subst hij
              exact Option.some.inj hs ▸ .selfAssign hi
          · next hij => exact Option.some.inj hs ▸ .moveAssign hi hj hij
      · cases hs
  | call i c =>
      rw [step] at hs
      split at hs
      · next a hi =>
          split at hs
          · next hl => exact Option.some.inj hs ▸ .call hi hl
          · cases hs
      · cases hs
  | destroy i =>
      rw [step] at hs
      split at hs
      · next a hi => exact Option.some.inj hs ▸ .destroy hi
      · cases hs

/-- A call whose request is granted keeps the arrays placed, and every array
it is not made on. -/
theorem step_placed [Inhabited T] {alloc : Allocate} (h : Placed w) {op : Op T}
    (hg : Granted alloc w.store (w.request op)) (hs : step alloc w op = some w') :
    Placed w' ∧ Kept w w' (targets op) ∧
      w'.store.offset = w.store.offset + w.request op := by
  cases steps_of_step hs with
  | construct hi =>
      have hr := construct_result _ hg
      obtain ⟨hp, hk⟩ := h.put (current_of_none hi) hr
      exact ⟨hp, hk, hr.offset_eq⟩
  | @copyConstruct i j b hi hj =>
      rw [request, current_of_some hj] at hg ⊢
      have hr := ofCopy_result (h.fits j b hj) hg
      obtain ⟨hp, hk⟩ := h.put (current_of_none hi) hr
      exact ⟨hp, hk, hr.offset_eq⟩
  | moveConstruct hi hj hij =>
      refine ⟨h.moved hij hj, fun k hk a ha => ?_, rfl⟩
      simp only [targets, List.mem_cons, List.not_mem_nil, or_false, not_or] at hk
      rw [put_arrays_ne hk.1, release, put_arrays_ne hk.2]
      exact ⟨ha, fun _ _ => rfl⟩
  | selfAssign hi => exact ⟨h, fun k _ a ha => ⟨ha, fun _ _ => rfl⟩, rfl⟩
  | @moveAssign i j a b hi hj hij =>
      have hr := clearAndDeallocateBuffer_result (h.fits i a hi)
      obtain ⟨hp, hk⟩ := h.put (current_of_some hi) hr
      have hj' := (put_arrays_ne (Ne.symm hij) (w := w)
        ((clearAndDeallocateBuffer w.store a).1, Arr.none)).trans hj
      refine ⟨hp.moved hij hj', fun k hkt c hc => ?_, hr.offset_eq⟩
      simp only [targets, List.mem_cons, List.not_mem_nil, or_false, not_or] at hkt
      rw [put_arrays_ne hkt.1, release, put_arrays_ne hkt.2]
      exact hk k (by simpa using hkt.1) c hc
  | @call i c a hi hl =>
      rw [request, current_of_some hi] at hg ⊢
      have hr := call_result (h.fits i a hi) h.offset_pos hl hg
      obtain ⟨hp, hk⟩ := h.put (current_of_some hi) hr
      exact ⟨hp, hk, hr.offset_eq⟩
  | @destroy i a hi =>
      have hr := clearAndDeallocateBuffer_result (h.fits i a hi)
      obtain ⟨hp, hk⟩ := h.put (current_of_some hi) hr
      have hdrop := hp.drop i
      rw [World.put, Function.update_idem] at hdrop
      refine ⟨hdrop, fun k hkt c hc => ?_, hr.offset_eq⟩
      have hne : k ≠ i := by simpa [targets] using hkt
      exact ⟨(Function.update_of_ne hne _ _).trans hc, (hk k hkt c hc).2⟩

end Ycetl.Ref.DynamicArray.World
