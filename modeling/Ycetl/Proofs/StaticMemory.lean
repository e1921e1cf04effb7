import Ycetl.Lib.Runs
import Ycetl.Proofs.DynamicArrayWorld

/-!
# Arrays that share a static memory

A `typed_static_memory` has 1024 slots to give and signals that it has run out
by returning offset 0. Nothing in `dynamic_array` looks at the offset it gets:
`reserve` and the sizing constructors take slot 0 for a buffer and record a
capacity they were never granted. So a run keeps its arrays inside the memory
and apart from each other exactly as long as every request fits what remains,
and the first request that does not is where it stops doing so.
-/

namespace Ycetl.Ref.DynamicArray.World

open Ycetl.Lib

variable {T : Type} {w w' : World T}

/-- Every buffer lies inside the slots 1 to 1024, and meets no other. -/
def InRange (w : World T) : Prop :=
  ∀ i a, w.arrays i = some a → a.capacity ≠ 0 →
    (1 ≤ a.data ∧ a.data + a.capacity ≤ typedStaticMemorySize + 1) ∧
      ∀ j b, w.arrays j = some b → i ≠ j → ∀ q, Owns a q → ¬ Owns b q

/-- An array has the size, the capacity and the elements it had. -/
def Unchanged (w w' : World T) (i : Nat) : Prop :=
  ∀ a, w.arrays i = some a → ∃ a', w'.arrays i = some a' ∧ a'.size = a.size ∧
    a'.capacity = a.capacity ∧ contents w'.store a' = contents w.store a

variable [Inhabited T]

abbrev staticStep (w : World T) (op : Op T) : Option (World T) :=
  step TypedStaticMemory.allocate w op

/-- The memory cannot meet the request of the call. -/
def Exhausted (w : World T) (op : Op T) : Prop :=
  TypedStaticMemory.remainingSize w.store.offset < w.request op

/-- What a call is to do to arrays that share a memory: keep the buffers in
range and apart, leave the other arrays alone, and leave all arrays alone when
the memory is exhausted. -/
def Isolated (w : World T) (op : Op T) : Prop :=
  ∀ w', staticStep w op = some w' →
    InRange w' ∧ (∀ i ∉ targets op, Unchanged w w' i) ∧
      (Exhausted w op → ∀ i, Unchanged w w' i)

/-- A call that is made is one whose request fits what remains. -/
def RequestFits (w : World T) (op : Op T) : Prop :=
  (staticStep w op).isSome → w.request op ≤ TypedStaticMemory.remainingSize w.store.offset

/-- What holds between calls while every request has fitted. -/
structure StaticInv (w : World T) : Prop where
  placed : Placed w
  offset_le : w.store.offset ≤ TypedStaticMemory.capacity

omit [Inhabited T] in
theorem staticInv_initial : StaticInv (initial : World T) :=
  ⟨placed_initial, Nat.le_add_left 1 1024⟩

omit [Inhabited T] in
theorem granted_of_le {s : Store T} {n : Nat}
    (h : n ≤ TypedStaticMemory.remainingSize s.offset) :
    Granted TypedStaticMemory.allocate s n := by
  rw [Granted, TypedStaticMemory.allocate]
  split
  · rfl
  · rw [if_neg (Nat.not_lt.mpr h)]

omit [Inhabited T] in
theorem refused_of_lt {s : Store T} {n : Nat}
    (h : TypedStaticMemory.remainingSize s.offset < n) :
    TypedStaticMemory.allocate s.offset n = (0, s.offset) := by
  rw [TypedStaticMemory.allocate, if_neg (by omega), if_pos h]

omit [Inhabited T] in
theorem StaticInv.inRange (h : StaticInv w) : InRange w := by
  intro i a ha h0
  obtain ⟨hpos, hle⟩ := (h.placed.fits i a ha).below h0
  exact ⟨⟨hpos, Nat.le_trans hle h.offset_le⟩, fun j b hb hij =>
    h.placed.apart i j a b ha hb hij⟩

theorem StaticInv.step (h : StaticInv w) {op : Op T}
    (hfit : w.request op ≤ TypedStaticMemory.remainingSize w.store.offset)
    (hs : staticStep w op = some w') : StaticInv w' ∧ Kept w w' (targets op) := by
  obtain ⟨hp, hk, hoff⟩ := step_placed h.placed (granted_of_le hfit) hs
  refine ⟨⟨hp, ?_⟩, hk⟩
  have := h.offset_le
  rw [TypedStaticMemory.remainingSize] at hfit
  omega

omit [Inhabited T] in
theorem Kept.unchanged (h : Placed w) {targets : List Nat} (hk : Kept w w' targets)
    {i : Nat} (hi : i ∉ targets) : Unchanged w w' i := by
  intro a ha
  obtain ⟨ha', hview⟩ := hk i hi a ha
  refine ⟨a, ha', rfl, rfl, List.map_congr_left fun k hlt => ?_⟩
  rw [hview _ ((h.fits i a ha).owns ⟨Nat.le_add_right _ _, by
    have := List.mem_range.mp hlt; omega⟩)]

/-! ## A refused request -/

/-- A growth that is refused leaves the array at offset 0 with the capacity it
asked for. -/
theorem call_refused {s : Store T} {a : Arr} {c : Call T} (hl : c.Legal a)
    (hr : TypedStaticMemory.remainingSize s.offset < growthRequest a c) :
    (call TypedStaticMemory.allocate s a c).2.data = 0 ∧
      (call TypedStaticMemory.allocate s a c).2.capacity ≠ 0 := by
  have hgrow : a.capacity < growTo a c := by
    rw [growthRequest] at hr
    split at hr
    · next h => exact h
    · omega
  rw [growthRequest, if_pos hgrow] at hr
  have harr : (reserve TypedStaticMemory.allocate s a (growTo a c)).2 =
      ⟨0, a.size, growTo a c⟩ := by
    rw [reserve, if_neg (by omega)]
    simp only [allocate, refused_of_lt hr]
  have hres : ∀ a₁ : Arr, a₁.data = 0 → a₁.capacity ≠ 0 → ∀ s₁ : Store T,
      (inPlaceCall s₁ a₁ c).2.data = 0 ∧ (inPlaceCall s₁ a₁ c).2.capacity ≠ 0 := by
    intro a₁ hd hc s₁
    cases c with
    | clearAndDeallocateBuffer => exact absurd hgrow (Nat.not_lt_zero _)
    | _ => exact ⟨hd, hc⟩
  rw [call_eq c hl]
  exact hres _ (by rw [harr]) (by rw [harr]; dsimp only; omega) _

/-- The first request that does not fit puts a buffer at offset 0. -/
theorem not_inRange_of_exhausted {op : Op T} (hx : Exhausted w op)
    (hs : staticStep w op = some w') : ¬ InRange w' := by
  rw [Exhausted] at hx
  -- Every array at offset 0 with a capacity will do.
  have hbad : ∀ (i : Nat) (r : Store T × Arr), r.2.data = 0 → r.2.capacity ≠ 0 →
      ¬ InRange (w.put i r) := fun i r hd hc hin => by
    have := (hin i r.2 (put_arrays_self r) hc).1.1
    omega
  cases op with
  | construct i c =>
      rw [staticStep, step] at hs
      split at hs
      · rw [Option.some.injEq] at hs
        subst hs
        refine hbad i _ ?_ ?_ <;> cases c <;> rw [request, requested] at hx
        all_goals first
          | exact absurd hx (Nat.not_lt_zero _)
          | simp only [construct, ofSize, ofRange, allocate, refused_of_lt hx]
        all_goals omega
      · cases hs
  | copyConstruct i j =>
      rw [staticStep, step] at hs
      split at hs
      · next b hi hj =>
          rw [Option.some.injEq] at hs
          subst hs
          rw [request, current_of_some hj] at hx
          refine hbad i _ ?_ ?_ <;> simp only [ofCopy, allocate, refused_of_lt hx]
          omega
      · cases hs
  | call i c =>
      rw [staticStep, step] at hs
      split at hs
      · next a hi =>
          split at hs
          · next hl =>
              rw [Option.some.injEq] at hs
              subst hs
              rw [request, current_of_some hi] at hx
              obtain ⟨hd, hc⟩ := call_refused hl hx
              exact hbad i _ hd hc
          · cases hs
      · cases hs
  | moveConstruct | moveAssign | destroy => exact absurd hx (Nat.not_lt_zero _)

/-- One call on arrays placed well is as it should be exactly if its request
fits. -/
theorem isolated_iff (h : StaticInv w) (op : Op T) :
    Isolated w op ↔ RequestFits w op := by
  constructor
  · intro hiso hsome
    obtain ⟨w', hs⟩ := Option.isSome_iff_exists.mp hsome
    by_contra hx
    exact not_inRange_of_exhausted (Nat.lt_of_not_le hx) hs (hiso w' hs).1
  · intro hfit w' hs
    have hle := hfit (by rw [hs]; rfl)
    obtain ⟨hinv, hk⟩ := h.step hle hs
    exact ⟨hinv.inRange, fun i hi => hk.unchanged h.placed hi,
      fun hx => absurd hle (Nat.not_le.mpr hx)⟩

/-- In every run of arrays over one static memory, every call keeps the arrays
in range, apart and unchanged by a failed growth, if and only if no call asks
for more slots than remain. -/
theorem static_arrays_isolated_iff_requests_fit (ops : List (Op T)) :
    Along staticStep Isolated (initial : World T) ops ↔
      Along staticStep RequestFits (initial : World T) ops := by
  refine along_iff StaticInv (fun w op h => isolated_iff h op)
    (fun w op w' h hiso hs => ?_) staticInv_initial ops
  have hle := (isolated_iff h op).mp hiso (by rw [hs]; rfl)
  exact (h.step hle hs).1

/-- One array has taken `n` slots, and a second one is still empty. -/
def twoArrays (n : Nat) : World Nat :=
  let r := ofSize TypedStaticMemory.allocate (Store.fresh 1) n 5
  ((initial.put 0 r).put 1 (r.1, Arr.none))

theorem twoArrays_run (n : Nat) :
    runFrom staticStep initial [.construct 0 (.filled n 5), .construct 1 .none] =
      some (twoArrays n) := rfl

theorem twoArrays_push (n : Nat) :
    staticStep (twoArrays n) (.call 1 (.pushBack 7)) =
      some ((twoArrays n).put 1 (call TypedStaticMemory.allocate (twoArrays n).store
        Arr.none (.pushBack 7))) := rfl

/-- The first push to the second array asks for four slots. -/
theorem twoArrays_exhausted {n : Nat} (hn : n ≤ 1024) (hlast : 1020 < n) :
    Exhausted (twoArrays n) (.call 1 (.pushBack 7)) := by
  have hfit : n ≤ TypedStaticMemory.remainingSize (Store.fresh 1 : Store Nat).offset := hn
  have hoff := (ofSize_result (granted_of_le hfit) 5).offset_eq
  have hreq : (twoArrays n).request (.call 1 (.pushBack 7)) = 4 := rfl
  have hstore : (twoArrays n).store.offset = 1 + n := hoff
  rw [Exhausted, hreq, hstore, TypedStaticMemory.remainingSize,
    TypedStaticMemory.capacity, typedStaticMemorySize]
  omega

/-- With all 1024 slots taken the second array is pushed to: its buffer of four
slots is at offset 0, across the first three elements of the first array. -/
theorem static_arrays_overlap :
    ¬ Along staticStep Isolated (initial : World Nat)
        ([.construct 0 (.filled 1024 5), .construct 1 .none] ++
          [.call 1 (.pushBack 7)]) := by
  intro h
  have hiso := along_at h (twoArrays_run 1024)
  exact not_inRange_of_exhausted
    (twoArrays_exhausted (Nat.le_refl 1024) (by decide)) (twoArrays_push 1024)
    (hiso _ (twoArrays_push 1024)).1

end Ycetl.Ref.DynamicArray.World
