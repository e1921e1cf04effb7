import Ycetl.Proofs.ArraySequences
import Ycetl.Proofs.InplaceVector
import Ycetl.Ref.Stack

/-!
# Stacks are last in, first out

Of the container it is asked that it refines a list, with room for as many
elements as it may have. From this a stack over it answers what a list answers
that is changed at its head only. Both containers of the library that come into
question refine lists: vectors in place, which may run full, and arrays, which
grow.
-/

namespace Ycetl.Ref

open Ycetl.Lib

variable {T : Type}

/-! ## The container -/

/-- A state holds a list, and `push_back` and `pop_back` work at its end. -/
structure Container.Refines (K : Container T) (Holds : K.State → List T → Prop)
    (room : Nat → Bool) : Prop where
  size : ∀ {s l}, Holds s l → K.size s = l.length
  index : ∀ {s l i}, Holds s l → i < l.length → K.index s i = l[i]?
  pushBack : ∀ {s l}, Holds s l → room l.length = true → ∀ v,
    ∃ s', K.pushBack s v = some s' ∧ Holds s' (l ++ [v])
  full : ∀ {s l}, Holds s l → room l.length = false → ∀ v, K.pushBack s v = none
  popBack : ∀ {s l}, Holds s l → 0 < l.length → ∃ s', K.popBack s = some s' ∧ Holds s' l.dropLast

namespace Stack

/-- A stack as a list with its top in front. -/
def lifo (room : Nat → Bool) (l : List T) : Call T → Option (List T × Out T)
  | .push v => if room l.length then some (v :: l, .done) else none
  | .emplace v => if room l.length then some (v :: l, .done) else none
  | .pop => match l with
      | [] => none
      | _ :: l => some (l, .done)
  | .top => match l with
      | [] => none
      | v :: l => some (v :: l, .elem v)
  | .size => some (l, .number l.length)
  | .empty => some (l, .test l.isEmpty)

variable {K : Container T} {Holds : K.State → List T → Prop} {room : Nat → Bool}
  {s : Stack K} {l : List T}

theorem step_of_legal {c : Call T} (h : c.Legal s) : step s c = s.call c := if_pos h

theorem step_of_illegal {c : Call T} (h : ¬ c.Legal s) : step s c = none := if_neg h

/-- The container holds the elements from the bottom to the top. -/
def HoldsUp (Holds : K.State → List T → Prop) (s : Stack K) (l : List T) : Prop :=
  Holds s.c l.reverse

theorem push_agree (hK : K.Refines Holds room) (h : HoldsUp Holds s l) (v : T) :
    Agree (HoldsUp Holds) ((s.push v).map fun s => (s, (.done : Out T)))
      (if room l.length then some (v :: l, .done) else none) := by
  have hlength : l.reverse.length = l.length := List.length_reverse
  rw [push]
  cases hroom : room l.length with
  | true =>
      obtain ⟨s', hs', hholds⟩ := hK.pushBack h (hlength ▸ hroom) v
      rw [hs']
      refine ⟨?_, rfl⟩
      rw [HoldsUp, List.reverse_cons]
      exact hholds
  | false =>
      rw [hK.full h (hlength ▸ hroom)]
      exact agree_none

/-- One call answers what the list answers. -/
theorem step_agree (hK : K.Refines Holds room) (h : HoldsUp Holds s l) (c : Call T) :
    Agree (HoldsUp Holds) (step s c) (lifo room l c) := by
  have hsize : s.size = l.length := (hK.size h).trans List.length_reverse
  cases c with
  | push v =>
      rw [step_of_legal (s := s) (c := .push v) trivial]
      exact push_agree hK h v
  | emplace v =>
      rw [step_of_legal (s := s) (c := .emplace v) trivial]
      exact push_agree hK h v
  | pop =>
      cases l with
      | nil =>
          rw [step_of_illegal (c := .pop) (Nat.not_lt_of_le (Nat.le_of_eq hsize))]
          exact agree_none
      | cons v l =>
          rw [step_of_legal (c := .pop) (hsize ▸ Nat.succ_pos l.length : 0 < s.size)]
          obtain ⟨s', hs', hholds⟩ := hK.popBack h (by simp)
          rw [List.reverse_cons, List.dropLast_concat] at hholds
          rw [call, pop, hs']
          exact ⟨hholds, rfl⟩
  | top =>
      cases l with
      | nil =>
          rw [step_of_illegal (c := .top) (Nat.not_lt_of_le (Nat.le_of_eq hsize))]
          exact agree_none
      | cons v l =>
          rw [step_of_legal (c := .top) (hsize ▸ Nat.succ_pos l.length : 0 < s.size)]
          have htop : s.top = some v := by
            have hpos : K.size s.c ≠ 0 := by
              rw [show K.size s.c = _ from hsize]
              exact Nat.succ_ne_zero l.length
            have hlast : K.size s.c - 1 = l.reverse.length := by
              rw [show K.size s.c = _ from hsize, List.length_reverse]
              rfl
            rw [top, if_neg hpos, hlast, hK.index h (by simp), List.reverse_cons,
              List.getElem?_concat_length]
          rw [call, htop]
          exact ⟨h, rfl⟩
  | size =>
      rw [step_of_legal (s := s) (c := .size) trivial]
      exact ⟨h, congrArg Out.number hsize⟩
  | empty =>
      rw [step_of_legal (s := s) (c := .empty) trivial]
      refine ⟨h, congrArg Out.test ?_⟩
      rw [empty, show K.size s.c = _ from hsize]
      cases l <;> rfl

end Stack

/-! ## Vectors in place -/

theorem InplaceVector.refines (T : Type) (N : Nat) :
    (Container.inplaceVector T N).Refines InplaceVector.Holds fun n => n < N where
  size h := h.size
  index h hi := h.index _ hi
  pushBack h hroom v := by
    obtain ⟨w, hw, hholds, -⟩ := h.pushBack (x := v) (of_decide_eq_true hroom)
    exact ⟨w, hw, hholds⟩
  full h hroom v := h.pushBack_none (Nat.le_of_not_lt (of_decide_eq_false hroom))
  popBack h hl := ⟨_, rfl, h.popBack hl⟩

/-! ## Arrays -/

namespace DynamicArray

/-- The array is in the store, and has the elements of the list. -/
structure Holds (s : Store T × Arr) (l : List T) : Prop where
  offset_pos : 0 < s.1.offset
  fits : Fits s.1 s.2
  contents : contents s.1 s.2 = l.map some

variable {s : Store T × Arr} {l : List T}

theorem Holds.size_eq (h : Holds s l) : s.2.size = l.length := World.size_eq_length h.contents

theorem holds_none (s : Store T) (hs : 0 < s.offset) : Holds (s, Arr.none) [] :=
  ⟨hs, fits_none s, rfl⟩

theorem Holds.call [Inhabited T] (h : Holds s l) {c : Call T} {l' : List T} {out : Option Nat}
    (haway : c.ShiftsAway l.length) (hc : c.onSeq l = some (l', out)) :
    Holds (DynamicArray.call TypedDynamicMemory.allocate s.1 s.2 c) l' := by
  have hlegal : c.Legal s.2 := by
    rw [legal_iff_onSeq h.size_eq, hc]
    rfl
  have hr := call_result h.fits h.offset_pos hlegal (granted_dynamic s.1 (growthRequest s.2 c))
  refine ⟨?_, hr.fits h.fits h.offset_pos, ?_⟩
  · rw [hr.offset_eq]
    exact Nat.lt_of_lt_of_le h.offset_pos (Nat.le_add_right _ _)
  · rw [hr.contents_eq, h.contents, onList_of_onSeq haway hc]

theorem refines [Inhabited T] : (Container.dynamicArray T).Refines Holds fun _ => true where
  size h := h.size_eq
  index {s l i} h hi := by
    have hlt : i < s.2.size := h.size_eq ▸ hi
    have hget := congrArg (fun k => k[i]?) h.contents
    simp only [contents, List.getElem?_map, List.getElem?_range hlt, Option.map_some,
      List.getElem?_eq_getElem hi, Option.some.injEq] at hget
    rw [List.getElem?_eq_getElem hi]
    exact hget
  pushBack h _ v := ⟨_, rfl, h.call (c := .pushBack v) trivial rfl⟩
  full _ hroom := by cases hroom
  popBack {s l} h hl := by
    have hc : Call.onSeq l .popBack = some (l.dropLast, none) := by
      rw [Call.onSeq, if_neg (List.length_pos_iff.mp hl)]
    exact ⟨_, rfl, h.call (c := .popBack) trivial hc⟩

end DynamicArray

namespace Stack

/-- A stack over a container that refines lists is last in, first out, and so
are a stack over an empty vector in place, which has no room for more than `N`
elements, and one over an array, which has room for all. -/
theorem stacks_are_lifo [Inhabited T] :
    (∀ (K : Container T) (Holds : K.State → List T → Prop) (room : Nat → Bool) (s : K.State),
      K.Refines Holds room → Holds s [] → ∀ calls : List (Call T),
        Agree (HoldsUp Holds) (answersFrom step (⟨s⟩ : Stack K) calls)
          (answersFrom (lifo room) [] calls)) ∧
    (∀ (N : Nat) (calls : List (Call T)), Agree (HoldsUp InplaceVector.Holds)
      (answersFrom step (⟨InplaceVector.fresh⟩ : Stack (Container.inplaceVector T N)) calls)
        (answersFrom (lifo fun n => n < N) [] calls)) ∧
    ∀ calls : List (Call T), Agree (HoldsUp DynamicArray.Holds)
      (answersFrom step (⟨(Store.fresh 1, Arr.none)⟩ : Stack (Container.dynamicArray T)) calls)
        (answersFrom (lifo fun _ => true) [] calls) := by
  have hall : ∀ (K : Container T) (Holds : K.State → List T → Prop) (room : Nat → Bool)
      (s : K.State), K.Refines Holds room → Holds s [] → ∀ calls : List (Call T),
        Agree (HoldsUp Holds) (answersFrom step (⟨s⟩ : Stack K) calls)
          (answersFrom (lifo room) [] calls) :=
    fun K Holds room s hK hs calls =>
      answersFrom_agree (fun _ _ c h => step_agree hK h c) (show HoldsUp Holds ⟨s⟩ [] from hs) calls
  exact ⟨hall, fun N calls => hall _ _ _ _ (InplaceVector.refines T N) .fresh calls,
    fun calls => hall _ _ _ _ DynamicArray.refines
      (DynamicArray.holds_none _ Nat.one_pos) calls⟩

/-- Two elements in, and the second one out. -/
theorem stacks_are_lifo_small :
    ∃ s, answersFrom step (⟨InplaceVector.fresh⟩ : Stack (Container.inplaceVector Nat 2))
      [.push 1, .push 2, .top, .pop, .top] =
        some (s, [.done, .done, .elem 2, .done, .elem 1]) := by
  have hrun : answersFrom (lifo fun n => n < 2) ([] : List Nat)
      [.push 1, .push 2, .top, .pop, .top] =
        some ([1], [.done, .done, .elem 2, .done, .elem 1]) := by decide
  have hagree := stacks_are_lifo.1 (Container.inplaceVector Nat 2) _ _ InplaceVector.fresh
    (InplaceVector.refines Nat 2) .fresh [.push 1, .push 2, .top, .pop, .top]
  rw [hrun] at hagree
  obtain ⟨s, hs, -⟩ := hagree.of_some_right
  exact ⟨s, hs⟩

end Stack

end Ycetl.Ref
