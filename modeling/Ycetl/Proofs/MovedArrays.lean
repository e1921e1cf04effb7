import Ycetl.Lib.Movable
import Ycetl.Proofs.DynamicArrayWorld

/-!
# Arrays that are moved

A `dynamic_array` owns the slots of its buffer. Both of its moves exchange the
three members of the source for those of an array without a buffer, and the
assignment destroys the elements of the target first. The memory is any that
the arrays can be given; a call whose request it refuses has no result here.
-/

namespace Ycetl.Ref.DynamicArray

open Ycetl.Lib

variable {T : Type} {alloc : Allocate}

instance (s : Store T) (n : Nat) : Decidable (Granted alloc s n) :=
  inferInstanceAs (Decidable (_ = _))

variable (T alloc) in
/-- The arrays of a program. The copy assignment is deleted. -/
def dynamicArrays [Inhabited T] : Movable where
  Heap := Store T
  Obj := Arr
  Arg := Ctor T
  Op := Call T
  Out := Unit
  Val := Option T
  init := Store.fresh 1
  fresh := Arr.none
  construct s c :=
    if Granted alloc s (requested c) then some (construct alloc s c) else none
  copyConstruct s b := if Granted alloc s b.capacity then some (ofCopy alloc s b) else none
  copyAssign _ _ _ := none
  moveConstruct b := (b, Arr.none)
  moveAssign s a b := some ((clearAndDeallocateBuffer s a).1, b, Arr.none)
  call s a c :=
    if c.Legal a ∧ Granted alloc s (growthRequest a c) then
      some ((call alloc s a c).1, (call alloc s a c).2, ())
    else none
  destroy s a := some (clearAndDeallocateBuffer s a).1
  size := Arr.size
  iterate s a := (List.range a.size).map fun k => s.view (a.data + k)

/-- The slots of the buffer, as a set. -/
def slotsOf (a : Arr) : Set Nat := {q | Owns a q}

theorem slotsOf_none : slotsOf Arr.none = ∅ :=
  Set.eq_empty_of_forall_notMem World.not_owns_none

section

variable [Inhabited T] {s s' : Store T} {a a' : Arr}

variable (T alloc) in
def arrayFooting : (dynamicArrays T alloc).Footing where
  Cell := Option (Option T)
  cell s p := Store.view s p
  next s := Store.offset s
  base := 1
  Rep s a F := Fits s a ∧ F = slotsOf a

/-- What is known of a call, as an effect on cells. -/
theorem Result.effect {n : Nat} {l : List (Option T)} (hr : Result s a n s' a' l)
    (hfit : Fits s a) (h0 : 0 < s.offset) :
    Movable.Effect (arrayFooting T alloc) s (slotsOf a) s' (slotsOf a') ∧ Fits s' a' := by
  refine ⟨⟨?_, hr.frame, fun q hq => hr.owned hq⟩, hr.fits hfit h0⟩
  show s.offset ≤ s'.offset
  have := hr.offset_eq
  omega

theorem dynamicArrays_footed : Movable.Footed (dynamicArrays T alloc) (arrayFooting T alloc) := by
  refine ⟨Nat.le_refl 1, ?_, ?_, id, ?_, ?_, ?_, ?_, ?_, ?_, fun _ _ _ => rfl⟩
  · intro s a F hex p hp
    obtain ⟨hfit, hF⟩ := hex
    rw [hF] at hp
    exact hfit.owns_lt hp
  · intro s s' a F hex hle hkeep
    obtain ⟨hfit, hF⟩ := hex
    rw [hF] at hkeep
    refine ⟨⟨hfit.keep hle hkeep, hF⟩, List.map_congr_left fun k hk => hkeep _ ?_⟩
    have := List.mem_range.mp hk
    exact hfit.owns ⟨by omega, by omega⟩
  · intro s a F _
    exact ⟨fits_none s, slotsOf_none.symm⟩
  · intro s c s' a' h0 hc
    dsimp only [dynamicArrays] at hc
    split at hc
    · next hg =>
        obtain ⟨he, hfit⟩ := (construct_result c hg).effect (fits_none s) h0
        rw [show construct alloc s c = (s', a') from Option.some.inj hc] at he hfit
        exact ⟨_, slotsOf_none ▸ he, hfit, rfl⟩
    · cases hc
  · intro s b G s' a' h0 hex hc
    obtain ⟨hb, _⟩ := hex
    dsimp only [dynamicArrays] at hc
    split at hc
    · next hg =>
        obtain ⟨he, hfit⟩ := (ofCopy_result hb hg).effect (fits_none s) h0
        rw [show ofCopy alloc s b = (s', a') from Option.some.inj hc] at he hfit
        exact ⟨_, slotsOf_none ▸ he, hfit, rfl⟩
    · cases hc
  · intro s a b F G s' a' _ _ _ _ hc
    cases hc
  · intro s a F c s' a' out h0 hex hc
    obtain ⟨ha, hF⟩ := hex
    subst hF
    dsimp only [dynamicArrays] at hc
    split at hc
    · next hlegal =>
        obtain ⟨he, hfit⟩ := (call_result ha h0 hlegal.1 hlegal.2).effect ha h0
        cases hc
        exact ⟨_, he, hfit, rfl⟩
    · cases hc
  · intro s a F hex
    obtain ⟨ha, hF⟩ := hex
    subst hF
    have hr := World.clearAndDeallocateBuffer_result ha
    refine ⟨_, rfl, ?_, hr.frame, fun p hp => absurd hp (Set.notMem_empty p)⟩
    show s.offset ≤ (clearAndDeallocateBuffer s a).1.offset
    rw [hr.offset_eq]
    exact Nat.le_refl _

theorem dynamicArrays_movesWellWhen :
    Movable.MovesWellWhen (dynamicArrays T alloc) fun _ => True := by
  refine dynamicArrays_footed.movesWellWhen (fun s b => ⟨rfl, rfl⟩) fun s b => ?_
  exact iff_true_intro ⟨rfl, rfl, fun _ => rfl⟩

end

end Ycetl.Ref.DynamicArray
