import Ycetl.Proofs.RelevantTypes
import Ycetl.Ref.MultitypeHandler

/-!
# The flat `type_set` and the handlers over it

`flat_type_set_t` lists the types that its arguments mention, each at its first
occurrence. All of its laws follow from that description: a grouping of the
arguments is not visible in it, nothing is left to remove the second time, and
what occurred before adds nothing.

A handler tuple over such a list has one element for each type, so a lookup by
type is defined for every type of the list, and for no other.
-/

namespace Ycetl.Ref

open Ycetl.Lib

variable {α : Type} [DecidableEq α]

/-- The types that a list of arguments mentions, from left to right. -/
def mentioned (args : List (Ty α)) : List (Ty α) := args.flatMap asTypeSet

omit [DecidableEq α] in
theorem mentioned_append (args more : List (Ty α)) :
    mentioned (args ++ more) = mentioned args ++ mentioned more := List.flatMap_append

theorem flatTypeSet_eq {args : List (Ty α)} (hne : args ≠ []) :
    flatTypeSet args = .ok (mentioned args).eraseDups := by
  have hconcat : typeSetConcatT args = .ok (mentioned args) := by
    rw [typeSetConcatT, typeSetConcat_ok_iff]
    exact ⟨by simpa using hne, (List.flatMap_def ..)⟩
  rw [flatTypeSet, hconcat]
  exact congrArg Except.ok (removeDuplicates_eq _)

namespace MultitypeHandler

variable {σ : Type} [DecidableEq σ] {HandlerImpl : Ty α → σ}

/-- In a list without duplicates a type has one handler. -/
theorem getHandler_eq (hinj : Function.Injective HandlerImpl) {types : List (Ty α)}
    (hnd : types.Nodup) {T : Ty α} (hT : T ∈ types) :
    getHandler HandlerImpl types T = .ok (types.idxOf T) := by
  have hcount : (handledTypes HandlerImpl types).count (HandlerImpl T) = 1 := by
    rw [handledTypes, List.count_map_of_injective types HandlerImpl hinj]
    exact List.count_eq_one_of_mem hnd hT
  rw [getHandler, if_pos (contains_iff.mpr hT), tupleGet, if_pos hcount, handledTypes,
    idxOf_map_of_injective hinj]

end MultitypeHandler

/-! ## The laws -/

/-- `flat_type_set_t` of a list of arguments is the list of the types they
mention, each once, by first occurrence; flattening it again, grouping the
arguments otherwise and adding arguments that were mentioned give the same
list; and the handler tuple over it has exactly one element for each of its
types. -/
theorem flat_type_set_canonical (args : List (Ty α)) (hne : args ≠ []) :
    ∃ r, flatTypeSet args = .ok r ∧
      (∀ T, T ∈ r ↔ T ∈ mentioned args) ∧ r.Nodup ∧
      r.Pairwise (fun S T => (mentioned args).idxOf S < (mentioned args).idxOf T) ∧
      flatTypeSet [.typeSet r] = .ok r ∧
      (∀ args', args' ≠ [] → mentioned args' = mentioned args → flatTypeSet args' = .ok r) ∧
      (∀ more, (∀ T ∈ mentioned more, T ∈ mentioned args) →
        flatTypeSet (args ++ more) = .ok r) ∧
      MultitypeHandler.types args = .ok r ∧
      ∀ (σ : Type) [DecidableEq σ] (HandlerImpl : Ty α → σ), Function.Injective HandlerImpl →
        ∀ T ∈ r, ∃ i, MultitypeHandler.getHandler HandlerImpl r T = .ok i ∧
          r[i]? = some T ∧
          ∀ j : Nat, (MultitypeHandler.handledTypes HandlerImpl r)[j]? = some (HandlerImpl T) →
            j = i := by
  have hnd := nodup_eraseDups (mentioned args)
  refine ⟨(mentioned args).eraseDups, flatTypeSet_eq hne, fun T => List.mem_eraseDups, hnd,
    eraseDups_pairwise _, ?_, fun args' hne' heq => ?_, fun more hmore => ?_,
    flatTypeSet_eq hne, ?_⟩
  · have hone : mentioned [Ty.typeSet (mentioned args).eraseDups] =
        (mentioned args).eraseDups := List.append_nil _
    rw [flatTypeSet_eq (List.cons_ne_nil _ _), hone, eraseDups_eraseDups]
  · rw [flatTypeSet_eq hne', heq]
  · rw [flatTypeSet_eq (by simp [hne]), mentioned_append, eraseDups_append_of_subset hmore]
  · intro σ _ HandlerImpl hinj T hT
    have hlt := List.idxOf_lt_length_of_mem hT
    refine ⟨_, MultitypeHandler.getHandler_eq hinj hnd hT, ?_, fun j hj => ?_⟩
    · rw [List.getElem?_eq_getElem hlt, List.getElem_idxOf]
    · rw [MultitypeHandler.handledTypes, List.getElem?_map, Option.map_eq_some_iff] at hj
      obtain ⟨S, hS, hST⟩ := hj
      obtain ⟨hj, hget⟩ := List.getElem?_eq_some_iff.mp hS
      have hT' : (mentioned args).eraseDups[j] = T := hget.trans (hinj hST)
      rw [← hT', hnd.idxOf_getElem]

/-- `int`, the set of `float` and `int`, `float`: two handlers. -/
theorem flat_type_set_int_float :
    flatTypeSet [.named 0, .typeSet [.named 1, .named (0 : Nat)], .named 1] =
        .ok [.named 0, .named 1] ∧
      MultitypeHandler.getHandler (fun T : Ty Nat => (T, ())) [.named 0, .named 1] (.named 1) =
        .ok 1 := by
  obtain ⟨r, hr, -, -, -, -, -, -, -, hhandler⟩ := flat_type_set_canonical
    [.named 0, .typeSet [.named 1, .named (0 : Nat)], .named 1] (by simp)
  have hlist : r = [.named 0, .named 1] := by
    have hrun : flatTypeSet [.named 0, .typeSet [.named 1, .named (0 : Nat)], .named 1] =
        .ok [.named 0, .named 1] := rfl
    exact Except.ok.inj (hr.symm.trans hrun)
  subst hlist
  obtain ⟨i, hi, -, honly⟩ := hhandler (Ty Nat × Unit) (fun T => (T, ()))
    (fun S T h => (Prod.mk.inj h).1) (.named 1) (by simp)
  have hone : (1 : Nat) = i := honly 1 rfl
  exact ⟨hr, hone ▸ hi⟩

end Ycetl.Ref
