import Mathlib.Data.List.Basic

/-!
# `type_system.hpp`: flattening relevant types

Types are named types and `type_set`s of types. A named type may have a member
`relevant_of`, which is a type again; `RelevantOf` is that table, and its
edges are the graph that `flatten_relevant_types` unfolds.

A template has a type for its arguments when the instantiations it needs have
one, so an instantiation is a recursion that is cut off at a depth. It fails
for one of two reasons: it is nested deeper than that, or it names a
specialisation that has no definition. An instantiation that needs itself
fails at every depth, as the compiler's does.
-/

namespace Ycetl.Ref

/-- A type: a named one, or a `type_set` of types. -/
inductive Ty (α : Type) where
  | named (a : α)
  | typeSet (ts : List (Ty α))

section

variable {α : Type} [DecidableEq α]

mutual

/-- `std::is_same`. -/
def Ty.decEq : (S T : Ty α) → Decidable (S = T)
  | .named a, .named b => decidable_of_iff (a = b) (by simp)
  | .named _, .typeSet _ => isFalse (by simp)
  | .typeSet _, .named _ => isFalse (by simp)
  | .typeSet ss, .typeSet ts =>
      match Ty.decEqs ss ts with
      | isTrue h => isTrue (by rw [h])
      | isFalse h => isFalse (by simpa using h)

def Ty.decEqs : (ss ts : List (Ty α)) → Decidable (ss = ts)
  | [], [] => isTrue rfl
  | [], _ :: _ => isFalse (by simp)
  | _ :: _, [] => isFalse (by simp)
  | s :: ss, t :: ts =>
      match Ty.decEq s t, Ty.decEqs ss ts with
      | isTrue hs, isTrue hss => isTrue (by rw [hs, hss])
      | isFalse hs, _ => isFalse (by simp [hs])
      | _, isFalse hss => isFalse (by simp [hss])

end

instance : DecidableEq (Ty α) := Ty.decEq

end

/-- The member `relevant_of` of each named type that declares one. -/
abbrev RelevantOf (α : Type) := α → Option (Ty α)

/-- Why an instantiation has no type. -/
inductive Failure where
  | depth
  | illFormed
deriving DecidableEq

section TypeSets

variable {τ : Type} [DecidableEq τ]

/-- `type_set_concat` of a first set and the others. -/
def concatOnto : List τ → List (List τ) → List τ
  | ts, [] => ts
  | ts, us :: rest => concatOnto (ts ++ us) rest

/-- `type_set_concat`: it is only declared for no set at all. -/
def typeSetConcat : List (List τ) → Except Failure (List τ)
  | [] => .error .illFormed
  | ts :: rest => .ok (concatOnto ts rest)

/-- `contains`. -/
def contains (t : τ) : List τ → Bool
  | [] => false
  | u :: rest => if t = u then true else contains t rest

/-- `remove_duplicates<InputSet, Result>`. -/
def removeDuplicatesInto : List τ → List τ → List τ
  | [], rs => rs
  | head :: tail, rs =>
      removeDuplicatesInto tail (if contains head rs then rs else rs ++ [head])

/-- `remove_duplicates_t`. -/
def removeDuplicates (ts : List τ) : List τ := removeDuplicatesInto ts []

end TypeSets

variable {α : Type} [DecidableEq α]

/-- `as_type_set`. -/
def asTypeSet : Ty α → List (Ty α)
  | .named a => [.named a]
  | .typeSet ts => ts

/-- `type_set_concat_t<Args...>`. -/
def typeSetConcatT (args : List (Ty α)) : Except Failure (List (Ty α)) :=
  typeSetConcat (args.map asTypeSet)

/-- `flat_type_set_t<Args...>`. -/
def flatTypeSet (args : List (Ty α)) : Except Failure (List (Ty α)) := do
  let concatenated ← typeSetConcatT args
  return removeDuplicates concatenated

/-- The specialisation of `flatten_relevant_types<T, Seen>` that is chosen. -/
inductive Specialisation (α : Type) where
  | base
  | relevantOf (immediate : Ty α)
  | pack (ts : List (Ty α))
  | seen
  | ambiguous

/-- The cycle detection is not more specialised than the two others, nor they
than it: where it matches besides one of them, the choice is ambiguous. -/
def specialisation (g : RelevantOf α) (T : Ty α) (seen : List (Ty α)) : Specialisation α :=
  match T, contains T seen with
  | .typeSet ts, false => .pack ts
  | .typeSet _, true => .ambiguous
  | .named a, false =>
      match g a with
      | some immediate => .relevantOf immediate
      | none => .base
  | .named a, true =>
      match g a with
      | some _ => .ambiguous
      | none => .seen

/-- `flatten_relevant_types<T, Seen>::type`, instantiated to the given depth.
Every specialisation hands on the `Seen` it was given. -/
def flattenRelevantTypes (g : RelevantOf α) :
    Nat → Ty α → List (Ty α) → Except Failure (List (Ty α))
  | 0, _, _ => .error .depth
  | depth + 1, T, seen =>
      match specialisation g T seen with
      | .base => .ok [T]
      | .relevantOf immediate => flattenRelevantTypes g depth immediate seen
      | .pack ts => do
          let flattened ← ts.mapM fun t => flattenRelevantTypes g depth t seen
          let concatenated ← typeSetConcat flattened
          return removeDuplicates concatenated
      | .seen => .ok []
      | .ambiguous => .error .illFormed

/-- `relevant_types_t<Args...>`. -/
def relevantTypes (g : RelevantOf α) (depth : Nat) (args : List (Ty α)) :
    Except Failure (List (Ty α)) := do
  let flattened ← flattenRelevantTypes g depth (.typeSet args) []
  return removeDuplicates flattened

end Ycetl.Ref
