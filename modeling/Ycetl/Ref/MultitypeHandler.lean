import Ycetl.Ref.TypeSystem

/-!
# `multitype_handler.hpp`: one handler for each type

A handler keeps one `HandlerImpl<T>` for each type `T` of a flat `type_set`, in
a tuple, and looks one up by its type. The class template `HandlerImpl` is a
parameter: a function from types to types.
-/

namespace Ycetl.Ref

/-- `std::get<H>` of a tuple with elements of the types `hs`: the position of
the one element of type `H`. With none, or more than one, there is no such
function to call. -/
def tupleGet {σ : Type} [DecidableEq σ] (hs : List σ) (h : σ) : Except Failure Nat :=
  if hs.count h = 1 then .ok (hs.idxOf h) else .error .illFormed

namespace MultitypeHandler

variable {α σ : Type} [DecidableEq α] [DecidableEq σ] (HandlerImpl : Ty α → σ)

/-- `multitype_handler<HandlerImpl, RawTypes...>::types`. -/
def types (rawTypes : List (Ty α)) : Except Failure (List (Ty α)) := flatTypeSet rawTypes

/-- `handled_types`: the types of the elements of `_handlers`. -/
def handledTypes (types : List (Ty α)) : List σ := types.map HandlerImpl

/-- `get_handler<T>()`, as the position in `_handlers`. -/
def getHandler (types : List (Ty α)) (T : Ty α) : Except Failure Nat :=
  if contains T types then tupleGet (handledTypes HandlerImpl types) (HandlerImpl T)
  else .error .illFormed

end MultitypeHandler

end Ycetl.Ref
