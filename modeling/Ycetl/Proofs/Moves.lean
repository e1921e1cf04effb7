import Ycetl.Proofs.MovedArrays
import Ycetl.Proofs.MovedLists
import Ycetl.Ref.ImplicitMoves

/-!
# What a move leaves of its source

The three containers that have their moves written out leave an empty source.
The seven that do not lose the storage of the source and keep its counters:
a source that was empty is as good as new, and any other says it holds
elements that are no longer there. Nothing is left to iterate over, or, in a
deque, each step of the iteration takes a remainder by a capacity of zero.

A deque that was empty keeps its head as well, which nothing can see: every
call that reads the head first makes room, and that lays the ring out from
slot 0.
-/

namespace Ycetl.Ref

open Ycetl.Lib

/-- The list of the elements of an array moves as the array does. -/
theorem moveArray_contents {T : Type} [Inhabited T] (alloc : Allocate) (s : Store T) (b : Arr) :
    moveArray (DynamicArray.contents s b) =
      (DynamicArray.contents s ((DynamicArray.dynamicArrays T alloc).moveConstruct b).1,
        DynamicArray.contents s ((DynamicArray.dynamicArrays T alloc).moveConstruct b).2) :=
  rfl

/-! ## The containers by value -/

namespace Deque

variable (T : Type) [Inhabited T]

def deques : Movable :=
  .ofValues (Deque T) (Call T) (DequeOut T) T Unit empty (fun _ => some empty) ofMove step
    Deque.size iterate

variable {T}

omit [Inhabited T] in
/-- Without a buffer there is nothing to read. -/
theorem index_of_no_buffer (head size i : Nat) : (⟨[], head, size⟩ : Deque T).index i = none :=
  rfl

omit [Inhabited T] in
theorem iterate_of_no_buffer (head size : Nat) :
    (⟨[], head, size⟩ : Deque T).iterate = List.replicate size none := by
  rw [iterate, List.map_congr_left fun i _ => index_of_no_buffer head size i,
    List.map_const', List.length_range]

/-- The head of an empty deque without a buffer is never read. -/
theorem step_of_no_buffer (head : Nat) (c : Call T) :
    step (⟨[], head, 0⟩ : Deque T) c = step empty c := by
  cases c <;> rfl

theorem deques_movesWellWhen : (deques T).MovesWellWhen fun d : Deque T => d.size = 0 := by
  refine Movable.ofValues_movesWellWhen (fun d => ⟨rfl, rfl⟩) (fun d => rfl) ?_ ?_ ?_
  · intro d
    show (iterate ⟨[], d.head, d.size⟩).reduceOption = []
    rw [iterate_of_no_buffer, List.reduceOption_replicate_none]
  · intro d h0
    show iterate ⟨[], d.head, d.size⟩ = []
    rw [iterate_of_no_buffer, h0]
    rfl
  · intro d c h0
    show step ⟨[], d.head, d.size⟩ c = step empty c
    rw [h0, step_of_no_buffer]

end Deque

namespace Queue

variable (T : Type) [Inhabited T]

def queues : Movable :=
  .ofValues (Queue T) (Call T) (DequeOut T) T (List (Deque.Call T)) empty ofCalls ofMove step
    size iterate

variable {T}

theorem queues_movesWellWhen : (queues T).MovesWellWhen fun q : Queue T => q.size = 0 := by
  refine Movable.ofValues_movesWellWhen (fun q => ⟨rfl, rfl⟩) (fun q => rfl) ?_ ?_ ?_
  · intro q
    show (Deque.iterate ⟨[], q.c.head, q.c.size⟩).reduceOption = []
    rw [Deque.iterate_of_no_buffer, List.reduceOption_replicate_none]
  · intro q h0
    show Deque.iterate ⟨[], q.c.head, q.c.size⟩ = []
    rw [Deque.iterate_of_no_buffer, show q.c.size = 0 from h0]
    rfl
  · intro q c h0
    show (Deque.step ⟨[], q.c.head, q.c.size⟩ c.onContainer).map _ = _
    rw [show q.c.size = 0 from h0, Deque.step_of_no_buffer]
    rfl

end Queue

namespace Hive

variable (T : Type) [Inhabited T]

def hives : Movable :=
  .ofValues (Hive T) (Call T) (HiveOut T) T Unit empty (fun _ => some empty) ofMove step
    Hive.size iterate

variable {T}

theorem hives_movesWellWhen : (hives T).MovesWellWhen fun h : Hive T => h.size = 0 := by
  refine Movable.ofValues_movesWellWhen (fun h => ⟨rfl, rfl⟩) (fun h => rfl) (fun h => rfl)
    (fun h _ => rfl) ?_
  intro h c h0
  show step ⟨[], [], h.size⟩ c = step ⟨[], [], 0⟩ c
  rw [h0]

end Hive

namespace Table

/-- What a range-for over a table reads. -/
def readAll {V : Type} (t : Table V) : List (Option V) :=
  t.iterate.map fun i => (t.slots[i]?).map Slot.kv

/-- The tables of a program, for the calls one of the four containers has. -/
def tables {V Op Out : Type} (step : Table V → Op → Option (Table V × Out)) : Movable :=
  .ofValues (Table V) Op Out V Unit empty (fun _ => some empty) ofMove step Table.size readAll

theorem tables_movesWellWhen {V Op Out : Type} (step : Table V → Op → Option (Table V × Out)) :
    (tables step).MovesWellWhen fun t : Table V => t.size = 0 := by
  refine Movable.ofValues_movesWellWhen (fun t => ⟨rfl, rfl⟩) (fun t => rfl) (fun t => rfl)
    (fun t _ => rfl) ?_
  intro t op h0
  show step ⟨[], t.size⟩ op = step ⟨[], 0⟩ op
  rw [h0]

end Table

/-! ## The ten containers -/

/-- In every run of construction, copies, moves, calls and destruction, each
move hands its elements over and leaves a usable source exactly if each move
from one of the containers with implicit moves is from an empty one. -/
theorem moves_in_order_iff_implicit_sources_empty {T K : Type} [Inhabited T] [Inhabited K]
    (H : Hashing K) (alloc : Allocate) :
    (Deque.deques T).MovesWellWhen (fun d : Deque T => d.size = 0) ∧
    (Queue.queues T).MovesWellWhen (fun q : Queue T => q.size = 0) ∧
    (Hive.hives T).MovesWellWhen (fun h : Hive T => h.size = 0) ∧
    (Table.tables (UnorderedMap.step (T := T) H)).MovesWellWhen
      (fun t : Table (K × T) => t.size = 0) ∧
    (Table.tables (UnorderedSet.step H)).MovesWellWhen (fun t : Table K => t.size = 0) ∧
    (Table.tables (UnorderedMultimap.step (T := T) H)).MovesWellWhen
      (fun t : Table (K × T) => t.size = 0) ∧
    (Table.tables (UnorderedMultiset.step H)).MovesWellWhen (fun t : Table K => t.size = 0) ∧
    (DynamicArray.dynamicArrays T alloc).MovesWellWhen (fun _ => True) ∧
    (LinkedList.lists T).MovesWellWhen (fun _ => True) ∧
    (ForwardList.forwardLists T).MovesWellWhen (fun _ => True) :=
  ⟨Deque.deques_movesWellWhen, Queue.queues_movesWellWhen, Hive.hives_movesWellWhen,
    Table.tables_movesWellWhen _, Table.tables_movesWellWhen _, Table.tables_movesWellWhen _,
    Table.tables_movesWellWhen _, DynamicArray.dynamicArrays_movesWellWhen,
    LinkedList.lists_movesWellWhen T, ForwardList.forwardLists_movesWellWhen T⟩

/-- `deque<int> d; d.push_back(1); deque<int> e = std::move(d);` leaves a `d`
of size 1 that has nothing to read. -/
theorem deque_moved_from_counts_lost_element :
    ¬ Along Movable.World.step Movable.MovesWell (Movable.World.initial (Deque.deques Nat))
      [.construct 0 (), .call 0 (Deque.Call.pushBack 1), .moveConstruct 1 0] := by
  intro h
  have hmove := ((h.2 _ rfl).2 _ rfl).1
  obtain ⟨w, hw, x, y, -, hy, -, -, hu⟩ := hmove 1 0 _ rfl
  cases hw
  cases hy
  exact absurd hu.size_eq (by decide)

end Ycetl.Ref
