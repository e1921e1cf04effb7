import Ycetl.Ref.Deque
import Ycetl.Ref.Hive
import Ycetl.Ref.HashTable

/-!
# The moves nobody wrote

`deque`, `queue`, `hive` and the four hash tables declare neither a move
constructor nor a move assignment, so both are the ones of the language:
member by member. The storage members are arrays, whose move takes the buffer
and leaves an array without one. The counters are integers, whose move is a
copy. The hash and equality functors of the tables carry no state.

An assignment first gives up what the target held, and the target is then the
same as after a construction; the target of a self-assignment keeps all it
has.
-/

namespace Ycetl.Ref

/-- The move of a `dynamic_array` member, seen as the list of its elements:
what the target gets, and what the source keeps. -/
def moveArray {α : Type} (elements : List α) : List α × List α := (elements, [])

/-- The move of a `size_type` member. -/
def moveWord (n : Nat) : Nat × Nat := (n, n)

namespace Deque

def ofMove {T : Type} (d : Deque T) : Deque T × Deque T :=
  let buf := moveArray d.buf
  let head := moveWord d.head
  let size := moveWord d.size
  (⟨buf.1, head.1, size.1⟩, ⟨buf.2, head.2, size.2⟩)

end Deque

namespace Queue

def ofMove {T : Type} (q : Queue T) : Queue T × Queue T :=
  let c := Deque.ofMove q.c
  (⟨c.1⟩, ⟨c.2⟩)

/-- `queue(container_type c)`, for the container these calls make. -/
def ofCalls {T : Type} [Inhabited T] (calls : List (Deque.Call T)) : Option (Queue T) := do
  let c ← calls.foldlM (fun d c => (Deque.step d c).map Prod.fst) Deque.empty
  some ⟨(Deque.ofMove c).1⟩

end Queue

namespace Hive

def ofMove {T : Type} (h : Hive T) : Hive T × Hive T :=
  let slots := moveArray h.slots
  let free := moveArray h.free
  let size := moveWord h.size
  (⟨slots.1, free.1, size.1⟩, ⟨slots.2, free.2, size.2⟩)

end Hive

namespace Table

/-- The four tables have the same members. -/
def ofMove {V : Type} (t : Table V) : Table V × Table V :=
  let slots := moveArray t.slots
  let size := moveWord t.size
  (⟨slots.1, size.1⟩, ⟨slots.2, size.2⟩)

end Table

end Ycetl.Ref
