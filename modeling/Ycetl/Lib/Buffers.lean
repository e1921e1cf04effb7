import Mathlib.Data.List.Basic

/-!
# Raw buffers

Memory that has been allocated for objects has none in it yet. A slot may be
written at any time, and read once it has been written; past the end there is
neither.
-/

namespace Ycetl.Lib

variable {α : Type*}

/-- The slots, and what has been written to them. -/
structure Buffer (α : Type*) where
  slots : List (Option α)

namespace Buffer

/-- `n` slots with nothing in them. -/
def raw (n : Nat) : Buffer α := ⟨List.replicate n none⟩

def size (b : Buffer α) : Nat := b.slots.length

def read (b : Buffer α) (i : Nat) : Option α := (b.slots[i]?).join

def write (b : Buffer α) (i : Nat) (x : α) : Option (Buffer α) :=
  if i < b.size then some ⟨b.slots.set i (some x)⟩ else none

variable {b b' : Buffer α} {i j : Nat} {x : α}

@[simp] theorem size_raw (n : Nat) : (raw n : Buffer α).size = n := List.length_replicate

theorem write_of_lt (h : i < b.size) (x : α) :
    b.write i x = some ⟨b.slots.set i (some x)⟩ := if_pos h

theorem lt_of_write (h : b.write i x = some b') : i < b.size := by
  rw [write] at h
  split at h
  · assumption
  · cases h

theorem size_write (h : b.write i x = some b') : b'.size = b.size := by
  rw [write_of_lt (lt_of_write h), Option.some.injEq] at h
  rw [← h]
  exact List.length_set

theorem read_write_self (h : b.write i x = some b') : b'.read i = some x := by
  have hlt := lt_of_write h
  rw [write_of_lt hlt, Option.some.injEq] at h
  rw [← h, read, List.getElem?_set_self hlt]
  rfl

theorem read_write_ne (h : b.write i x = some b') (hij : i ≠ j) : b'.read j = b.read j := by
  rw [write_of_lt (lt_of_write h), Option.some.injEq] at h
  rw [← h, read, List.getElem?_set_ne hij]
  rfl

/-! ## Filling from the front -/

/-- The first slots hold this list. -/
def Holds (b : Buffer α) (l : List α) : Prop := ∀ (i : Nat) x, l[i]? = some x → b.read i = some x

theorem holds_nil (b : Buffer α) : b.Holds [] := fun i x h => by simp at h

/-- One more element behind them. -/
theorem Holds.concat {l : List α} (h : b.Holds l) (hwrite : b.write l.length x = some b') :
    b'.Holds (l ++ [x]) := by
  intro i y hy
  by_cases hi : i < l.length
  · rw [List.getElem?_append_left hi] at hy
    rw [read_write_ne hwrite (Nat.ne_of_gt hi)]
    exact h i y hy
  · rw [List.getElem?_append_right (Nat.le_of_not_lt hi)] at hy
    obtain ⟨hzero, hget⟩ := List.getElem?_eq_some_iff.mp hy
    rw [List.length_singleton] at hzero
    have heq : i = l.length := by omega
    subst heq
    rw [read_write_self hwrite, ← hget, List.getElem_singleton]

end Buffer

end Ycetl.Lib
