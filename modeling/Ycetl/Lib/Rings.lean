import Mathlib.Data.List.Basic
import Mathlib.Data.Nat.ModEq

/-!
# A list laid out on a ring

A buffer is read as a ring: the element at place `i` of a list lies in slot
`(head + i) % length`. `Ring` is that layout. An element is added or taken off
at either end by one slot and, at the front, a head that goes one slot back or
on; the other elements stay where they are, because places below the length
of the ring lie in different slots.
-/

namespace Ycetl.Lib

variable {T : Type*}

/-- The buffer holds the list, in order, from slot `head` on. -/
structure Ring (buf : List T) (head : Nat) (l : List T) : Prop where
  fits : l.length ≤ buf.length
  head_lt : 0 < buf.length → head < buf.length
  read : ∀ i, i < l.length → buf[(head + i) % buf.length]? = l[i]?

/-- Two places of a ring lie in different slots. -/
theorem ring_slot_inj {c head i j : Nat} (hi : i < c) (hj : j < c)
    (h : (head + i) % c = (head + j) % c) : i = j := by
  have hmod : head + i ≡ head + j [MOD c] := h
  exact (Nat.ModEq.add_left_cancel' head hmod).eq_of_lt_of_lt hi hj

/-- The slot after the one a head goes back to is the head. -/
theorem ring_slot_back {c head : Nat} (hhead : head < c) (i : Nat) :
    ((head + c - 1) % c + (i + 1)) % c = (head + i) % c := by
  rcases Nat.eq_zero_or_pos head with h0 | hpos
  · have hlast : (head + c - 1) % c = c - 1 := by
      rw [h0, Nat.zero_add]
      exact Nat.mod_eq_of_lt (by omega)
    rw [hlast, show c - 1 + (i + 1) = head + i + c by omega, Nat.add_mod_right]
  · have hprev : (head + c - 1) % c = head - 1 := by
      rw [show head + c - 1 = head - 1 + c by omega, Nat.add_mod_right]
      exact Nat.mod_eq_of_lt (by omega)
    rw [hprev, show head - 1 + (i + 1) = head + i by omega]

theorem ring_slot_next (c head i : Nat) : ((head + 1) % c + i) % c = (head + (i + 1)) % c := by
  rw [Nat.mod_add_mod]
  congr 1
  omega

namespace Ring

variable {buf : List T} {head : Nat} {l : List T}

theorem slot_lt (hpos : 0 < buf.length) (i : Nat) : (head + i) % buf.length < buf.length :=
  Nat.mod_lt _ hpos

/-- Nothing is laid out. -/
theorem nil (hhead : 0 < buf.length → head < buf.length) : Ring buf head [] :=
  ⟨Nat.zero_le _, hhead, fun i hi => absurd hi (Nat.not_lt_zero i)⟩

/-- A list laid out from slot 0 on. -/
theorem linear (hfits : l.length ≤ buf.length) (h : ∀ i, i < l.length → buf[i]? = l[i]?) :
    Ring buf 0 l := by
  refine ⟨hfits, id, fun i hi => ?_⟩
  rw [Nat.zero_add, Nat.mod_eq_of_lt (by omega)]
  exact h i hi

/-- Overwriting the slot of one place changes that place only. -/
theorem set (h : Ring buf head l) {i : Nat} (hi : i < l.length) (v : T) :
    Ring (buf.set ((head + i) % buf.length) v) head (l.set i v) := by
  have hfits := h.fits
  have hpos : 0 < buf.length := by omega
  refine ⟨by simpa using hfits, fun _ => by simpa using h.head_lt hpos, fun j hj => ?_⟩
  rw [List.length_set] at hj
  rw [List.length_set]
  by_cases hij : i = j
  · rw [hij, List.getElem?_set_self (slot_lt hpos j), List.getElem?_set_self hj]
  · have hne : (head + i) % buf.length ≠ (head + j) % buf.length := fun he =>
      hij (ring_slot_inj (by omega) (by omega) he)
    rw [List.getElem?_set_ne hne, List.getElem?_set_ne hij]
    exact h.read j hj

/-- An element added behind the last. -/
theorem pushBack (h : Ring buf head l) (hroom : l.length < buf.length) (v : T) :
    Ring (buf.set ((head + l.length) % buf.length) v) head (l ++ [v]) := by
  have hpos : 0 < buf.length := by omega
  have hfits : (l ++ [v]).length ≤ buf.length := by
    rw [List.length_append, List.length_singleton]
    exact hroom
  refine ⟨by simpa using hfits, fun _ => by simpa using h.head_lt hpos, fun j hj => ?_⟩
  rw [List.length_append, List.length_singleton] at hj
  rw [List.length_set]
  rcases Nat.lt_or_ge j l.length with hlt | hge
  · have hne : (head + l.length) % buf.length ≠ (head + j) % buf.length := by
      intro he
      have := ring_slot_inj hroom (by omega) he
      omega
    rw [List.getElem?_set_ne hne, List.getElem?_append_left hlt]
    exact h.read j hlt
  · have hj' : j = l.length := by omega
    rw [hj', List.getElem?_set_self (slot_lt hpos _)]
    simp

/-- An element added before the first: the head goes one slot back. -/
theorem pushFront (h : Ring buf head l) (hroom : l.length < buf.length) (v : T) :
    Ring (buf.set ((head + buf.length - 1) % buf.length) v)
      ((head + buf.length - 1) % buf.length) (v :: l) := by
  have hpos : 0 < buf.length := by omega
  have hback := fun i => ring_slot_back (h.head_lt hpos) i
  have hlt : (head + buf.length - 1) % buf.length < buf.length := Nat.mod_lt _ hpos
  have hfits : (v :: l).length ≤ buf.length := hroom
  refine ⟨by simpa using hfits, fun _ => by simpa using hlt, fun j hj => ?_⟩
  rw [List.length_cons] at hj
  rw [List.length_set]
  cases j with
  | zero =>
      rw [Nat.add_zero, Nat.mod_mod, List.getElem?_set_self hlt]
      rfl
  | succ j =>
      have hne : (head + buf.length - 1) % buf.length
          ≠ ((head + buf.length - 1) % buf.length + (j + 1)) % buf.length := by
        intro he
        have hzero : (head + buf.length - 1) % buf.length
            = ((head + buf.length - 1) % buf.length + 0) % buf.length := by
          rw [Nat.add_zero, Nat.mod_eq_of_lt hlt]
        have hj0 := ring_slot_inj hpos (by omega) (hzero.symm.trans he)
        omega
      rw [List.getElem?_set_ne hne, hback]
      exact h.read j (by omega)

/-- The first element taken off: the head goes one slot on. -/
theorem popFront {v : T} (h : Ring buf head (v :: l)) :
    Ring buf ((head + 1) % buf.length) l := by
  have hfits := h.fits
  rw [List.length_cons] at hfits
  refine ⟨by omega, fun hpos => Nat.mod_lt _ hpos, fun i hi => ?_⟩
  rw [ring_slot_next, h.read (i + 1) (by rw [List.length_cons]; omega), List.getElem?_cons_succ]

/-- The last element taken off. -/
theorem popBack (h : Ring buf head l) : Ring buf head l.dropLast := by
  have hfits := h.fits
  refine ⟨by rw [List.length_dropLast]; omega, h.head_lt, fun i hi => ?_⟩
  rw [List.length_dropLast] at hi
  rw [h.read i (by omega), List.getElem?_dropLast, if_pos (by omega)]

end Ring

end Ycetl.Lib
