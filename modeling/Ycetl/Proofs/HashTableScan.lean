import Ycetl.Ref.HashTable
import Mathlib.Data.List.Perm.Basic
import Mathlib.Data.List.Pairwise
import Mathlib.Data.List.Count

/-!
# What a probe loop can see

Every loop of the open-addressing tables walks the probe sequence of one key
and stops for one of three reasons: it met a filled slot with that key, it
met an empty slot, or it ran out of slots. `scan` says so once. What
each loop answers is then read off the three cases, by one lemma for the
prefix it walked over and one evaluation at the slot it stopped at.

The live entries of a table are a list, in slot order, and every write of the
tables changes one slot; the lemmas of the second half say what such a write
does to that list.
-/

namespace Ycetl.Ref.Table

open Ycetl.Lib

variable {K V : Type} {H : Hashing K} {key : V → K}

/-- The live entries, in slot order. -/
def entriesOf (slots : List (Slot V)) : List V :=
  slots.filterMap fun s => if s.state = .filled then some s.kv else none

def entries (t : Table V) : List V := entriesOf t.slots

/-- No live entry has the key. -/
def Absent (H : Hashing K) (key : V → K) (es : List V) (k : K) : Prop :=
  ∀ v ∈ es, H.eq (key v) k = false

/-! ## Slots, split at an index -/

theorem split_at {slots : List (Slot V)} {i : Nat} {s : Slot V}
    (h : slots[i]? = some s) :
    ∃ a b, slots = a ++ s :: b ∧ a.length = i := by
  obtain ⟨hi, rfl⟩ := List.getElem?_eq_some_iff.mp h
  exact ⟨slots.take i, slots.drop (i + 1), by simp, by simp; omega⟩

theorem set_split (a b : List (Slot V)) (s s' : Slot V) :
    (a ++ s :: b).set a.length s' = a ++ s' :: b := by
  simp

@[simp] theorem entriesOf_append (a b : List (Slot V)) :
    entriesOf (a ++ b) = entriesOf a ++ entriesOf b := by
  simp [entriesOf]

theorem entriesOf_cons_filled (v : V) (b : List (Slot V)) :
    entriesOf (⟨.filled, v⟩ :: b) = v :: entriesOf b := by
  simp [entriesOf]

theorem entriesOf_cons_of_ne {s : Slot V} (hs : s.state ≠ .filled)
    (b : List (Slot V)) : entriesOf (s :: b) = entriesOf b := by
  simp [entriesOf, hs]

theorem mem_entriesOf {slots : List (Slot V)} {v : V} :
    v ∈ entriesOf slots ↔ ∃ i : Nat, slots[i]? = some ⟨.filled, v⟩ := by
  simp only [entriesOf, List.mem_filterMap]
  constructor
  · intro hex
    obtain ⟨⟨st, w⟩, hs, hv⟩ := hex
    obtain ⟨i, hi⟩ := List.getElem?_of_mem hs
    split at hv
    · next hst =>
        simp only [Option.some.injEq] at hv hst
        exact ⟨i, by rw [hi, hst, hv]⟩
    · cases hv
  · intro hex
    obtain ⟨i, hi⟩ := hex
    exact ⟨_, List.mem_of_getElem? hi, by simp⟩

theorem length_entriesOf_le (slots : List (Slot V)) :
    (entriesOf slots).length ≤ slots.length :=
  List.length_filterMap_le _ _

/-- Filling a slot that was not filled adds one entry. -/
theorem entriesOf_set_fill {slots : List (Slot V)} {i : Nat} {s : Slot V}
    (hi : slots[i]? = some s) (hs : s.state ≠ .filled) (v : V) :
    (entriesOf (slots.set i ⟨.filled, v⟩)).Perm (v :: entriesOf slots) := by
  obtain ⟨a, b, rfl, rfl⟩ := split_at hi
  rw [set_split, entriesOf_append, entriesOf_append, entriesOf_cons_filled,
    entriesOf_cons_of_ne hs]
  exact List.perm_middle

/-- A filled slot splits the entries where it splits the slots. -/
theorem entriesOf_split {slots : List (Slot V)} {i : Nat} {v : V}
    (hi : slots[i]? = some ⟨.filled, v⟩) :
    ∃ es es', entriesOf slots = es ++ v :: es' ∧
      (∀ w, entriesOf (slots.set i ⟨.filled, w⟩) = es ++ w :: es') ∧
      (∀ s : Slot V, s.state ≠ .filled →
        entriesOf (slots.set i s) = es ++ es') := by
  obtain ⟨a, b, rfl, rfl⟩ := split_at hi
  refine ⟨entriesOf a, entriesOf b, ?_, ?_, ?_⟩
  · rw [entriesOf_append, entriesOf_cons_filled]
  · intro w
    rw [set_split, entriesOf_append, entriesOf_cons_filled]
  · intro s hs
    rw [set_split, entriesOf_append, entriesOf_cons_of_ne hs]

theorem entriesOf_freshSlots [Inhabited V] (n : Nat) :
    entriesOf (freshSlots n : List (Slot V)) = [] := by
  simp only [entriesOf, freshSlots, List.filterMap_eq_nil_iff]
  intro s hs
  rw [(List.mem_replicate.mp hs).2]
  rfl

/-- Fewer entries than slots leave a slot that is not filled. -/
theorem exists_not_filled {slots : List (Slot V)}
    (h : (entriesOf slots).length < slots.length) :
    ∃ (i : Nat) (s : Slot V), slots[i]? = some s ∧ s.state ≠ .filled := by
  induction slots with
  | nil => simp at h
  | cons s rest ih =>
      by_cases hs : s.state = .filled
      · have hlen : (entriesOf rest).length < rest.length := by
          obtain ⟨st, v⟩ := s
          simp only at hs
          subst hs
          rw [entriesOf_cons_filled] at h
          simpa using h
        obtain ⟨i, s', hi, hs'⟩ := ih hlen
        exact ⟨i + 1, s', by simpa using hi, hs'⟩
      · exact ⟨0, s, rfl, hs⟩

/-! ## Scanning a probe sequence -/

/-- A slot the scan for `k` walks over: it is neither empty nor filled with
an entry of that key. -/
def Passed (H : Hashing K) (key : V → K) (slots : List (Slot V)) (k : K)
    (j : Nat) : Prop :=
  ∃ s, slots[j]? = some s ∧ s.state ≠ .empty ∧
    (s.state = .filled → H.eq (key s.kv) k = false)

/-- The three ways a scan over existing slots can end. -/
inductive Scan (H : Hashing K) (key : V → K) (slots : List (Slot V)) (k : K)
    (L : List Nat) : Prop where
  | hit {pre i post v} (hL : L = pre ++ i :: post)
      (hpre : ∀ j ∈ pre, Passed H key slots k j)
      (hi : slots[i]? = some ⟨.filled, v⟩) (hk : H.eq (key v) k = true)
  | miss {pre i post v} (hL : L = pre ++ i :: post)
      (hpre : ∀ j ∈ pre, Passed H key slots k j)
      (hi : slots[i]? = some ⟨.empty, v⟩)
  | exhausted (hall : ∀ j ∈ L, Passed H key slots k j)

theorem Scan.cons {slots : List (Slot V)} {k : K} {i : Nat} {rest : List Nat}
    (hp : Passed H key slots k i) (h : Scan H key slots k rest) :
    Scan H key slots k (i :: rest) := by
  cases h with
  | hit hL hpre hi hk =>
      refine .hit (by rw [hL, ← List.cons_append]) (fun j hj => ?_) hi hk
      rcases List.mem_cons.mp hj with rfl | hj
      · exact hp
      · exact hpre j hj
  | miss hL hpre hi =>
      refine .miss (by rw [hL, ← List.cons_append]) (fun j hj => ?_) hi
      rcases List.mem_cons.mp hj with rfl | hj
      · exact hp
      · exact hpre j hj
  | exhausted hall =>
      refine .exhausted fun j hj => ?_
      rcases List.mem_cons.mp hj with rfl | hj
      · exact hp
      · exact hall j hj

theorem scan (slots : List (Slot V)) (k : K) (L : List Nat)
    (hL : ∀ i ∈ L, i < slots.length) : Scan H key slots k L := by
  induction L with
  | nil => exact .exhausted (by simp)
  | cons i rest ih =>
      have hi := hL i (by simp)
      have ih' := ih fun j hj => hL j (by simp [hj])
      rcases hs : slots[i] with ⟨st, v⟩
      have hget : slots[i]? = some ⟨st, v⟩ := by
        rw [List.getElem?_eq_getElem hi, hs]
      cases st with
      | empty => exact .miss (List.nil_append _).symm (by simp) hget
      | tombstone => exact ih'.cons ⟨_, hget, by simp, by simp⟩
      | filled =>
          cases he : H.eq (key v) k with
          | true => exact .hit (List.nil_append _).symm (by simp) hget he
          | false => exact ih'.cons ⟨_, hget, by simp, fun _ => he⟩

/-! ### `find_slot` -/

theorem findLoop_passed {slots : List (Slot V)} {k : K} {pre : List Nat}
    (hpre : ∀ j ∈ pre, Passed H key slots k j) (rest : List Nat) :
    findLoop H key slots k (pre ++ rest) = findLoop H key slots k rest := by
  induction pre with
  | nil => rfl
  | cons i pre ih =>
      obtain ⟨⟨st, v⟩, hs, hne, hk⟩ := hpre i (by simp)
      rw [List.cons_append, findLoop, hs,
        ← ih (fun j hj => hpre j (by simp [hj]))]
      cases st with
      | empty => exact absurd rfl hne
      | tombstone => rfl
      | filled => simp only [hk rfl, Bool.false_eq_true, if_false]

theorem findLoop_hit {slots : List (Slot V)} {k : K} {pre post : List Nat}
    {i : Nat} {v : V} (hpre : ∀ j ∈ pre, Passed H key slots k j)
    (hi : slots[i]? = some ⟨.filled, v⟩) (hk : H.eq (key v) k = true) :
    findLoop H key slots k (pre ++ i :: post) = i := by
  rw [findLoop_passed hpre, findLoop, hi]
  simp only [hk, if_true]

theorem findLoop_miss {slots : List (Slot V)} {k : K} {pre post : List Nat}
    {i : Nat} {v : V} (hpre : ∀ j ∈ pre, Passed H key slots k j)
    (hi : slots[i]? = some ⟨.empty, v⟩) :
    findLoop H key slots k (pre ++ i :: post) = npos := by
  rw [findLoop_passed hpre, findLoop, hi]

theorem findLoop_exhausted {slots : List (Slot V)} {k : K} {L : List Nat}
    (hL : ∀ j ∈ L, Passed H key slots k j) :
    findLoop H key slots k L = npos := by
  have h := findLoop_passed hL []
  rw [List.append_nil] at h
  rw [h, findLoop]

/-! ### `insert_slot` and `insert_or_assign` -/

/-- What `first_tombstone` is after a prefix the loop walked over. -/
def firstTombstone (slots : List (Slot V)) : List Nat → Nat → Nat
  | [], ft => ft
  | i :: rest, ft =>
      match slots[i]? with
      | some ⟨.tombstone, _⟩ => firstTombstone slots rest (if ft = npos then i else ft)
      | _ => firstTombstone slots rest ft

/-- A remembered tombstone is the one the loop came with or one it met. -/
theorem firstTombstone_cases (slots : List (Slot V)) (pre : List Nat) (ft : Nat) :
    firstTombstone slots pre ft = ft ∨
      (firstTombstone slots pre ft ∈ pre ∧
        ∃ v, slots[firstTombstone slots pre ft]? = some ⟨.tombstone, v⟩) := by
  induction pre generalizing ft with
  | nil => exact Or.inl rfl
  | cons i rest ih =>
      rw [firstTombstone]
      split
      · next v hs =>
          rcases ih (if ft = npos then i else ft) with h | ⟨hmem, hv⟩
          · rw [h]
            split
            · exact Or.inr ⟨by simp, v, hs⟩
            · exact Or.inl rfl
          · exact Or.inr ⟨by simp [hmem], hv⟩
      · rcases ih ft with h | ⟨hmem, hv⟩
        · exact Or.inl h
        · exact Or.inr ⟨by simp [hmem], hv⟩

variable {upd : V → V} {v : V}

theorem insertLoop_passed {slots : List (Slot V)} {pre : List Nat}
    (hpre : ∀ j ∈ pre, Passed H key slots (key v) j) (rest : List Nat) (ft : Nat) :
    insertLoop H key upd v slots (pre ++ rest) ft =
      insertLoop H key upd v slots rest (firstTombstone slots pre ft) := by
  induction pre generalizing ft with
  | nil => rfl
  | cons i pre ih =>
      obtain ⟨⟨st, w⟩, hs, hne, hk⟩ := hpre i (by simp)
      have ih' := ih (fun j hj => hpre j (by simp [hj]))
      rw [List.cons_append, insertLoop, firstTombstone, hs]
      cases st with
      | empty => exact absurd rfl hne
      | tombstone => exact ih' _
      | filled =>
          simp only [hk rfl, Bool.false_eq_true, if_false]
          exact ih' ft

theorem insertLoop_hit {slots : List (Slot V)} {pre post : List Nat} {i ft : Nat}
    {w : V} (hpre : ∀ j ∈ pre, Passed H key slots (key v) j)
    (hi : slots[i]? = some ⟨.filled, w⟩) (hk : H.eq (key w) (key v) = true) :
    insertLoop H key upd v slots (pre ++ i :: post) ft =
      (slots.set i ⟨.filled, upd w⟩, i, false) := by
  rw [insertLoop_passed hpre, insertLoop, hi]
  simp only [hk, if_true]

/-- Where the loop stores once it has met an empty slot. -/
def storeTarget (slots : List (Slot V)) (pre : List Nat) (i : Nat) : Nat :=
  if firstTombstone slots pre npos ≠ npos then firstTombstone slots pre npos else i

theorem insertLoop_miss {slots : List (Slot V)} {pre post : List Nat} {i : Nat}
    {w : V} (hpre : ∀ j ∈ pre, Passed H key slots (key v) j)
    (hi : slots[i]? = some ⟨.empty, w⟩) :
    insertLoop H key upd v slots (pre ++ i :: post) npos =
      (slots.set (storeTarget slots pre i) ⟨.filled, v⟩,
        storeTarget slots pre i, true) := by
  rw [insertLoop_passed hpre, insertLoop, hi, storeTarget]

theorem insertLoop_exhausted {slots : List (Slot V)} {L : List Nat} {ft : Nat}
    (hL : ∀ j ∈ L, Passed H key slots (key v) j) :
    insertLoop H key upd v slots L ft = (slots, npos, false) := by
  have h : insertLoop H key upd v slots (L ++ []) ft = _ :=
    insertLoop_passed hL [] ft
  rw [List.append_nil] at h
  rw [h, insertLoop]

/-- The target is the empty slot itself or a tombstone before it. -/
theorem storeTarget_cases {slots : List (Slot V)} (pre : List Nat) {i : Nat}
    {w : V} (hi : slots[i]? = some ⟨.empty, w⟩) :
    ∃ s, slots[storeTarget slots pre i]? = some s ∧ s.state ≠ .filled ∧
      (storeTarget slots pre i = i ∨ storeTarget slots pre i ∈ pre) := by
  rw [storeTarget]
  split
  · next hne =>
      rcases firstTombstone_cases slots pre npos with h | ⟨hmem, u, hu⟩
      · exact absurd h hne
      · exact ⟨_, hu, by simp, Or.inr hmem⟩
  · exact ⟨_, hi, by simp, Or.inl rfl⟩

end Ycetl.Ref.Table
