import Ycetl.Proofs.UnorderedUnique

/-!
# Inserting a key that is already there

`maybe_grow` runs before the key is looked up. It tests the load of a table
with one entry more, so a call that is about to find its key can still rehash
the whole table, at an occupancy below the 70% the comment on `max_load_pct`
names: five entries in eight slots are enough.

When no growth is due the call ends at the slot of its key and touches nothing
else. When growth is due the table has twice the slots afterwards, so no
reference into the old ones survives. `present_key_frame` puts the two
together: in every reachable state, the calls that may insert leave the table
as it was exactly when the growth test answers no.
-/

namespace Ycetl.Ref

open Ycetl.Lib

namespace Table

variable {K V : Type} {H : Hashing K} {key : V → K}

/-- The entry `v` after a call that updates the entry of key `k`. -/
def touched (H : Hashing K) (key : V → K) (upd : V → V) (k : K) (v : V) : V :=
  if H.eq (key v) k then upd v else v

/-- From `t` to `t'` no entry moved: the same buckets, the same slot for every
entry, the same keys and values up to the update of the entry of key `k`, and
every iterator stands where it stood. -/
structure Undisturbed (H : Hashing K) (key : V → K) (upd : V → V) (k : K)
    (t t' : Table V) : Prop where
  bucket_count : t'.cap = t.cap
  size_eq : t'.size = t.size
  entries_kept : ∀ (i : Nat) (v : V), t.slots[i]? = some ⟨.filled, v⟩ →
    t'.slots[i]? = some ⟨.filled, touched H key upd k v⟩
  no_others : ∀ (i : Nat) (v : V), t'.slots[i]? = some ⟨.filled, v⟩ →
    ∃ w, t.slots[i]? = some ⟨.filled, w⟩
  iterators : ∀ i, t'.iterAt i = t.iterAt i

theorem Present.cap_ne {t : Table V} {k : K} (h : Present H key t k) :
    t.cap ≠ 0 := by
  obtain ⟨v, hv, -⟩ := h
  have hpos := List.length_pos_of_mem hv
  have hle := entries_length_le_cap t
  omega

/-! ## Rewriting one entry -/

theorem filledAt_set {slots : List (Slot V)} {i : Nat} {w u : V}
    (hi : slots[i]? = some ⟨.filled, w⟩) :
    filledAt (slots.set i ⟨.filled, u⟩) = filledAt slots := by
  funext j
  rw [filledAt, filledAt]
  rcases Nat.decEq i j with hne | rfl
  · rw [List.getElem?_set_ne hne]
  · rw [List.getElem?_set_self (List.getElem?_eq_some_iff.mp hi).1, hi]

/-- Rewriting the one entry of key `k` disturbs no other. -/
theorem undisturbed_of_set {t : Table V} (h : Unique H key t) {upd : V → V}
    {k : K} {i : Nat} {w : V} (hi : t.slots[i]? = some ⟨.filled, w⟩)
    (hk : H.eq (key w) k = true) :
    Undisturbed H key upd k t ⟨t.slots.set i ⟨.filled, upd w⟩, t.size⟩ where
  bucket_count := List.length_set
  size_eq := rfl
  entries_kept := by
    intro j v hj
    have hlt := (List.getElem?_eq_some_iff.mp hi).1
    show (t.slots.set i ⟨.filled, upd w⟩)[j]? = _
    by_cases hij : i = j
    · subst hij
      rw [hi] at hj
      cases hj
      rw [List.getElem?_set_self hlt, touched, if_pos hk]
    · have hother : H.eq (key v) k ≠ true := by
        intro hv
        exact hij (h.distinct.slot_unique hi hj (H.eq_trans hk (H.eq_symm hv)))
      rw [List.getElem?_set_ne hij, hj, touched, if_neg hother]
  no_others := by
    intro j v hj
    have hfilled : filledAt t.slots j = true := by
      rw [← filledAt_set (u := upd w) hi, filledAt, hj]
      rfl
    rw [filledAt] at hfilled
    split at hfilled
    · next s hs =>
        obtain ⟨st, u⟩ := s
        have hst : st = .filled := by simpa using hfilled
        exact ⟨u, by rw [hs, hst]⟩
    · cases hfilled
  iterators := by
    intro j
    rw [iterAt, iterAt, filledAt_set hi]
    exact congrArg (nextMarked _ · j) List.length_set

/-! ## Growing, then probing for a key that is there -/

theorem length_insertLoop (upd : V → V) (v : V) (slots : List (Slot V))
    (L : List Nat) (ft : Nat) :
    (insertLoop H key upd v slots L ft).1.length = slots.length := by
  induction L generalizing ft with
  | nil => rfl
  | cons i rest ih =>
      rw [insertLoop]
      split
      · exact List.length_set
      · exact ih _
      · split
        · exact List.length_set
        · exact ih _
      · rfl

theorem insertProbe_cap {upd : V → V} {g t' : Table V} {v : V} {j : Nat}
    {ins : Bool} (hp : insertProbe H key upd g v = some (t', j, ins)) :
    t'.cap = g.cap := by
  rw [insertProbe] at hp
  split at hp
  · cases hp
  · cases hp
    exact length_insertLoop upd v g.slots _ _

section

variable [Inhabited V]

/-- With no growth due, the call ends at the slot of its key. -/
theorem probe_present {t : Table V} (h : Unique H key t) (upd : V → V) {v : V}
    (hpres : Present H key t (key v)) (hdue : t.growthDue = false) :
    maybeGrow H key t = some t ∧
      ∃ i w, t.slots[i]? = some ⟨.filled, w⟩ ∧ H.eq (key w) (key v) = true ∧
        insertProbe H key upd t v =
          some (⟨t.slots.set i ⟨.filled, upd w⟩, t.size⟩, i, false) := by
  have h0 := hpres.cap_ne
  refine ⟨by rw [maybeGrow, if_neg h0, hdue]; rfl, ?_⟩
  cases insertProbe_end h.inv h0 upd v with
  | found hi hk hr => exact ⟨_, _, hi, hk, hr⟩
  | stored _ _ habs _ _ _ => exact absurd habs hpres.not_absent
  | lost habs _ _ => exact absurd habs hpres.not_absent

/-- With growth due, the table has another number of buckets afterwards. -/
theorem grown_cap_ne {t g t' : Table V} (h : Unique H key t) {upd : V → V}
    {v : V} {j : Nat} {ins : Bool} (hpres : Present H key t (key v))
    (hdue : t.growthDue = true) (hg : maybeGrow H key t = some g)
    (hp : insertProbe H key upd g v = some (t', j, ins)) : t'.cap ≠ t.cap := by
  have h0 := hpres.cap_ne
  rw [insertProbe_cap hp]
  cases maybeGrow_cases hg with
  | first hz _ => exact absurd hz h0
  | doubled _ _ hre =>
      obtain ⟨-, -, hcap, -⟩ := rehash_spec h.inv hre
      rw [hcap]
      rcases wrap_double h.inv with hw | hw <;> omega
  | kept _ hkept _ =>
      rw [hdue] at hkept
      cases hkept

/-- The common body of the inserting calls, made with a key that is there. -/
theorem growInsert_present {t : Table V} (h : Unique H key t) (upd : V → V)
    {v : V} (hpres : Present H key t (key v)) :
    (∃ g t' j, maybeGrow H key t = some g ∧
        insertProbe H key upd g v = some (t', j, false) ∧
        Undisturbed H key upd (key v) t t') ↔ t.growthDue = false := by
  refine ⟨fun hex => ?_, fun hdue => ?_⟩
  · obtain ⟨g, t', j, hg, hp, hund⟩ := hex
    by_contra hdue
    rw [Bool.not_eq_false] at hdue
    exact grown_cap_ne h hpres hdue hg hp hund.bucket_count
  · obtain ⟨hg, i, w, hi, hk, hp⟩ := probe_present h upd hpres hdue
    exact ⟨t, _, i, hg, hp, undisturbed_of_set h hi hk⟩

/-- `insert` of a key that is there leaves the table as it was if and only if
no growth is due. -/
theorem insert_present {t : Table V} (h : Unique H key t) {v : V}
    (hpres : Present H key t (key v)) :
    (∃ t' i, insert H key t v = some (t', i, false) ∧ Undisturbed H key id (key v) t t') ↔
      t.growthDue = false := by
  rw [← growInsert_present h id hpres]
  refine ⟨fun hex => ?_, fun hex => ?_⟩
  · obtain ⟨t', i, hr, hund⟩ := hex
    obtain ⟨g, j, hg, hp, -⟩ := insert_eq_some.mp hr
    exact ⟨g, t', j, hg, hp, hund⟩
  · obtain ⟨g, t', j, hg, hp, hund⟩ := hex
    exact ⟨t', _, insert_eq_some.mpr ⟨g, j, hg, hp, rfl⟩, hund⟩

end

end Table

/-! ## The calls of `unordered_map` -/

namespace UnorderedMap

open Table

variable {K T : Type} [Inhabited K] [Inhabited T] {H : Hashing K}

/-- The call returns, reports that nothing was inserted where it reports at
all, and leaves the table as it was, except for the value that
`insert_or_assign` and the write through `operator[]` are asked to store. -/
def LeavesTable (H : Hashing K) (t : Table (K × T)) : Op K T → Prop
  | .insert v => ∃ t' i, insert H t v = some (t', i, false) ∧
      Undisturbed H Prod.fst id v.1 t t'
  | .insertOrAssign k x => ∃ t' i, insertOrAssign H t k x = some (t', i, false) ∧
      Undisturbed H Prod.fst (withValue x) k t t'
  | .index k => ∃ t' i x, index H t k = some (t', i, x) ∧
      Undisturbed H Prod.fst id k t t'
  | .indexAssign k x => ∃ t' i, indexAssign H t k x = some (t', i) ∧
      Undisturbed H Prod.fst (withValue x) k t t'
  | .erase _ | .find _ | .clear => True

/-- `m[k] = x` is `operator[]` and a write to the slot it names. -/
theorem indexAssign_eq_some {t t' : Table (K × T)} {k : K} {x : T} {i : Nat} :
    indexAssign H t k x = some (t', i) ↔ ∃ t₁ y, index H t k = some (t₁, i, y) ∧
      t' = ⟨t₁.slots.modify i fun s => ⟨s.state, withValue x s.kv⟩, t₁.size⟩ := by
  simp only [indexAssign, Option.bind_eq_bind, Option.bind_eq_some_iff,
    Option.pure_def, Option.some.injEq, Prod.exists, Prod.mk.injEq]
  refine ⟨fun hex => ?_, fun hex => ?_⟩
  · obtain ⟨t₁, j, y, hr, rfl, rfl⟩ := hex
    exact ⟨t₁, y, hr, rfl⟩
  · obtain ⟨t₁, y, hr, rfl⟩ := hex
    exact ⟨t₁, i, y, hr, rfl, rfl⟩

/-- `operator[]` on a key that is there, with no growth due. -/
theorem index_present {t : Table (K × T)} (h : Unique H Prod.fst t) {k : K}
    (hpres : Present H Prod.fst t k) (hdue : t.growthDue = false) :
    ∃ i w, t.slots[i]? = some ⟨.filled, w⟩ ∧ H.eq w.1 k = true ∧
      index H t k = some (⟨t.slots.set i ⟨.filled, w⟩, t.size⟩, i, w.2) := by
  obtain ⟨hg, i, w, hi, hk, hp⟩ :=
    probe_present h id (v := (k, default)) hpres hdue
  refine ⟨i, w, hi, hk, index_eq_some.mpr ⟨t, false, ⟨.filled, w⟩, hg, hp, ?_, rfl⟩⟩
  exact List.getElem?_set_self (List.getElem?_eq_some_iff.mp hi).1

/-- `operator[]` on a key that is there rehashes when growth is due. -/
theorem index_grown {t t' : Table (K × T)} (h : Unique H Prod.fst t) {k : K}
    {i : Nat} {x : T} (hpres : Present H Prod.fst t k) (hdue : t.growthDue = true)
    (hr : index H t k = some (t', i, x)) : t'.cap ≠ t.cap := by
  obtain ⟨g, ins, s, hg, hp, -, -⟩ := index_eq_some.mp hr
  exact grown_cap_ne h (v := (k, default)) hpres hdue hg hp

theorem leavesTable_iff {t : Table (K × T)} (h : Unique H Prod.fst t)
    {op : Op K T} {k : K} (hk : k ∈ insertedKey op)
    (hpres : Present H Prod.fst t k) :
    LeavesTable H t op ↔ t.growthDue = false := by
  cases op with
  | insert v =>
      cases hk
      exact insert_present h hpres
  | insertOrAssign k x =>
      cases hk
      rw [← growInsert_present h (withValue x) (v := (k, x)) hpres]
      refine ⟨fun hex => ?_, fun hex => ?_⟩
      · obtain ⟨t', i, hr, hund⟩ := hex
        obtain ⟨g, j, hg, hp, -⟩ := insertOrAssign_eq_some.mp hr
        exact ⟨g, t', j, hg, hp, hund⟩
      · obtain ⟨g, t', j, hg, hp, hund⟩ := hex
        exact ⟨t', _, insertOrAssign_eq_some.mpr ⟨g, j, hg, hp, rfl⟩, hund⟩
  | index k =>
      cases hk
      refine ⟨fun hex => ?_, fun hdue => ?_⟩
      · obtain ⟨t', i, x, hr, hund⟩ := hex
        by_contra hdue
        rw [Bool.not_eq_false] at hdue
        exact index_grown h hpres hdue hr hund.bucket_count
      · obtain ⟨i, w, hi, hw, hr⟩ := index_present h hpres hdue
        exact ⟨_, i, w.2, hr, undisturbed_of_set h hi hw⟩
  | indexAssign k x =>
      cases hk
      refine ⟨fun hex => ?_, fun hdue => ?_⟩
      · obtain ⟨t', i, hr, hund⟩ := hex
        obtain ⟨t₁, y, hidx, rfl⟩ := indexAssign_eq_some.mp hr
        by_contra hdue
        rw [Bool.not_eq_false] at hdue
        refine index_grown h hpres hdue hidx ?_
        rw [← hund.bucket_count]
        exact (List.length_modify ..).symm
      · obtain ⟨i, w, hi, hw, hr⟩ := index_present h hpres hdue
        have hlt := (List.getElem?_eq_some_iff.mp hi).1
        refine ⟨_, i, indexAssign_eq_some.mpr ⟨_, w.2, hr, rfl⟩, ?_⟩
        rw [modify_value (List.getElem?_set_self hlt), List.set_set]
        exact undisturbed_of_set h hi hw
  | erase | find | clear => cases hk

end UnorderedMap

/-! ## The calls of `unordered_set` -/

namespace UnorderedSet

open Table

variable {K : Type} [Inhabited K] {H : Hashing K}

def LeavesTable (H : Hashing K) (t : Table K) : Op K → Prop
  | .insert k => ∃ t' i, insert H t k = some (t', i, false) ∧
      Undisturbed H id id k t t'
  | .emplace k => ∃ t' i, emplace H t k = some (t', i, false) ∧
      Undisturbed H id id k t t'
  | .erase _ | .find _ | .clear => True

theorem leavesTable_iff {t : Table K} (h : Unique H id t) {op : Op K} {k : K}
    (hk : k ∈ insertedKey op) (hpres : Present H id t k) :
    LeavesTable H t op ↔ t.growthDue = false := by
  cases op with
  | insert | emplace =>
      cases hk
      exact insert_present h hpres
  | erase | find | clear => cases hk

end UnorderedSet

/-! ## Every reachable state -/

/-- In every reachable state of the two tables with unique keys, a call that
may insert, made with a key that is there, leaves the table undisturbed if and
only if the growth test answers no. -/
theorem present_key_frame {K T : Type} [Inhabited K] [Inhabited T]
    (H : Hashing K) :
    (∀ (ops : List (UnorderedMap.Op K T)) (t : Table (K × T)),
      runFrom (UnorderedMap.next H) Table.empty ops = some t →
      ∀ op, ∀ k ∈ UnorderedMap.insertedKey op, Table.Present H Prod.fst t k →
        (UnorderedMap.LeavesTable H t op ↔ t.growthDue = false)) ∧
      ∀ (ops : List (UnorderedSet.Op K)) (t : Table K),
        runFrom (UnorderedSet.next H) Table.empty ops = some t →
        ∀ op, ∀ k ∈ UnorderedSet.insertedKey op, Table.Present H id t k →
          (UnorderedSet.LeavesTable H t op ↔ t.growthDue = false) := by
  constructor
  · intro ops t hrun op k hk hpres
    exact UnorderedMap.leavesTable_iff (UnorderedMap.run_unique hrun) hk hpres
  · intro ops t hrun op k hk hpres
    exact UnorderedSet.leavesTable_iff (UnorderedSet.run_unique hrun) hk hpres

/-- With four keys in eight slots a key can be inserted again, in either
container. -/
theorem present_key_frame_four :
    UnorderedMap.LeavesTable natHashing
        ⟨(List.range 4).map (fun k => ⟨.filled, (k, k + 10)⟩) ++
          List.replicate 4 ⟨.empty, (0, 0)⟩, 4⟩ (.insertOrAssign 2 7) ∧
      UnorderedSet.LeavesTable natHashing
        ⟨(List.range 4).map (fun k => ⟨.filled, k⟩) ++
          List.replicate 4 ⟨.empty, 0⟩, 4⟩ (.emplace 2) :=
  ⟨((present_key_frame natHashing).1
      ((List.range 4).map fun k => .insert (k, k + 10)) _ (by decide) _ 2 rfl
      ⟨(2, 12), by decide, by decide⟩).mpr (by decide),
    ((present_key_frame (T := Nat) natHashing).2
      ((List.range 4).map .insert) _ (by decide) _ 2 rfl
      ⟨2, by decide, by decide⟩).mpr (by decide)⟩

/-- With five keys in eight slots, inserting one of them again moves the table
into sixteen. -/
theorem present_key_rehashes :
    ∃ t : Table (Nat × Nat),
      runFrom (UnorderedMap.next natHashing) Table.empty
          ((List.range 5).map fun k => .insert (k, k + 10)) = some t ∧
        Table.Present natHashing Prod.fst t 3 ∧ t.cap = 8 ∧
        (UnorderedMap.insert natHashing t (3, 0)).map (fun r => r.1.cap) = some 16 ∧
        ¬ UnorderedMap.LeavesTable natHashing t (.insert (3, 0)) := by
  have hrun : runFrom (UnorderedMap.next natHashing) Table.empty
      ((List.range 5).map fun k => .insert (k, k + 10)) =
        some ⟨(List.range 5).map (fun k => ⟨.filled, (k, k + 10)⟩) ++
          List.replicate 3 ⟨.empty, (0, 0)⟩, 5⟩ := by decide
  refine ⟨_, hrun, ⟨(3, 13), by decide, by decide⟩, by decide, by decide, ?_⟩
  intro hex
  obtain ⟨t', i, hr, hund⟩ := hex
  have hgrown : (UnorderedMap.insert natHashing
      ⟨(List.range 5).map (fun k => ⟨.filled, (k, k + 10)⟩) ++
        List.replicate 3 ⟨.empty, (0, 0)⟩, 5⟩ (3, 0)).map (fun r => r.1.cap) =
      some 16 := by decide
  rw [hr] at hgrown
  have hcap : t'.cap = 16 := Option.some.inj hgrown
  have hsame : t'.cap = 8 := hund.bucket_count
  omega

end Ycetl.Ref
