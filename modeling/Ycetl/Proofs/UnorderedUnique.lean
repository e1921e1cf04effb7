import Ycetl.Lib.Runs
import Ycetl.Proofs.HashTableLookup

/-!
# `unordered_map` and `unordered_set` are finite maps, as far as they store

In every reachable state the table represents a finite map exactly: keys are
distinct, the count is right, and a lookup finds a key wherever it was put.
Each call changes the set of live entries as the call of a finite map would.

The one call that can fall short is an insert of an absent key. The growth
test counts live entries, and tombstones take probe positions without being
counted, so a table can run out of empty slots while the test sees it nearly
empty. The probe loop then falls through and nothing is stored.
`insert_stores_iff_room` gives the exact boundary: the key is stored if and
only if the table had no storage yet, was about to be rehashed, or still had
an empty slot.
-/

namespace Ycetl.Ref

open Ycetl.Lib

namespace Table

variable {K V : Type} {H : Hashing K} {key : V → K}

/-- The keys of filled slots differ, the count counts them, and no probe path
to one of them passes an empty slot. -/
structure RepInv (H : Hashing K) (key : V → K) (t : Table V) : Prop where
  keys_differ : ∀ (i j : Nat) (v w : V), t.slots[i]? = some ⟨.filled, v⟩ →
    t.slots[j]? = some ⟨.filled, w⟩ → i ≠ j → H.eq (key v) (key w) = false
  size_eq : t.size = t.slots.countP fun s => s.state = .filled
  path_filled : Chain H key t.slots

/-- `find_slot` finds a key in the slot that holds it, and only there. -/
def LookupExact (H : Hashing K) (key : V → K) (t : Table V) : Prop :=
  ∀ k, (∀ i < t.cap, findSlot H key t k = i ↔
      ∃ v, t.slots[i]? = some ⟨.filled, v⟩ ∧ H.eq (key v) k = true) ∧
    (findSlot H key t k = npos ↔ Absent H key t.entries k)

/-- The invariant of the two tables with unique keys. -/
structure Unique (H : Hashing K) (key : V → K) (t : Table V) : Prop where
  inv : Inv H key t
  distinct : Distinct H key t.entries

theorem Unique.empty : Unique H key (Table.empty : Table V) :=
  ⟨Inv.empty, List.Pairwise.nil⟩

theorem length_entriesOf (slots : List (Slot V)) :
    (entriesOf slots).length = slots.countP fun s => s.state = .filled := by
  induction slots with
  | nil => rfl
  | cons s rest ih =>
      obtain ⟨st, v⟩ := s
      cases st with
      | filled =>
          rw [entriesOf_cons_filled, List.length_cons, ih,
            List.countP_cons_of_pos (by simp)]
      | empty | tombstone =>
          rw [entriesOf_cons_of_ne (by simp), ih, List.countP_cons_of_neg (by simp)]

theorem Unique.repInv {t : Table V} (h : Unique H key t) : RepInv H key t := by
  refine ⟨?_, ?_, h.inv.chain⟩
  · intro i j v w hi hj hne
    by_contra hcon
    exact hne (h.distinct.slot_unique hi hj (by simpa using hcon))
  · rw [h.inv.size_eq, entries, length_entriesOf]

theorem Unique.lookupExact {t : Table V} (h : Unique H key t) :
    LookupExact H key t := fun k =>
  ⟨fun _ hi => findSlot_eq h.inv h.distinct k hi, findSlot_eq_npos h.inv k⟩

/-- Some entry has the key. -/
def Present (H : Hashing K) (key : V → K) (t : Table V) (k : K) : Prop :=
  ∃ v ∈ t.entries, H.eq (key v) k = true

theorem Present.not_absent {t : Table V} {k : K} (h : Present H key t k) :
    ¬ Absent H key t.entries k := by
  intro habs
  obtain ⟨v, hv, hk⟩ := h
  rw [habs v hv] at hk
  cases hk

/-! ## Room for an absent key -/

/-- What an absent key needs: no storage yet, a rehash that is due (and can
double the table), or an empty slot. -/
def HasRoom (t : Table V) : Prop :=
  t.cap = 0 ∨ (t.growthDue = true ∧ t.cap * 2 < sizeMod) ∨
    (t.growthDue = false ∧ HasEmpty t.slots)

theorem hasEmpty_of_noTombstone {slots : List (Slot V)} (h : NoTombstone slots)
    (hlt : (entriesOf slots).length < slots.length) : HasEmpty slots := by
  obtain ⟨i, ⟨st, v⟩, hi, hne⟩ := exists_not_filled hlt
  cases st with
  | empty => exact ⟨i, v, hi⟩
  | filled => exact absurd rfl hne
  | tombstone => exact absurd rfl (h i _ hi)

/-- Room before `maybe_grow` is an empty slot after it. -/
theorem hasRoom_iff [Inhabited V] {t : Table V} (h : Inv H key t) :
    HasRoom t ↔ ∃ g, maybeGrow H key t = some g ∧ g.cap ≠ 0 ∧ HasEmpty g.slots := by
  have hle := entries_length_le_cap t
  refine ⟨fun hroom => ?_, fun hex => ?_⟩
  · rcases hroom with h0 | ⟨hdue, hlt⟩ | ⟨hdue, hempty⟩
    · refine ⟨_, if_pos h0, ?_, 0, default, rfl⟩
      rw [cap, length_freshSlots]
      decide
    · by_cases h0 : t.cap = 0
      · refine ⟨_, if_pos h0, ?_, 0, default, rfl⟩
        rw [cap, length_freshSlots]
        decide
      · have hw : wrap (t.cap * 2) = t.cap * 2 := Nat.mod_eq_of_lt hlt
        obtain ⟨g, hg⟩ : ∃ g, rehash H key (wrap (t.cap * 2)) t = some g :=
          ⟨_, if_neg fun hz => by rw [hw] at hz; omega⟩
        obtain ⟨-, hperm, hcap, hnt⟩ := rehash_spec h hg
        refine ⟨g, ?_, by omega, hasEmpty_of_noTombstone hnt ?_⟩
        · rw [maybeGrow, if_neg h0, if_pos hdue, hg]
        · have hlen := hperm.length_eq
          have hgcap : g.slots.length = g.cap := rfl
          rw [entries] at hlen
          omega
    · have h0 : t.cap ≠ 0 := by
        obtain ⟨i, v, hi⟩ := hempty
        have : i < t.cap := (List.getElem?_eq_some_iff.mp hi).1
        omega
      exact ⟨t, by rw [maybeGrow, if_neg h0, hdue]; rfl, h0, hempty⟩
  · obtain ⟨g, hg, hg0, hempty⟩ := hex
    cases maybeGrow_cases hg with
    | first h0 _ => exact Or.inl h0
    | doubled h0 hdue hre =>
        refine Or.inr (Or.inl ⟨hdue, ?_⟩)
        obtain ⟨-, -, hcap, -⟩ := rehash_spec h hre
        rcases wrap_double h with hw | hw
        · rw [← hw]
          exact Nat.mod_lt _ (by decide)
        · omega
    | kept h0 hdue heq => exact Or.inr (Or.inr ⟨hdue, heq ▸ hempty⟩)

/-! ## Growing, then probing -/

/-- What the common body of the inserting calls does to a table with unique
keys: it stores an absent key, updates the entry of a present one, or loses
an absent one for which there was no room. -/
inductive InsertEffect (H : Hashing K) (key : V → K) (upd : V → V)
    (t t' : Table V) (v : V) (i : Nat) (ins : Bool) : Prop where
  | stored (habs : Absent H key t.entries (key v)) (hins : ins = true)
      (hi : t'.slots[i]? = some ⟨.filled, v⟩)
      (hes : t'.entries.Perm (v :: t.entries))
  | updated {w} (hw : w ∈ t.entries) (hk : H.eq (key w) (key v) = true)
      (hins : ins = false) (hi : t'.slots[i]? = some ⟨.filled, upd w⟩)
      (hes : t'.entries.Perm (assign H key upd (key v) t.entries))
  | lost (habs : Absent H key t.entries (key v)) (hroom : ¬ HasRoom t)
      (hins : ins = false) (hi : i = npos) (hes : t'.entries.Perm t.entries)

theorem growInsert_effect [Inhabited V] {t g t' : Table V} (h : Unique H key t)
    (upd : V → V) (hupd : ∀ e, key (upd e) = key e) {v : V} {i : Nat} {ins : Bool}
    (hg : maybeGrow H key t = some g)
    (hp : insertProbe H key upd g v = some (t', i, ins)) :
    Unique H key t' ∧ InsertEffect H key upd t t' v i ins := by
  obtain ⟨hinv, hperm⟩ := maybeGrow_spec h.inv hg
  have hdist := h.distinct.perm hperm
  have h0 : g.cap ≠ 0 := by
    intro h0
    rw [insertProbe, if_pos h0] at hp
    cases hp
  cases insertProbe_end hinv h0 upd v with
  | found hi hk hr =>
      rw [hp, Option.some.injEq, Prod.mk.injEq, Prod.mk.injEq] at hr
      obtain ⟨rfl, rfl, rfl⟩ := hr
      have hes := updated_entries hdist upd hi hk
      refine ⟨⟨updated_spec hinv hi (by rw [hupd]; exact H.eq_refl _), ?_⟩, ?_⟩
      · rw [entries, hes]
        exact assign_distinct hdist upd hupd _
      · refine .updated (hperm.mem_iff.mp (mem_entriesOf.mpr ⟨_, hi⟩)) hk rfl ?_ ?_
        · rw [List.getElem?_set_self (List.getElem?_eq_some_iff.mp hi).1]
        · rw [entries, hes]
          exact hperm.map _
  | stored hi hs habs _ hpath hr =>
      rw [hp, Option.some.injEq, Prod.mk.injEq, Prod.mk.injEq] at hr
      obtain ⟨rfl, rfl, rfl⟩ := hr
      obtain ⟨hinv', hes⟩ := stored_spec hinv hi hs hpath
      refine ⟨⟨hinv', (hdist.cons habs).perm hes⟩, ?_⟩
      refine .stored (fun e he => habs e (hperm.mem_iff.mpr he)) rfl ?_
        (hes.trans (hperm.cons v))
      rw [List.getElem?_set_self (List.getElem?_eq_some_iff.mp hi).1]
  | lost habs hfull hr =>
      rw [hp, Option.some.injEq, Prod.mk.injEq, Prod.mk.injEq] at hr
      obtain ⟨rfl, rfl, rfl⟩ := hr
      have hroom : ¬ HasRoom t := by
        rw [hasRoom_iff h.inv]
        intro hex
        obtain ⟨g', hg', -, hempty⟩ := hex
        rw [hg, Option.some.injEq] at hg'
        exact hfull (hg' ▸ hempty)
      exact ⟨⟨hinv, hdist⟩,
        .lost (fun e he => habs e (hperm.mem_iff.mpr he)) hroom rfl rfl hperm⟩

/-- The entry sits in slot `i` after the call, the count went up by one, and
a lookup finds the key. -/
def StoredAt (H : Hashing K) (key : V → K) (t t' : Table V) (v : V) (i : Nat) :
    Prop :=
  t'.slots[i]? = some ⟨.filled, v⟩ ∧ t'.size = t.size + 1 ∧
    contains H key t' (key v) = true

theorem storedAt_of_slot {t t' : Table V} (h : Unique H key t') {v : V} {i : Nat}
    (hi : t'.slots[i]? = some ⟨.filled, v⟩) (hsize : t'.size = t.size + 1) :
    StoredAt H key t t' v i :=
  ⟨hi, hsize, (contains_iff h.inv _).mpr
    ⟨v, mem_entriesOf.mpr ⟨i, hi⟩, H.eq_refl _⟩⟩

/-- For an absent key there are two ends: stored, or lost. -/
theorem growInsert_absent [Inhabited V] {t g t' : Table V} (h : Unique H key t)
    (upd : V → V) (hupd : ∀ e, key (upd e) = key e) {v : V} {i : Nat} {ins : Bool}
    (habs : Absent H key t.entries (key v)) (hg : maybeGrow H key t = some g)
    (hp : insertProbe H key upd g v = some (t', i, ins)) :
    (ins = true ∧ StoredAt H key t t' v i ∧ i ≠ npos) ∨
      (ins = false ∧ t'.slots[i]? = none) := by
  obtain ⟨hu, heff⟩ := growInsert_effect h upd hupd hg hp
  cases heff with
  | stored _ hins hi hes =>
      refine Or.inl ⟨hins, storedAt_of_slot hu hi ?_, hu.inv.ne_npos hi⟩
      rw [hu.inv.size_eq, h.inv.size_eq, hes.length_eq, List.length_cons]
  | updated hw hk _ _ _ =>
      rw [habs _ hw] at hk
      cases hk
  | lost _ _ hins hi _ =>
      refine Or.inr ⟨hins, Option.eq_none_iff_forall_ne_some.mpr fun s hs => ?_⟩
      exact hu.inv.ne_npos hs hi

/-- The common body of the inserting calls stores an absent key if and only
if there is room for it. -/
theorem insert_stores_iff_room [Inhabited V] {t : Table V} (h : Unique H key t)
    (upd : V → V) {v : V} (habs : Absent H key t.entries (key v)) :
    (∃ g t' i, maybeGrow H key t = some g ∧
        insertProbe H key upd g v = some (t', i, true)) ↔ HasRoom t := by
  rw [hasRoom_iff h.inv]
  refine ⟨fun hex => ?_, fun hex => ?_⟩
  · obtain ⟨g, t', i, hg, hp⟩ := hex
    have h0 : g.cap ≠ 0 := by
      intro h0
      rw [insertProbe, if_pos h0] at hp
      cases hp
    refine ⟨g, hg, h0, ?_⟩
    cases insertProbe_end (maybeGrow_spec h.inv hg).1 h0 upd v with
    | stored _ _ _ hempty _ _ => exact hempty
    | found _ _ hr | lost _ _ hr =>
        rw [hr] at hp
        simp at hp
  · obtain ⟨g, hg, h0, hempty⟩ := hex
    obtain ⟨hinv, hperm⟩ := maybeGrow_spec h.inv hg
    cases insertProbe_end hinv h0 upd v with
    | found hi hk _ =>
        have := habs _ (hperm.mem_iff.mp (mem_entriesOf.mpr ⟨_, hi⟩))
        rw [hk] at this
        cases this
    | stored _ _ _ _ _ hr => exact ⟨g, _, _, hg, hr⟩
    | lost _ hfull _ => exact absurd hempty hfull

theorem insert_eq_some [Inhabited V] {t t' : Table V} {v : V} {i : Nat}
    {ins : Bool} :
    insert H key t v = some (t', i, ins) ↔ ∃ g j, maybeGrow H key t = some g ∧
      insertProbe H key id g v = some (t', j, ins) ∧ i = t'.iterAt j := by
  simp only [insert, insertSlot, Option.bind_eq_bind, Option.bind_eq_some_iff,
    Option.pure_def, Option.some.injEq, Prod.exists, Prod.mk.injEq]
  refine ⟨fun hex => ?_, fun hex => ?_⟩
  · obtain ⟨g, hg, t₁, j, b, hp, rfl, rfl, rfl⟩ := hex
    exact ⟨g, j, hg, hp, rfl⟩
  · obtain ⟨g, j, hg, hp, rfl⟩ := hex
    exact ⟨g, hg, t', j, ins, hp, rfl, rfl, rfl⟩

/-- `insert` stores an absent key if and only if there is room for it. -/
theorem insert_iff_room [Inhabited V] {t : Table V} (h : Unique H key t) {v : V}
    (habs : Absent H key t.entries (key v)) :
    (∃ t' i, insert H key t v = some (t', i, true) ∧ StoredAt H key t t' v i) ↔ HasRoom t := by
  rw [← insert_stores_iff_room h id habs]
  refine ⟨fun hex => ?_, fun hex => ?_⟩
  · obtain ⟨t', i, hr, -⟩ := hex
    obtain ⟨g, j, hg, hp, -⟩ := insert_eq_some.mp hr
    exact ⟨g, t', j, hg, hp⟩
  · obtain ⟨g, t', i, hg, hp⟩ := hex
    rcases growInsert_absent h id (fun _ => rfl) habs hg hp with ⟨-, hst, -⟩ | ⟨hins, -⟩
    · exact ⟨t', i, insert_eq_some.mpr ⟨g, i, hg, hp, (iterAt_filled hst.1).symm⟩, hst⟩
    · cases hins

/-! ## The calls of both tables -/

/-- The common calls of the tables with unique keys. -/
inductive UniqueOp (V K : Type) where
  | insert (v : V)
  | erase (k : K)
  | find (k : K)
  | clear

def uniqueStep [Inhabited V] (H : Hashing K) (key : V → K) (t : Table V) {T : Type} :
    UniqueOp V K → Option (Table V × TableOut T)
  | .insert v => (insert H key t v).map fun r => (r.1, .iter r.2.1 r.2.2)
  | .erase k => some ((erase H key t k).1, .erased (erase H key t k).2)
  | .find k => some (t, .found (find H key t k))
  | .clear => some (t.clear, .done)

/-- What a call does to the live entries, read as a finite map. An `insert`
that reports nothing new found its key, or there was no room for it. -/
def UniqueEffect (H : Hashing K) (key : V → K) (t : Table V) {T : Type} :
    UniqueOp V K → TableOut T → List V → Prop
  | .insert v, .iter _ ins, es' =>
      if ins then Absent H key t.entries (key v) ∧ es'.Perm (v :: t.entries)
      else (Present H key t (key v) ∨ ¬ HasRoom t) ∧ es'.Perm t.entries
  | .erase k, .erased n, es' =>
      es' = remove H key k t.entries ∧ n = t.entries.countP fun e => H.eq (key e) k
  | .find _, .found _, es' => es' = t.entries
  | .clear, .done, es' => es' = []
  | _, _, _ => False

theorem InsertEffect.unstored {upd : V → V} {t t' : Table V} {v : V} {i : Nat}
    (h : InsertEffect H key upd t t' v i false) :
    (Present H key t (key v) ∨ ¬ HasRoom t) ∧
      t'.entries.Perm (assign H key upd (key v) t.entries) := by
  cases h with
  | stored _ hins _ _ => cases hins
  | updated hw hk _ _ hes => exact ⟨Or.inl ⟨_, hw, hk⟩, hes⟩
  | lost habs hroom _ _ hes =>
      rw [assign_absent habs]
      exact ⟨Or.inr hroom, hes⟩

theorem InsertEffect.of_stored {upd : V → V} {t t' : Table V} {v : V} {i : Nat}
    (h : InsertEffect H key upd t t' v i true) :
    Absent H key t.entries (key v) ∧ t'.entries.Perm (v :: t.entries) := by
  cases h with
  | stored habs _ _ hes => exact ⟨habs, hes⟩
  | updated _ _ hins _ _ | lost _ _ hins _ _ => cases hins

theorem assign_id (k : K) (es : List V) : assign H key id k es = es := by
  simp [assign]

/-- Such a call keeps the invariant and does to the entries what the call of a
finite map does. -/
theorem uniqueStep_spec [Inhabited V] {T : Type} {t t' : Table V} (h : Unique H key t)
    (op : UniqueOp V K) {out : TableOut T} (hs : uniqueStep H key t op = some (t', out)) :
    Unique H key t' ∧ UniqueEffect H key t op out t'.entries := by
  cases op with
  | insert v =>
      obtain ⟨⟨t₁, i, ins⟩, hr, heq⟩ := Option.map_eq_some_iff.mp hs
      cases heq
      obtain ⟨g, j, hg, hp, -⟩ := insert_eq_some.mp hr
      obtain ⟨hu, heff⟩ := growInsert_effect h id (fun _ => rfl) hg hp
      refine ⟨hu, ?_⟩
      cases ins with
      | true => exact heff.of_stored
      | false =>
          have hun := heff.unstored
          rwa [assign_id] at hun
  | erase k =>
      rw [uniqueStep, Option.some.injEq, Prod.mk.injEq] at hs
      obtain ⟨rfl, rfl⟩ := hs
      obtain ⟨hinv, hes, hn⟩ := erase_spec h.inv h.distinct k
      refine ⟨⟨hinv, ?_⟩, hes, hn⟩
      rw [hes]
      exact h.distinct.filter _
  | find k =>
      rw [uniqueStep, Option.some.injEq, Prod.mk.injEq] at hs
      obtain ⟨rfl, rfl⟩ := hs
      exact ⟨h, rfl⟩
  | clear =>
      rw [uniqueStep, Option.some.injEq, Prod.mk.injEq] at hs
      obtain ⟨rfl, rfl⟩ := hs
      refine ⟨⟨clear_spec h.inv, ?_⟩, entries_clear t⟩
      rw [entries_clear]
      exact List.Pairwise.nil

end Table

/-! ## `unordered_map` -/

namespace UnorderedMap

open Table

variable {K T : Type} [Inhabited K] [Inhabited T] {H : Hashing K}

/-- The table after a call. -/
def next (H : Hashing K) (t : Table (K × T)) (op : Op K T) :
    Option (Table (K × T)) := (step H t op).map Prod.fst

/-- The key an inserting call is made with. -/
def insertedKey : Op K T → Option K
  | .insert v => some v.1
  | .insertOrAssign k _ | .index k | .indexAssign k _ => some k
  | .erase _ | .find _ | .clear => none

/-- What a call does to the live entries, read as a finite map. -/
def Effect (H : Hashing K) (t : Table (K × T)) :
    Op K T → TableOut T → List (K × T) → Prop
  | .insert v, out, es' => UniqueEffect H Prod.fst t (.insert v) out es'
  | .insertOrAssign k x, .iter _ ins, es' =>
      if ins then Absent H Prod.fst t.entries k ∧ es'.Perm ((k, x) :: t.entries)
      else (Present H Prod.fst t k ∨ ¬ HasRoom t) ∧
        es'.Perm (assign H Prod.fst (withValue x) k t.entries)
  | .index k, .ref _ x, es' =>
      (∃ e ∈ t.entries, H.eq e.1 k = true ∧ x = e.2 ∧ es'.Perm t.entries) ∨
        (Absent H Prod.fst t.entries k ∧ x = default ∧ es'.Perm ((k, default) :: t.entries))
  | .indexAssign k x, .ref _ _, es' =>
      (Present H Prod.fst t k ∧ es'.Perm (assign H Prod.fst (withValue x) k t.entries)) ∨
        (Absent H Prod.fst t.entries k ∧ es'.Perm ((k, x) :: t.entries))
  | .erase k, out, es' => UniqueEffect H Prod.fst t (.erase k) out es'
  | .find k, out, es' => UniqueEffect H Prod.fst t (.find k) out es'
  | .clear, out, es' => UniqueEffect H Prod.fst t .clear out es'
  | _, _, _ => False

/-- An inserting call stores its key: it reports so, and the entry is in the
slot the returned iterator or reference names. -/
def Stores (H : Hashing K) (t : Table (K × T)) : Op K T → Prop
  | .insert v => ∃ t' i, insert H t v = some (t', i, true) ∧
      StoredAt H Prod.fst t t' v i
  | .insertOrAssign k x => ∃ t' i, insertOrAssign H t k x = some (t', i, true) ∧
      StoredAt H Prod.fst t t' (k, x) i
  | .index k => ∃ t' i, index H t k = some (t', i, default) ∧
      StoredAt H Prod.fst t t' (k, default) i
  | .indexAssign k x => ∃ t' i, indexAssign H t k x = some (t', i) ∧
      StoredAt H Prod.fst t t' (k, x) i
  | .erase _ | .find _ | .clear => True

theorem insertOrAssign_eq_some {t t' : Table (K × T)} {k : K} {x : T} {i : Nat}
    {ins : Bool} :
    insertOrAssign H t k x = some (t', i, ins) ↔
      ∃ g j, maybeGrow H Prod.fst t = some g ∧
        insertProbe H Prod.fst (withValue x) g (k, x) = some (t', j, ins) ∧
        i = if j = npos then t'.endIter else t'.iterAt j := by
  simp only [insertOrAssign, Option.bind_eq_bind, Option.bind_eq_some_iff,
    Option.pure_def, Option.some.injEq, Prod.exists, Prod.mk.injEq]
  refine ⟨fun hex => ?_, fun hex => ?_⟩
  · obtain ⟨g, hg, t₁, j, b, hp, rfl, rfl, rfl⟩ := hex
    exact ⟨g, j, hg, hp, rfl⟩
  · obtain ⟨g, j, hg, hp, rfl⟩ := hex
    exact ⟨g, hg, t', j, ins, hp, rfl, rfl, rfl⟩

theorem index_eq_some {t t' : Table (K × T)} {k : K} {x : T} {i : Nat} :
    index H t k = some (t', i, x) ↔
      ∃ g ins s, maybeGrow H Prod.fst t = some g ∧
        insertProbe H Prod.fst id g (k, default) = some (t', i, ins) ∧
        t'.slots[i]? = some s ∧ x = s.kv.2 := by
  simp only [index, insertSlot, Option.bind_eq_bind, Option.bind_eq_some_iff,
    Option.pure_def, Option.some.injEq, Prod.exists, Prod.mk.injEq]
  refine ⟨fun hex => ?_, fun hex => ?_⟩
  · obtain ⟨g, hg, t₁, j, b, hp, s, hs, rfl, rfl, rfl⟩ := hex
    exact ⟨g, b, s, hg, hp, hs, rfl⟩
  · obtain ⟨g, b, s, hg, hp, hs, rfl⟩ := hex
    exact ⟨g, hg, t', i, b, hp, s, hs, rfl, rfl, rfl⟩

/-- `operator[]` with a result found its key or stored it. -/
theorem index_spec {t t' : Table (K × T)} (h : Unique H Prod.fst t) {k : K}
    {x : T} {i : Nat} (hr : index H t k = some (t', i, x)) :
    Unique H Prod.fst t' ∧
      ((∃ e ∈ t.entries, H.eq e.1 k = true ∧ x = e.2 ∧
          t'.entries.Perm t.entries ∧ t'.slots[i]? = some ⟨.filled, e⟩) ∨
        (Absent H Prod.fst t.entries k ∧ x = default ∧
          t'.entries.Perm ((k, default) :: t.entries) ∧
          t'.slots[i]? = some ⟨.filled, (k, default)⟩)) := by
  obtain ⟨g, ins, s, hg, hp, hs, rfl⟩ := index_eq_some.mp hr
  obtain ⟨hu, heff⟩ := growInsert_effect h id (fun _ => rfl) hg hp
  refine ⟨hu, ?_⟩
  cases heff with
  | stored habs _ hi hes =>
      rw [hi, Option.some.injEq] at hs
      subst hs
      exact Or.inr ⟨habs, rfl, hes, hi⟩
  | @updated w hw hk _ hi hes =>
      rw [hi, Option.some.injEq] at hs
      subst hs
      refine Or.inl ⟨w, hw, hk, rfl, ?_, hi⟩
      have hid : assign H Prod.fst id k t.entries = t.entries := by
        simp [assign]
      rw [← hid]
      exact hes
  | lost _ _ _ hi _ => exact absurd hi (hu.inv.ne_npos hs)

omit [Inhabited K] [Inhabited T] in
theorem modify_value {t : Table (K × T)} {i : Nat} {e : K × T} {x : T}
    (hi : t.slots[i]? = some ⟨.filled, e⟩) :
    t.slots.modify i (fun s => ⟨s.state, withValue x s.kv⟩) =
      t.slots.set i ⟨.filled, withValue x e⟩ := by
  rw [List.modify_eq_set_getElem?, hi]
  rfl

omit [Inhabited K] [Inhabited T] in
/-- The write through the reference `operator[]` returned. -/
theorem assignAt_spec {t : Table (K × T)} (h : Unique H Prod.fst t) {k : K}
    {i : Nat} {e : K × T} {x : T} (hi : t.slots[i]? = some ⟨.filled, e⟩)
    (hk : H.eq e.1 k = true) :
    Unique H Prod.fst ⟨t.slots.set i ⟨.filled, withValue x e⟩, t.size⟩ ∧
      entriesOf (t.slots.set i ⟨.filled, withValue x e⟩) =
        assign H Prod.fst (withValue x) k t.entries := by
  have hes := updated_entries h.distinct (withValue x) hi hk
  refine ⟨⟨updated_spec h.inv hi (H.eq_refl _), ?_⟩, hes⟩
  rw [entries, hes]
  exact assign_distinct h.distinct (withValue x) (fun _ => rfl) k

/-- One call keeps the invariant and does to the entries what the call of a
finite map does. -/
theorem step_spec {t t' : Table (K × T)} (h : Unique H Prod.fst t) {op : Op K T}
    {out : TableOut T} (hs : step H t op = some (t', out)) :
    Unique H Prod.fst t' ∧ Effect H t op out t'.entries := by
  cases op with
  | insert v => exact uniqueStep_spec h (.insert v) hs
  | insertOrAssign k x =>
      obtain ⟨⟨t₁, i, ins⟩, hr, heq⟩ := Option.map_eq_some_iff.mp hs
      cases heq
      obtain ⟨g, j, hg, hp, -⟩ := insertOrAssign_eq_some.mp hr
      obtain ⟨hu, heff⟩ := growInsert_effect h (withValue x) (fun _ => rfl) hg hp
      refine ⟨hu, ?_⟩
      cases ins with
      | true => exact heff.of_stored
      | false => exact heff.unstored
  | index k =>
      obtain ⟨⟨t₁, i, x⟩, hr, heq⟩ := Option.map_eq_some_iff.mp hs
      cases heq
      obtain ⟨hu, hcase⟩ := index_spec h hr
      refine ⟨hu, ?_⟩
      rcases hcase with ⟨e, he, hk, hx, hes, -⟩ | ⟨habs, hx, hes, -⟩
      · exact Or.inl ⟨e, he, hk, hx, hes⟩
      · exact Or.inr ⟨habs, hx, hes⟩
  | indexAssign k x =>
      simp only [step, indexAssign, Option.bind_eq_bind, Option.map_eq_some_iff,
        Option.bind_eq_some_iff, Option.pure_def, Option.some.injEq] at hs
      obtain ⟨_, ⟨⟨t₁, i, y⟩, hr, rfl⟩, heq⟩ := hs
      cases heq
      obtain ⟨hu, hcase⟩ := index_spec h hr
      rcases hcase with ⟨e, he, hk, -, hes, hi⟩ | ⟨habs, -, hes, hi⟩
      · rw [modify_value hi]
        obtain ⟨hu', hes'⟩ := assignAt_spec (x := x) hu hi hk
        refine ⟨hu', Or.inl ⟨⟨e, he, hk⟩, ?_⟩⟩
        rw [entries, hes']
        exact hes.map _
      · rw [modify_value hi]
        obtain ⟨hu', hes'⟩ := assignAt_spec (x := x) hu hi (H.eq_refl k)
        refine ⟨hu', Or.inr ⟨habs, ?_⟩⟩
        rw [entries, hes']
        have hrest : assign H Prod.fst (withValue x) k t.entries = t.entries :=
          assign_absent habs
        have hcons : assign H Prod.fst (withValue x) k
            ((k, default) :: t.entries) = (k, x) :: t.entries := by
          conv_rhs => rw [← hrest]
          rw [assign, List.map_cons, if_pos (H.eq_refl k)]
          rfl
        rw [← hcons]
        exact hes.map _
  | erase k => exact uniqueStep_spec h (.erase k) hs
  | find k => exact uniqueStep_spec h (.find k) hs
  | clear => exact uniqueStep_spec h .clear hs

theorem next_unique {t t' : Table (K × T)} (h : Unique H Prod.fst t)
    {op : Op K T} (hn : next H t op = some t') : Unique H Prod.fst t' := by
  obtain ⟨⟨t₁, out⟩, hs, rfl⟩ := Option.map_eq_some_iff.mp hn
  exact (step_spec h hs).1

/-- A run from the empty map keeps the table's invariant. -/
theorem run_unique {t : Table (K × T)} {ops : List (Op K T)}
    (h : runFrom (next H) Table.empty ops = some t) : Unique H Prod.fst t :=
  runFrom_inv (fun _ _ _ hu hn => next_unique hu hn) Unique.empty h

/-- `operator[]` on an absent key has a result exactly when the insert inside
it stored. -/
theorem index_absent {t t' : Table (K × T)} (h : Unique H Prod.fst t) {k : K}
    (habs : Absent H Prod.fst t.entries k) {i : Nat} {x : T} :
    index H t k = some (t', i, x) ↔ x = default ∧
      ∃ g, maybeGrow H Prod.fst t = some g ∧
        insertProbe H Prod.fst id g (k, default) = some (t', i, true) := by
  rw [index_eq_some]
  refine ⟨fun hex => ?_, fun hex => ?_⟩
  · obtain ⟨g, ins, s, hg, hp, hs, rfl⟩ := hex
    rcases growInsert_absent h id (fun _ => rfl) habs hg hp with
      ⟨rfl, ⟨hi, -⟩, -⟩ | ⟨-, hi⟩
    · rw [hi, Option.some.injEq] at hs
      exact ⟨by rw [← hs], g, hg, hp⟩
    · rw [hi] at hs
      cases hs
  · obtain ⟨rfl, g, hg, hp⟩ := hex
    rcases growInsert_absent h id (fun _ => rfl) habs hg hp with
      ⟨-, ⟨hi, -⟩, -⟩ | ⟨hins, -⟩
    · exact ⟨g, true, _, hg, hp, hi, rfl⟩
    · cases hins

/-- An inserting call on an absent key stores it if and only if there is room
for it. -/
theorem stores_iff_room {t : Table (K × T)} (h : Unique H Prod.fst t)
    {op : Op K T} {k : K} (hk : k ∈ insertedKey op)
    (habs : Absent H Prod.fst t.entries k) : Stores H t op ↔ HasRoom t := by
  -- The stored entry, whichever body stored it.
  have hstored : ∀ (upd : K × T → K × T) {g t' : Table (K × T)} {v : K × T} {i : Nat},
      (∀ e, (upd e).1 = e.1) → v.1 = k → maybeGrow H Prod.fst t = some g →
      insertProbe H Prod.fst upd g v = some (t', i, true) →
      StoredAt H Prod.fst t t' v i ∧ i ≠ npos := by
    intro upd g t' v i hupd hv hg hp
    rcases growInsert_absent h upd hupd (hv ▸ habs) hg hp with hst | ⟨hins, -⟩
    · exact hst.2
    · cases hins
  cases op with
  | insert v =>
      cases hk
      exact insert_iff_room h habs
  | insertOrAssign k' x =>
      cases hk
      rw [← insert_stores_iff_room h (withValue x) (v := (k, x)) habs]
      refine ⟨fun hex => ?_, fun hex => ?_⟩
      · obtain ⟨t', i, hr, -⟩ := hex
        obtain ⟨g, j, hg, hp, -⟩ := insertOrAssign_eq_some.mp hr
        exact ⟨g, t', j, hg, hp⟩
      · obtain ⟨g, t', i, hg, hp⟩ := hex
        obtain ⟨hst, hn⟩ := hstored (withValue x) (fun _ => rfl) rfl hg hp
        refine ⟨t', i, insertOrAssign_eq_some.mpr ⟨g, i, hg, hp, ?_⟩, hst⟩
        rw [if_neg hn, iterAt_filled hst.1]
  | index k' =>
      cases hk
      rw [← insert_stores_iff_room h id (v := (k, default)) habs]
      refine ⟨fun hex => ?_, fun hex => ?_⟩
      · obtain ⟨t', i, hr, -⟩ := hex
        obtain ⟨-, g, hg, hp⟩ := (index_absent h habs).mp hr
        exact ⟨g, t', i, hg, hp⟩
      · obtain ⟨g, t', i, hg, hp⟩ := hex
        exact ⟨t', i, (index_absent h habs).mpr ⟨rfl, g, hg, hp⟩,
          (hstored id (fun _ => rfl) rfl hg hp).1⟩
  | indexAssign k' x =>
      cases hk
      rw [← insert_stores_iff_room h id (v := (k, default)) habs]
      refine ⟨fun hex => ?_, fun hex => ?_⟩
      · obtain ⟨t', i, hr, -⟩ := hex
        rw [indexAssign, Option.bind_eq_bind, Option.bind_eq_some_iff] at hr
        obtain ⟨⟨t₁, j, y⟩, hr, -⟩ := hr
        obtain ⟨-, g, hg, hp⟩ := (index_absent h habs).mp hr
        exact ⟨g, t₁, j, hg, hp⟩
      · obtain ⟨g, t', i, hg, hp⟩ := hex
        obtain ⟨⟨hi, hsize, -⟩, -⟩ := hstored id (fun _ => rfl) rfl hg hp
        obtain ⟨hu, -⟩ := growInsert_effect h id (fun _ => rfl) hg hp
        obtain ⟨hu', -⟩ := assignAt_spec (x := x) hu hi (H.eq_refl k)
        have hr := (index_absent h habs).mpr ⟨rfl, g, hg, hp⟩
        refine ⟨⟨t'.slots.set i ⟨.filled, (k, x)⟩, t'.size⟩, i, ?_,
          storedAt_of_slot hu' ?_ hsize⟩
        · rw [indexAssign, hr]
          simp only [Option.bind_eq_bind, Option.bind_some, modify_value hi]
          rfl
        · rw [List.getElem?_set_self (List.getElem?_eq_some_iff.mp hi).1]
          rfl
  | erase | find | clear => cases hk

end UnorderedMap

/-! ## `unordered_set` -/

namespace UnorderedSet

open Table

variable {K : Type} [Inhabited K] {H : Hashing K}

/-- The table after a call. -/
def next (H : Hashing K) (t : Table K) (op : Op K) : Option (Table K) :=
  (step H t op).map Prod.fst

def insertedKey : Op K → Option K
  | .insert k | .emplace k => some k
  | .erase _ | .find _ | .clear => none

/-- The set has no call of its own: `emplace` is an `insert`. -/
def Op.shared : Op K → UniqueOp K K
  | .insert k | .emplace k => .insert k
  | .erase k => .erase k
  | .find k => .find k
  | .clear => .clear

theorem step_eq (t : Table K) (op : Op K) : step H t op = uniqueStep H id t op.shared := by
  cases op <;> rfl

/-- What a call does to the live keys, read as a finite set. -/
def Effect (H : Hashing K) (t : Table K) (op : Op K) (out : TableOut Unit) (es' : List K) : Prop :=
  UniqueEffect H id t op.shared out es'

def Stores (H : Hashing K) (t : Table K) : Op K → Prop
  | .insert k => ∃ t' i, insert H t k = some (t', i, true) ∧ StoredAt H id t t' k i
  | .emplace k => ∃ t' i, emplace H t k = some (t', i, true) ∧ StoredAt H id t t' k i
  | .erase _ | .find _ | .clear => True

theorem step_spec {t t' : Table K} (h : Unique H id t) {op : Op K}
    {out : TableOut Unit} (hs : step H t op = some (t', out)) :
    Unique H id t' ∧ Effect H t op out t'.entries :=
  uniqueStep_spec h op.shared (by rwa [step_eq] at hs)

theorem next_unique {t t' : Table K} (h : Unique H id t) {op : Op K}
    (hn : next H t op = some t') : Unique H id t' := by
  obtain ⟨⟨t₁, out⟩, hs, rfl⟩ := Option.map_eq_some_iff.mp hn
  exact (step_spec h hs).1

theorem run_unique {t : Table K} {ops : List (Op K)}
    (h : runFrom (next H) Table.empty ops = some t) : Unique H id t :=
  runFrom_inv (fun _ _ _ hu hn => next_unique hu hn) Unique.empty h

theorem stores_iff_room {t : Table K} (h : Unique H id t) {op : Op K} {k : K}
    (hk : k ∈ insertedKey op) (habs : Absent H id t.entries k) :
    Stores H t op ↔ HasRoom t := by
  cases op with
  | insert | emplace =>
      cases hk
      exact insert_iff_room h habs
  | erase | find | clear => cases hk

end UnorderedSet

/-! ## Whole runs -/

/-- In a run of either container every inserting call on an absent key stores
it, if and only if every such call is made on a table with room. -/
theorem unordered_inserts_stored_iff_room {K T : Type} [Inhabited K]
    [Inhabited T] (H : Hashing K) :
    (∀ ops : List (UnorderedMap.Op K T),
      Along (UnorderedMap.next H) (fun t op => ∀ k ∈ UnorderedMap.insertedKey op,
          Table.Absent H Prod.fst t.entries k → UnorderedMap.Stores H t op)
        Table.empty ops ↔
      Along (UnorderedMap.next H) (fun t op => ∀ k ∈ UnorderedMap.insertedKey op,
          Table.Absent H Prod.fst t.entries k → t.HasRoom)
        Table.empty ops) ∧
      ∀ ops : List (UnorderedSet.Op K),
        Along (UnorderedSet.next H) (fun t op => ∀ k ∈ UnorderedSet.insertedKey op,
            Table.Absent H id t.entries k → UnorderedSet.Stores H t op)
          Table.empty ops ↔
        Along (UnorderedSet.next H) (fun t op => ∀ k ∈ UnorderedSet.insertedKey op,
            Table.Absent H id t.entries k → t.HasRoom)
          Table.empty ops := by
  constructor
  · refine along_iff (Table.Unique H Prod.fst) (fun t op hu => ?_)
      (fun t op t' hu _ hn => UnorderedMap.next_unique hu hn) Table.Unique.empty
    exact forall₂_congr fun k hk => imp_congr_right fun habs =>
      UnorderedMap.stores_iff_room hu hk habs
  · refine along_iff (Table.Unique H id) (fun t op hu => ?_)
      (fun t op t' hu _ hn => UnorderedSet.next_unique hu hn) Table.Unique.empty
    exact forall₂_congr fun k hk => imp_congr_right fun habs =>
      UnorderedSet.stores_iff_room hu hk habs

/-- Keys stored and erased one after the other until every slot of the first
table is a tombstone. -/
def churn : List (UnorderedMap.Op Nat Nat) :=
  (List.range 8).flatMap fun k => [.insert (k, 0), .erase k]

/-- After the churn the map is empty, and key 8 cannot be stored in it. -/
theorem unordered_map_loses_insert :
    ¬ Along (UnorderedMap.next natHashing)
        (fun t op => ∀ k ∈ UnorderedMap.insertedKey op,
          Table.Absent natHashing Prod.fst t.entries k →
            UnorderedMap.Stores natHashing t op)
        Table.empty (churn ++ [.insert (8, 0)]) := by
  intro h
  have hrun : runFrom (UnorderedMap.next natHashing) Table.empty churn =
      some ⟨(List.range 8).map fun k => ⟨.tombstone, (k, 0)⟩, 0⟩ := by decide
  have hlost := along_at h hrun 8 rfl (by intro v hv; cases hv)
  obtain ⟨t', i, hr, -⟩ := hlost
  have hnot : (UnorderedMap.insert natHashing
      ⟨(List.range 8).map fun k => ⟨.tombstone, (k, 0)⟩, 0⟩ (8, 0)).map
        (fun r => r.2.2) = some false := by decide
  rw [hr] at hnot
  cases hnot

end Ycetl.Ref
