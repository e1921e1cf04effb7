import Mathlib.Data.Multiset.Filter
import Ycetl.Lib.Runs
import Ycetl.Proofs.HashTableLookup

/-!
# `unordered_multiset` and `unordered_multimap` implement a bag

An insert takes the first slot that is not filled, so equal keys end up
scattered over a probe sequence, among tombstones and entries of other keys.
Two facts make the containers a bag all the same. The chains stay unbroken,
so every occurrence of a key lies before the first empty slot of its own
probe sequence, which is where `count` and `erase` stop. And as long as the
products of the growth test do not wrap, the test leaves a slot that is not
filled, so an insert always finds one; a tombstone is as good as an empty
slot here, which is what the tables with unique keys cannot say.
-/

namespace Ycetl.Ref.Table

open Ycetl.Lib

variable {K V : Type} {H : Hashing K} {key : V → K}

/-- The slot is filled with an entry of key `k`. -/
def matchAt (H : Hashing K) (key : V → K) (slots : List (Slot V)) (k : K)
    (i : Nat) : Bool :=
  match slots[i]? with
  | some ⟨.filled, v⟩ => H.eq (key v) k
  | _ => false

theorem matchAt_iff {slots : List (Slot V)} {k : K} {i : Nat} :
    matchAt H key slots k i = true ↔
      ∃ v, slots[i]? = some ⟨.filled, v⟩ ∧ H.eq (key v) k = true := by
  rw [matchAt]
  split
  · next v hv =>
      constructor
      · exact fun hk => ⟨v, hv, hk⟩
      · intro hex
        obtain ⟨w, hw, hk⟩ := hex
        rw [hv, Option.some.injEq, Slot.mk.injEq] at hw
        exact hw.2 ▸ hk
  · next hno =>
      constructor
      · intro h
        cases h
      · intro hex
        obtain ⟨v, hv, -⟩ := hex
        exact absurd hv (hno v)

/-- The occurrences of a key, counted over the slots. -/
theorem countP_range_matchAt (slots : List (Slot V)) (k : K) :
    (List.range slots.length).countP (matchAt H key slots k) =
      (entriesOf slots).countP fun e => H.eq (key e) k := by
  induction slots with
  | nil => rfl
  | cons s rest ih =>
      have htail : ((List.range rest.length).map Nat.succ).countP
          (matchAt H key (s :: rest) k) =
          (List.range rest.length).countP (matchAt H key rest k) := by
        rw [List.countP_map]
        rfl
      rw [List.length_cons, List.range_succ_eq_map, List.countP_cons, htail, ih]
      obtain ⟨st, v⟩ := s
      cases st with
      | filled => rw [entriesOf_cons_filled, List.countP_cons]; rfl
      | empty | tombstone => rw [entriesOf_cons_of_ne (by simp)]; rfl

theorem countP_path_matchAt (slots : List (Slot V)) (k : K) :
    (path H k slots.length).countP (matchAt H key slots k) =
      (entriesOf slots).countP fun e => H.eq (key e) k := by
  rw [← countP_range_matchAt]
  refine List.Perm.countP_eq _ ?_
  refine (List.perm_ext_iff_of_nodup (nodup_probes _ _) List.nodup_range).mpr ?_
  intro i
  rw [List.mem_range]
  exact mem_probes

/-- The probe sequence of `k`, cut at its first empty slot: every occurrence
of `k` lies in the first part. -/
theorem cut_at_empty {slots : List (Slot V)} (hch : Chain H key slots) (k : K) :
    ∃ pre rest, path H k slots.length = pre ++ rest ∧
      (∀ j ∈ pre, ∀ s, slots[j]? = some s → s.state ≠ .empty) ∧
      (rest = [] ∨ ∃ i post v, rest = i :: post ∧ slots[i]? = some ⟨.empty, v⟩) ∧
      ∀ j ∈ rest, matchAt H key slots k j = false := by
  classical
  rcases first_split (fun j => ∃ v, slots[j]? = some ⟨.empty, v⟩)
    (path H k slots.length) with ⟨pre, i, post, hL, hpre, v, hv⟩ | hall
  · refine ⟨pre, i :: post, hL, ?_, Or.inr ⟨i, post, v, rfl, hv⟩, ?_⟩
    · rintro j hj ⟨st, w⟩ hs rfl
      exact hpre j hj ⟨w, hs⟩
    · intro j hj
      by_contra hcon
      rw [Bool.not_eq_false, matchAt_iff] at hcon
      obtain ⟨w, hw, hk⟩ := hcon
      rcases List.mem_cons.mp hj with rfl | hj
      · rw [hv] at hw
        simp at hw
      · obtain ⟨p₁, p₂, rfl⟩ := List.append_of_mem hj
        refine hch j w (pre ++ i :: p₁) p₂ hw ?_ i (by simp) _ hv rfl
        rw [path_congr hk, hL, List.append_assoc, List.cons_append]
  · refine ⟨_, [], (List.append_nil _).symm, ?_, Or.inl rfl, by simp⟩
    rintro j hj ⟨st, w⟩ hs rfl
    exact hall j hj ⟨w, hs⟩

/-! ## `count` -/

theorem countLoop_prefix {slots : List (Slot V)} {k : K} {pre : List Nat}
    (hlt : ∀ j ∈ pre, j < slots.length)
    (hpre : ∀ j ∈ pre, ∀ s, slots[j]? = some s → s.state ≠ .empty)
    (rest : List Nat) (c : Nat) :
    countLoop H key slots k (pre ++ rest) c =
      countLoop H key slots k rest (c + pre.countP (matchAt H key slots k)) := by
  induction pre generalizing c with
  | nil => rfl
  | cons i pre ih =>
      have ih' := fun c => ih (fun j hj => hlt j (by simp [hj]))
        (fun j hj => hpre j (by simp [hj])) c
      obtain ⟨⟨st, v⟩, hget⟩ : ∃ s, slots[i]? = some s :=
        ⟨_, List.getElem?_eq_getElem (hlt i (by simp))⟩
      have hne := hpre i (by simp) _ hget
      rw [List.cons_append, countLoop, hget, List.countP_cons]
      cases st with
      | empty => exact absurd rfl hne
      | tombstone =>
          have hm : matchAt H key slots k i = false := by rw [matchAt, hget]
          rw [hm]
          exact ih' c
      | filled =>
          have hm : matchAt H key slots k i = H.eq (key v) k := by
            rw [matchAt, hget]
          rw [hm]
          refine (ih' _).trans ?_
          cases H.eq (key v) k with
          | true => simp only [if_true]; congr 1; omega
          | false => rfl

/-- `count` is the multiplicity of the key. -/
theorem count_eq {t : Table V} (h : Inv H key t) (k : K) :
    count H key t k = t.entries.countP fun e => H.eq (key e) k := by
  by_cases h0 : t.cap = 0
  · have hnil : t.slots = [] := List.length_eq_zero_iff.mp h0
    rw [count, if_pos h0, entries, hnil]
    rfl
  · obtain ⟨pre, rest, hL, hpre, hrest, hno⟩ := cut_at_empty h.chain k
    have hlt : ∀ j ∈ pre, j < t.slots.length := fun j hj =>
      path_lt (H := H) (k := k) (hL ▸ List.mem_append_left _ hj)
    have hz : rest.countP (matchAt H key t.slots k) = 0 :=
      List.countP_eq_zero.mpr fun j hj => by rw [hno j hj]; simp
    have hend : countLoop H key t.slots k rest
        (0 + pre.countP (matchAt H key t.slots k)) =
          pre.countP (matchAt H key t.slots k) := by
      rcases hrest with rfl | ⟨i, post, v, rfl, hi⟩
      · rw [countLoop, Nat.zero_add]
      · rw [countLoop, hi, Nat.zero_add]
    rw [count, if_neg h0, cap, hL, countLoop_prefix hlt hpre, hend, entries,
      ← countP_path_matchAt (H := H) t.slots k, hL, List.countP_append, hz,
      Nat.add_zero]

/-! ## `erase` -/

/-- What `erase(k)` makes of a slot. -/
def kill (H : Hashing K) (key : V → K) (k : K) (s : Slot V) : Slot V :=
  if s.state = .filled ∧ H.eq (key s.kv) k = true then ⟨.tombstone, s.kv⟩ else s

theorem kill_empty {k : K} {s : Slot V} :
    (kill H key k s).state = .empty ↔ s.state = .empty := by
  rw [kill]
  split
  · next h => simp [h.1]
  · exact Iff.rfl

/-- One round of the erase loop at a slot that is not empty. -/
theorem eraseLoop_cons {slots : List (Slot V)} {k : K} {i r : Nat} {L : List Nat}
    {s : Slot V} (hi : slots[i]? = some s) (hs : s.state ≠ .empty) :
    eraseLoop H key k (i :: L) slots r =
      eraseLoop H key k L (slots.set i (kill H key k s))
        (r + if matchAt H key slots k i then 1 else 0) := by
  obtain ⟨hil, heq⟩ := List.getElem?_eq_some_iff.mp hi
  have hself : slots.set i s = slots := by rw [← heq, List.set_getElem_self]
  obtain ⟨st, v⟩ := s
  rw [eraseLoop, matchAt, hi]
  cases st with
  | empty => exact absurd rfl hs
  | tombstone =>
      rw [kill, if_neg (by simp), hself]
      rfl
  | filled =>
      cases hk : H.eq (key v) k with
      | true => simp only [kill, hk, and_self, if_true]
      | false =>
          simp only [kill, hk, Bool.false_eq_true, and_false, if_false, hself,
            Nat.add_zero]

/-- The erase loop over a prefix without empty slots, up to the end or the
empty slot it stops at. -/
theorem eraseLoop_prefix {k : K} {pre rest : List Nat} :
    ∀ {slots : List (Slot V)} {r : Nat}, pre.Nodup →
      (∀ j ∈ pre, j < slots.length) →
      (∀ j ∈ pre, ∀ s, slots[j]? = some s → s.state ≠ .empty) →
      (rest = [] ∨ ∃ i post v, rest = i :: post ∧ slots[i]? = some ⟨.empty, v⟩) →
      (∀ j : Nat, (eraseLoop H key k (pre ++ rest) slots r).1[j]? =
        if j ∈ pre then (slots[j]?).map (kill H key k) else slots[j]?) ∧
      (eraseLoop H key k (pre ++ rest) slots r).2 =
        r + pre.countP (matchAt H key slots k) := by
  induction pre with
  | nil =>
      intro slots r _ _ _ hrest
      rcases hrest with rfl | ⟨i, post, v, rfl, hi⟩
      · exact ⟨fun j => by rw [if_neg (by simp)]; rfl, rfl⟩
      · rw [List.nil_append, eraseLoop, hi]
        exact ⟨fun j => by rw [if_neg (by simp)], rfl⟩
  | cons i pre ih =>
      intro slots r hnd hlt hpre hrest
      obtain ⟨hni, hnd'⟩ := List.nodup_cons.mp hnd
      have hil := hlt i (by simp)
      have hget := List.getElem?_eq_getElem hil
      have hne := hpre i (by simp) _ hget
      -- The other slots of the prefix are as they were.
      have hother : ∀ j ∈ pre, ∀ s', (slots.set i s')[j]? = slots[j]? :=
        fun j hj s' => List.getElem?_set_ne (by rintro rfl; exact hni hj)
      have hrest' : rest = [] ∨ ∃ i₀ post v, rest = i₀ :: post ∧
          (slots.set i (kill H key k slots[i]))[i₀]? = some ⟨.empty, v⟩ := by
        refine hrest.imp_right ?_
        intro hex
        obtain ⟨i₀, post, v, hr, hi₀⟩ := hex
        refine ⟨i₀, post, v, hr, ?_⟩
        rw [List.getElem?_set_ne, hi₀]
        intro heq
        subst heq
        rw [hget, Option.some.injEq] at hi₀
        rw [hi₀] at hne
        exact hne rfl
      obtain ⟨h₁, h₂⟩ := @ih (slots.set i (kill H key k slots[i]))
        (r + if matchAt H key slots k i then 1 else 0) hnd'
        (fun j hj => by rw [List.length_set]; exact hlt j (by simp [hj]))
        (fun j hj s hs => hpre j (by simp [hj]) s (by rwa [hother j hj] at hs))
        hrest'
      rw [List.cons_append, eraseLoop_cons hget hne]
      refine ⟨fun j => ?_, ?_⟩
      · rw [h₁ j]
        by_cases hj : j = i
        · subst hj
          rw [if_neg hni, if_pos (by simp), List.getElem?_set_self hil, hget]
          rfl
        · rw [List.getElem?_set_ne fun h => hj h.symm]
          simp only [List.mem_cons, hj, false_or]
      · have hcount : pre.countP (matchAt H key (slots.set i (kill H key k slots[i])) k) =
            pre.countP (matchAt H key slots k) := by
          refine List.countP_congr fun j hj => ?_
          rw [matchAt, matchAt, hother j hj]
        rw [h₂, hcount, List.countP_cons]
        omega

/-- On an unbroken table `erase(k)` kills every occurrence of `k`. -/
theorem eraseAll_slots {t : Table V} (h : Inv H key t) (k : K) :
    (eraseAll H key t k).1.slots = t.slots.map (kill H key k) ∧
      (eraseAll H key t k).2 = count H key t k := by
  by_cases h0 : t.cap = 0
  · have hnil : t.slots = [] := List.length_eq_zero_iff.mp h0
    rw [eraseAll, if_pos h0, count, if_pos h0, hnil]
    exact ⟨rfl, rfl⟩
  · obtain ⟨pre, rest, hL, hpre, hrest, hno⟩ := cut_at_empty h.chain k
    have hlt : ∀ j ∈ pre, j < t.slots.length := fun j hj =>
      path_lt (H := H) (k := k) (hL ▸ List.mem_append_left _ hj)
    have hnd : pre.Nodup := by
      have := nodup_probes ((H.hasher k).toNat % t.slots.length) t.slots.length
      rw [show probes _ _ = pre ++ rest from hL] at this
      exact this.of_append_left
    have hz : rest.countP (matchAt H key t.slots k) = 0 :=
      List.countP_eq_zero.mpr fun j hj => by rw [hno j hj]; simp
    obtain ⟨h₁, h₂⟩ := eraseLoop_prefix (r := 0) hnd hlt hpre hrest
    rw [eraseAll, if_neg h0, cap, hL]
    refine ⟨List.ext_getElem? fun j => ?_, ?_⟩
    · rw [h₁ j, List.getElem?_map]
      split
      · rfl
      · next hj =>
          -- Outside the prefix there is nothing to kill.
          cases hs : t.slots[j]? with
          | none => rfl
          | some s =>
              have hmem : j ∈ pre ++ rest := by
                rw [← hL]
                exact mem_probes.mpr (List.getElem?_eq_some_iff.mp hs).1
              have hm := hno j ((List.mem_append.mp hmem).resolve_left hj)
              rw [Option.map_some, kill, if_neg]
              intro hex
              obtain ⟨hst, hk⟩ := hex
              obtain ⟨st, v⟩ := s
              cases hst
              rw [matchAt_iff.mpr ⟨v, hs, hk⟩] at hm
              cases hm
    · rw [h₂, count_eq h, entries, ← countP_path_matchAt (H := H) t.slots k, hL,
        List.countP_append, hz, Nat.zero_add, Nat.add_zero]

theorem entriesOf_kill (slots : List (Slot V)) (k : K) :
    entriesOf (slots.map (kill H key k)) = remove H key k (entriesOf slots) := by
  induction slots with
  | nil => rfl
  | cons s rest ih =>
      obtain ⟨st, v⟩ := s
      rw [List.map_cons]
      cases st with
      | empty | tombstone =>
          rw [kill, if_neg (by simp), entriesOf_cons_of_ne (by simp),
            entriesOf_cons_of_ne (by simp), ih]
      | filled =>
          rw [entriesOf_cons_filled]
          cases hk : H.eq (key v) k with
          | true =>
              rw [kill, if_pos ⟨rfl, hk⟩, entriesOf_cons_of_ne (by simp), ih, remove,
                remove, List.filter_cons_of_neg (by simp [hk])]
          | false =>
              rw [kill, if_neg (by simp [hk]), entriesOf_cons_filled, ih, remove,
                remove, List.filter_cons_of_pos (by simp [hk])]

theorem chain_kill {slots : List (Slot V)} (h : Chain H key slots) (k : K) :
    Chain H key (slots.map (kill H key k)) := by
  intro i v pre post hi hpath j hj s hs
  rw [List.length_map] at hpath
  rw [List.getElem?_map] at hi hs
  obtain ⟨s₀, hs₀, rfl⟩ := Option.map_eq_some_iff.mp hs
  obtain ⟨u, hu, hkill⟩ := Option.map_eq_some_iff.mp hi
  rw [ne_eq, kill_empty]
  refine h i v pre post ?_ hpath j hj s₀ hs₀
  rw [kill] at hkill
  split at hkill
  · simp at hkill
  · rw [hu, hkill]

/-- `erase(k)` returns the multiplicity and removes every occurrence. -/
theorem eraseAll_spec {t : Table V} (h : Inv H key t) (k : K) :
    Inv H key (eraseAll H key t k).1 ∧
      (eraseAll H key t k).1.entries = remove H key k t.entries ∧
      (eraseAll H key t k).2 = count H key t k := by
  obtain ⟨hslots, hn⟩ := eraseAll_slots h k
  have hes : (eraseAll H key t k).1.entries = remove H key k t.entries := by
    rw [entries, hslots, entriesOf_kill, entries]
  refine ⟨⟨?_, ?_, ?_⟩, hes, hn⟩
  · have hsize : (eraseAll H key t k).1.size = t.size - (eraseAll H key t k).2 := by
      rw [eraseAll]
      split <;> rfl
    have hsplit := List.length_eq_countP_add_countP (fun e => H.eq (key e) k)
      (l := t.entries)
    have hrem : (remove H key k t.entries).length =
        t.entries.countP fun e => !H.eq (key e) k := by
      rw [remove, List.countP_eq_length_filter]
    have hneg : (t.entries.countP fun e => !H.eq (key e) k) =
        t.entries.countP fun e => decide ¬ (H.eq (key e) k = true) :=
      List.countP_congr fun e _ => by cases H.eq (key e) k <;> simp
    rw [hsize, hes, hn, count_eq h, h.size_eq, hrem, hneg]
    omega
  · have := h.cap_pow
    rw [cap, hslots, List.length_map]
    exact this
  · rw [hslots]
    exact chain_kill h.chain k

/-! ## `insert` -/

/-- The products of the growth test do not wrap. -/
def NoWrap (t : Table V) : Prop :=
  (t.size + 1) * 100 < sizeMod ∧ t.cap * maxLoadPct < sizeMod

instance (t : Table V) : Decidable (NoWrap t) := by
  unfold NoWrap
  infer_instance

/-- Without wrap-around the growth test leaves a slot that is not filled. -/
theorem maybeGrow_room [Inhabited V] {t : Table V} (h : Inv H key t)
    (hw : NoWrap t) : ∃ g, maybeGrow H key t = some g ∧
      g.entries.length < g.cap := by
  have hmod : sizeMod = 2 ^ 64 := rfl
  have hload : maxLoadPct = 70 := rfl
  have hle := entries_length_le_cap t
  obtain ⟨hw₁, hw₂⟩ := hw
  rw [hload] at hw₂
  by_cases h0 : t.cap = 0
  · refine ⟨_, if_pos h0, ?_⟩
    rw [entries, entriesOf_freshSlots, cap, length_freshSlots]
    exact Nat.zero_lt_succ 7
  · cases hdue : t.growthDue with
    | true =>
        have hdouble : wrap (t.cap * 2) = t.cap * 2 := Nat.mod_eq_of_lt (by omega)
        obtain ⟨g, hg⟩ : ∃ g, rehash H key (wrap (t.cap * 2)) t = some g :=
          ⟨_, if_neg fun hz => by rw [hdouble] at hz; omega⟩
        obtain ⟨-, hperm, hcap, -⟩ := rehash_spec h hg
        refine ⟨g, by rw [maybeGrow, if_neg h0, if_pos hdue, hg], ?_⟩
        rw [hperm.length_eq]
        omega
    | false =>
        refine ⟨t, by rw [maybeGrow, if_neg h0, hdue]; rfl, ?_⟩
        rw [growthDue, hload, wrap, wrap, Nat.mod_eq_of_lt hw₁, Nat.mod_eq_of_lt hw₂,
          decide_eq_false_iff_not] at hdue
        rw [← h.size_eq]
        omega

theorem insertFreeLoop_prefix {v : V} {slots : List (Slot V)} {pre : List Nat}
    (hpre : ∀ j ∈ pre, ∃ u, slots[j]? = some ⟨.filled, u⟩) (rest : List Nat) :
    insertFreeLoop v slots (pre ++ rest) = insertFreeLoop v slots rest := by
  induction pre with
  | nil => rfl
  | cons i pre ih =>
      obtain ⟨u, hu⟩ := hpre i (by simp)
      rw [List.cons_append, insertFreeLoop, hu]
      exact ih fun j hj => hpre j (by simp [hj])

/-- With room, the insert loop stores in the first slot of the probe sequence
that is not filled. -/
theorem insertFreeLoop_spec {slots : List (Slot V)}
    (hroom : (entriesOf slots).length < slots.length) (k : K) (v : V) :
    ∃ pre i post s, path H k slots.length = pre ++ i :: post ∧
      (∀ j ∈ pre, ∃ u, slots[j]? = some ⟨.filled, u⟩) ∧
      slots[i]? = some s ∧ s.state ≠ .filled ∧
      insertFreeLoop v slots (path H k slots.length) =
        (slots.set i ⟨.filled, v⟩, i, true) := by
  classical
  rcases first_split (fun j => ∃ s, slots[j]? = some s ∧ s.state ≠ .filled)
    (path H k slots.length) with ⟨pre, i, post, hL, hpre, s, hi, hs⟩ | hall
  · have hpre' : ∀ j ∈ pre, ∃ u, slots[j]? = some ⟨.filled, u⟩ := by
      intro j hj
      have hlt : j < slots.length :=
        path_lt (H := H) (k := k) (hL ▸ List.mem_append_left _ hj)
      have hget := List.getElem?_eq_getElem hlt
      rcases hsj : slots[j] with ⟨st, u⟩
      rw [hsj] at hget
      cases st with
      | filled => exact ⟨u, hget⟩
      | empty | tombstone => exact absurd ⟨_, hget, by simp⟩ (hpre j hj)
    refine ⟨pre, i, post, s, hL, hpre', hi, hs, ?_⟩
    obtain ⟨st, u⟩ := s
    rw [hL, insertFreeLoop_prefix hpre', insertFreeLoop, hi]
    cases st with
    | filled => exact absurd rfl hs
    | empty | tombstone => rfl
  · obtain ⟨i, s, hi, hs⟩ := exists_not_filled hroom
    have hmem : i ∈ path H k slots.length :=
      mem_probes.mpr (List.getElem?_eq_some_iff.mp hi).1
    exact absurd ⟨s, hi, hs⟩ (hall i hmem)

/-- An insert finds a slot, and adds exactly one occurrence. -/
theorem insertImpl_spec [Inhabited V] {t : Table V} (h : Inv H key t)
    (hw : NoWrap t) (v : V) :
    ∃ t' i, insertImpl H key t v = some (t', i) ∧ Inv H key t' ∧
      i ≠ t'.endIter ∧ t'.slots[i]? = some ⟨.filled, v⟩ ∧
      t'.entries.Perm (v :: t.entries) := by
  obtain ⟨g, hg, hroom⟩ := maybeGrow_room h hw
  obtain ⟨hinv, hperm⟩ := maybeGrow_spec h hg
  obtain ⟨pre, i, post, s, hL, hpre, hi, hs, hloop⟩ :=
    insertFreeLoop_spec (H := H) hroom (key v) v
  obtain ⟨hinv', hes⟩ := stored_spec hinv hi hs fun pre' post' hL' j hj u hu => by
    rw [probes_split_unique hL' hL] at hj
    obtain ⟨w, hw⟩ := hpre j hj
    rw [hu, Option.some.injEq] at hw
    rw [hw]
    simp
  have hil : i < g.slots.length := (List.getElem?_eq_some_iff.mp hi).1
  have hget : (g.slots.set i ⟨.filled, v⟩)[i]? = some ⟨.filled, v⟩ := by
    rw [List.getElem?_set_self hil]
  have h0 : g.cap ≠ 0 := by omega
  refine ⟨⟨g.slots.set i ⟨.filled, v⟩, g.size + 1⟩, i, ?_, hinv', ?_, hget,
    hes.trans (hperm.cons v)⟩
  · rw [insertImpl, hg, Option.bind_eq_bind, Option.bind_some, if_neg h0]
    have hloop' : insertFreeLoop v g.slots (path H (key v) g.cap) =
        (g.slots.set i ⟨.filled, v⟩, i, true) := hloop
    simp only [hloop', if_true]
    rw [iterAt_filled (t := ⟨g.slots.set i ⟨.filled, v⟩, g.size + 1⟩) hget]
  · rw [endIter_eq, cap, List.length_set]
    omega

/-! ## Iteration -/

theorem iterate_eq (t : Table V) :
    t.iterate = (List.range t.cap).filter (filledAt t.slots) := sweep_begin

theorem filterMap_range_filledAt (slots : List (Slot V)) :
    ((List.range slots.length).filter (filledAt slots)).filterMap
        (fun i => (slots[i]?).map Slot.kv) = entriesOf slots := by
  induction slots with
  | nil => rfl
  | cons s rest ih =>
      have htail : (((List.range rest.length).map Nat.succ).filter
          (filledAt (s :: rest))).filterMap (fun i => ((s :: rest)[i]?).map Slot.kv) =
          entriesOf rest := by
        rw [← ih, List.filter_map, List.filterMap_map]
        rfl
      rw [List.length_cons, List.range_succ_eq_map]
      obtain ⟨st, v⟩ := s
      cases st with
      | filled =>
          rw [List.filter_cons_of_pos (by rfl), List.filterMap_cons, htail,
            entriesOf_cons_filled]
          rfl
      | empty | tombstone =>
          rw [List.filter_cons_of_neg (by rw [filledAt]; simp), htail,
            entriesOf_cons_of_ne (by simp)]

/-- A range-for visits distinct slots, and reads the live entries off them. -/
theorem iterate_spec (t : Table V) :
    t.iterate.Nodup ∧
      t.iterate.filterMap (fun i => (t.slots[i]?).map Slot.kv) = t.entries := by
  rw [iterate_eq]
  exact ⟨List.nodup_range.filter _, filterMap_range_filledAt t.slots⟩

/-! ## Lookups -/

theorem mem_iff_count {t : Table V} (h : Inv H key t) (k : K) :
    (∃ v ∈ t.entries, H.eq (key v) k = true) ↔ 0 < count H key t k := by
  rw [count_eq h, List.countP_pos_iff]

theorem contains_iff_count {t : Table V} (h : Inv H key t) (k : K) :
    contains H key t k = true ↔ 0 < count H key t k := by
  rw [contains_iff h, mem_iff_count h]

theorem find_iff_count {t : Table V} (h : Inv H key t) (k : K) :
    find H key t k ≠ t.endIter ↔ 0 < count H key t k := by
  rw [← contains_iff_count h, contains, decide_eq_true_eq, find]
  rcases findSlot_spec h k with ⟨v, hv, -⟩ | ⟨hn, -⟩
  · have hlt : findSlot H key t k < t.cap := (List.getElem?_eq_some_iff.mp hv).1
    have hne := h.ne_npos hv
    rw [if_neg hne, iterAt_filled hv, endIter_eq]
    exact ⟨fun _ => hne, fun _ => by omega⟩
  · rw [if_pos hn]
    exact ⟨fun h => absurd rfl h, fun h => absurd hn h⟩

/-! ## The bag -/

/-- What a call does to a bag. -/
def bagStep (H : Hashing K) (key : V → K) (b : Multiset V) :
    MultiOp V K → Multiset V
  | .insert v => v ::ₘ b
  | .erase k => b.filter fun e => H.eq (key e) k = false
  | .clear => 0
  | .find _ | .contains _ | .count _ => b

/-- The bag of a history. -/
def bag (H : Hashing K) (key : V → K) (ops : List (MultiOp V K)) : Multiset V :=
  ops.foldl (bagStep H key) 0

/-- One call's part in the occurrences of `k` inserted since the last
`erase(k)` or `clear`. -/
def tally (H : Hashing K) (key : V → K) (k : K) (n : Nat) : MultiOp V K → Nat
  | .insert v => if H.eq (key v) k then n + 1 else n
  | .erase k' => if H.eq k' k then 0 else n
  | .clear => 0
  | .find _ | .contains _ | .count _ => n

/-- The occurrences of `k` inserted since the last `erase(k)` or `clear`. -/
def occurrences (H : Hashing K) (key : V → K) (k : K)
    (ops : List (MultiOp V K)) : Nat :=
  ops.foldl (tally H key k) 0

theorem countP_bagStep (b : Multiset V) (k : K) (op : MultiOp V K) :
    (bagStep H key b op).countP (fun e => H.eq (key e) k) =
      tally H key k (b.countP fun e => H.eq (key e) k) op := by
  cases op with
  | insert v =>
      rw [bagStep, Multiset.countP_cons, tally]
      split <;> rfl
  | erase k' =>
      rw [bagStep, Multiset.countP_filter, tally]
      cases hk : H.eq k' k with
      | true =>
          refine Multiset.countP_eq_zero.mpr ?_
          rintro e - ⟨he, hne⟩
          rw [eq_congr hk, he] at hne
          cases hne
      | false =>
          refine Multiset.countP_congr rfl fun e _ => ?_
          refine propext ⟨And.left, fun he => ⟨he, ?_⟩⟩
          by_contra hcon
          rw [Bool.not_eq_false] at hcon
          rw [H.eq_trans (H.eq_symm hcon) he] at hk
          cases hk
  | clear => rfl
  | find | contains | count => rfl

/-- The bag has each key as often as the history has inserted it. -/
theorem countP_bag (k : K) (ops : List (MultiOp V K)) :
    (bag H key ops).countP (fun e => H.eq (key e) k) = occurrences H key k ops := by
  have hfold : ∀ (ops : List (MultiOp V K)) (b : Multiset V),
      (ops.foldl (bagStep H key) b).countP (fun e => H.eq (key e) k) =
        ops.foldl (tally H key k) (b.countP fun e => H.eq (key e) k) := by
    intro ops
    induction ops with
    | nil => exact fun b => rfl
    | cons op ops ih =>
        intro b
        rw [List.foldl_cons, List.foldl_cons, ih, countP_bagStep]
  exact hfold ops 0

/-! ## Runs -/

section

variable [Inhabited V]

/-- A call without its result. -/
def multiNext (H : Hashing K) (key : V → K) (t : Table V) (op : MultiOp V K) :
    Option (Table V) :=
  (multiStep H key t op).map Prod.fst

/-- Every call is defined, keeps the invariant, and does to the entries what
it does to a bag. -/
theorem multiNext_spec {t : Table V} (h : Inv H key t) (hw : NoWrap t)
    (op : MultiOp V K) : ∃ t', multiNext H key t op = some t' ∧ Inv H key t' ∧
      (t'.entries : Multiset V) = bagStep H key t.entries op := by
  cases op with
  | insert v =>
      obtain ⟨t', i, hins, hinv, -, -, hperm⟩ := insertImpl_spec h hw v
      refine ⟨t', ?_, hinv, ?_⟩
      · rw [multiNext, multiStep, hins]
        rfl
      · rw [bagStep, Multiset.cons_coe]
        exact Multiset.coe_eq_coe.mpr hperm
  | erase k =>
      obtain ⟨hinv, hes, -⟩ := eraseAll_spec h k
      refine ⟨_, rfl, hinv, ?_⟩
      rw [hes, bagStep, Multiset.filter_coe, remove]
      congr 2
      funext e
      cases H.eq (key e) k <;> rfl
  | clear =>
      refine ⟨_, rfl, clear_spec h, ?_⟩
      rw [entries_clear]
      rfl
  | find | contains | count => exact ⟨t, rfl, h, rfl⟩

/-- What the table of a history says: it is the bag of that history. -/
structure IsBag (H : Hashing K) (key : V → K) (ops : List (MultiOp V K))
    (t : Table V) : Prop where
  contents : (t.entries : Multiset V) = bag H key ops
  size_eq : t.size = Multiset.card (bag H key ops)
  count_eq : ∀ k, count H key t k = occurrences H key k ops
  contains_iff : ∀ k, contains H key t k = true ↔ 0 < count H key t k
  find_iff : ∀ k, find H key t k ≠ t.endIter ↔ 0 < count H key t k
  insert_adds : ∀ v, NoWrap t → ∃ t' i, insertImpl H key t v = some (t', i) ∧
    i ≠ t'.endIter ∧ t'.slots[i]? = some ⟨.filled, v⟩ ∧
    (t'.entries : Multiset V) = v ::ₘ t.entries
  erase_removes : ∀ k, (eraseAll H key t k).2 = count H key t k ∧
    ((eraseAll H key t k).1.entries : Multiset V) =
      (t.entries : Multiset V).filter fun e => H.eq (key e) k = false
  grow_keeps : ∀ g, maybeGrow H key t = some g →
    (g.entries : Multiset V) = t.entries
  iterates : t.iterate.Nodup ∧
    t.iterate.filterMap (fun i => (t.slots[i]?).map Slot.kv) = t.entries

theorem isBag_of_inv {t : Table V} {ops : List (MultiOp V K)} (h : Inv H key t)
    (hes : (t.entries : Multiset V) = bag H key ops) : IsBag H key ops t where
  contents := hes
  size_eq := by rw [h.size_eq, ← hes, Multiset.coe_card]
  count_eq k := by
    rw [Table.count_eq h, ← countP_bag, ← hes, Multiset.coe_countP]
    simp only [Bool.decide_eq_true]
  contains_iff := contains_iff_count h
  find_iff := find_iff_count h
  insert_adds v hw := by
    obtain ⟨t', i, hins, -, hend, hslot, hperm⟩ := insertImpl_spec h hw v
    exact ⟨t', i, hins, hend, hslot, Multiset.coe_eq_coe.mpr hperm⟩
  erase_removes k := by
    obtain ⟨-, hes, hn⟩ := eraseAll_spec h k
    refine ⟨hn, ?_⟩
    rw [hes, Multiset.filter_coe, remove]
    congr 2
    funext e
    cases H.eq (key e) k <;> rfl
  grow_keeps g hg := Multiset.coe_eq_coe.mpr (maybeGrow_spec h hg).2
  iterates := iterate_spec t

/-- A run whose growth tests do not wrap is defined, and ends in the bag of
its history. -/
theorem run_isBag (H : Hashing K) (key : V → K) {ops : List (MultiOp V K)}
    (hw : Along (multiNext H key) (fun t _ => NoWrap t) Table.empty ops) :
    ∃ t, runFrom (multiNext H key) Table.empty ops = some t ∧
      IsBag H key ops t := by
  have hstep : ∀ (t : Table V) (b : Multiset V) op,
      (Inv H key t ∧ (t.entries : Multiset V) = b) → NoWrap t →
      ∃ t', multiNext H key t op = some t' ∧
        Inv H key t' ∧ (t'.entries : Multiset V) = bagStep H key b op := by
    rintro t b op ⟨h, rfl⟩ hwrap
    exact multiNext_spec h hwrap op
  obtain ⟨t, ht, hinv, hes⟩ := runFrom_foldl hstep ⟨Inv.empty, rfl⟩ hw
  exact ⟨t, ht, isBag_of_inv hinv hes⟩

end

end Ycetl.Ref.Table

namespace Ycetl.Ref

open Ycetl.Lib

namespace UnorderedMultimap

variable {K T : Type} [Inhabited K] [Inhabited T] (H : Hashing K)

def next (t : Table (K × T)) (op : MultiOp (K × T) K) : Option (Table (K × T)) :=
  (step H t op).map Prod.fst

end UnorderedMultimap

namespace UnorderedMultiset

variable {K : Type} [Inhabited K] (H : Hashing K)

def next (t : Table K) (op : Op K) : Option (Table K) :=
  (step H t op).map Prod.fst

/-- To a bag, an `emplace` is an insert. -/
def Op.onBag : Op K → MultiOp K K
  | .call op => op
  | .emplace k => .insert k

theorem next_eq : next H = fun t op => Table.multiNext H id t op.onBag := by
  funext t op
  cases op <;> rfl

end UnorderedMultiset

/-- Both containers hold the bag of their history, and every call answers
from it. -/
theorem unordered_multi_refines_bag {K T : Type} [Inhabited K] [Inhabited T]
    (H : Hashing K) :
    (∀ ops : List (MultiOp (K × T) K),
      Along (UnorderedMultimap.next H) (fun t _ => t.NoWrap) Table.empty ops →
        ∃ t, runFrom (UnorderedMultimap.next H) Table.empty ops = some t ∧
          Table.IsBag H Prod.fst ops t) ∧
      ∀ ops : List (UnorderedMultiset.Op K),
        Along (UnorderedMultiset.next H) (fun t _ => t.NoWrap) Table.empty ops →
          ∃ t, runFrom (UnorderedMultiset.next H) Table.empty ops = some t ∧
            Table.IsBag H id (ops.map UnorderedMultiset.Op.onBag) t := by
  refine ⟨fun ops hw => Table.run_isBag H Prod.fst hw, fun ops hw => ?_⟩
  rw [UnorderedMultiset.next_eq] at hw ⊢
  rw [← runFrom_map]
  exact Table.run_isBag H id ((along_map _ _ _).mpr hw)

/-- Two equal keys on one bucket and a third key on the next, and then the
first two erased. -/
theorem unordered_multi_refines_bag_run :
    (∃ t, runFrom (UnorderedMultimap.next natHashing) Table.empty
        [.insert (1, 5), .insert (1, 6), .insert (2, 7), .erase 1] = some t ∧
      Table.IsBag natHashing Prod.fst
        [.insert (1, 5), .insert (1, 6), .insert (2, 7), .erase 1] t) ∧
      ∃ t, runFrom (UnorderedMultiset.next natHashing) Table.empty
          [.emplace 1, .call (.insert 1), .emplace 2, .call (.erase 1)] = some t ∧
        Table.IsBag natHashing id
          [.insert 1, .insert 1, .insert 2, .erase 1] t :=
  ⟨(unordered_multi_refines_bag natHashing).1 _ (by decide),
    (unordered_multi_refines_bag (T := Nat) natHashing).2 _ (by decide)⟩

end Ycetl.Ref
