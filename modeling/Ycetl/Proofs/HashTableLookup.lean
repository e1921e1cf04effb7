import Ycetl.Proofs.HashTableInv

/-!
# Lookups, inserts and erasures on an unbroken table

With the chains unbroken, the end of a scan says what the table holds: a scan
that stops at an empty slot, or runs out, has shown that no entry has the
key. `findSlot_spec` and `insertProbe_end` are the two readings the containers
need. An insert has a third end, and it is not about the key at all: the scan
of an absent key that meets no empty slot stores nothing, however many
tombstones it walked over.
-/

namespace Ycetl.Ref.Table

open Ycetl.Lib

variable {K V : Type} {H : Hashing K} {key : V → K}

def HasEmpty (slots : List (Slot V)) : Prop :=
  ∃ (i : Nat) (v : V), slots[i]? = some ⟨.empty, v⟩

/-- No two entries have the same key. -/
def Distinct (H : Hashing K) (key : V → K) (es : List V) : Prop :=
  es.Pairwise fun a b => H.eq (key a) (key b) = false

/-- The entries with the value of the one entry of key `k` updated. -/
def assign (H : Hashing K) (key : V → K) (upd : V → V) (k : K) (es : List V) :
    List V :=
  es.map fun e => if H.eq (key e) k then upd e else e

/-- The entries of any other key. -/
def remove (H : Hashing K) (key : V → K) (k : K) (es : List V) : List V :=
  es.filter fun e => !H.eq (key e) k

/-! ## Keys of entries -/

theorem eq_comm (H : Hashing K) (a b : K) : H.eq a b = H.eq b a := by
  rw [Bool.eq_iff_iff]
  exact ⟨H.eq_symm, H.eq_symm⟩

theorem eq_congr {a b : K} (h : H.eq a b = true) (c : K) :
    H.eq c a = H.eq c b := by
  rw [Bool.eq_iff_iff]
  exact ⟨fun hc => H.eq_trans hc h, fun hc => H.eq_trans hc (H.eq_symm h)⟩

theorem Distinct.perm {es es' : List V} (h : Distinct H key es)
    (hp : es'.Perm es) : Distinct H key es' :=
  hp.symm.pairwise h fun hab => by rw [eq_comm]; exact hab

theorem Distinct.cons {es : List V} (h : Distinct H key es) {v : V}
    (habs : Absent H key es (key v)) : Distinct H key (v :: es) :=
  List.pairwise_cons.mpr ⟨fun e he => by rw [eq_comm]; exact habs e he, h⟩

/-- Distinct keys single out the slot of a key. -/
theorem Distinct.slot_unique {slots : List (Slot V)}
    (h : Distinct H key (entriesOf slots)) {i j : Nat} {v w : V}
    (hi : slots[i]? = some ⟨.filled, v⟩) (hj : slots[j]? = some ⟨.filled, w⟩)
    (heq : H.eq (key v) (key w) = true) : i = j := by
  rw [Distinct, entriesOf, List.pairwise_filterMap, List.pairwise_iff_getElem] at h
  obtain ⟨hil, hiv⟩ := List.getElem?_eq_some_iff.mp hi
  obtain ⟨hjl, hjw⟩ := List.getElem?_eq_some_iff.mp hj
  rcases Nat.lt_trichotomy i j with hlt | rfl | hgt
  · have := h i j hil hjl hlt v (by rw [hiv]; simp) w (by rw [hjw]; simp)
    rw [heq] at this
    cases this
  · rfl
  · have := h j i hjl hil hgt w (by rw [hjw]; simp) v (by rw [hiv]; simp)
    rw [eq_comm, heq] at this
    cases this

/-- Around the entry of key `k`, the other entries have other keys. -/
theorem Distinct.split {es es' : List V} {w : V} {k : K}
    (h : Distinct H key (es ++ w :: es')) (hk : H.eq (key w) k = true) :
    ∀ e ∈ es ++ es', H.eq (key e) k = false := by
  have hperm : (es ++ w :: es').Perm (w :: (es ++ es')) := List.perm_middle
  have hw := (List.pairwise_cons.mp
    (hperm.pairwise h fun hab => by rw [eq_comm]; exact hab)).1
  intro e he
  have := hw e he
  rw [eq_comm, eq_congr hk] at this
  exact this

theorem assign_split {es es' : List V} {w : V} {k : K} {upd : V → V}
    (hother : ∀ e ∈ es ++ es', H.eq (key e) k = false)
    (hk : H.eq (key w) k = true) :
    assign H key upd k (es ++ w :: es') = es ++ upd w :: es' := by
  have hfix : ∀ l : List V, (∀ e ∈ l, H.eq (key e) k = false) →
      l.map (fun e => if H.eq (key e) k then upd e else e) = l := by
    intro l hl
    refine (List.map_congr_left fun e he => ?_).trans (List.map_id l)
    rw [hl e he, if_neg (by simp), id]
  rw [assign, List.map_append, List.map_cons,
    hfix es fun e he => hother e (by simp [he]),
    hfix es' fun e he => hother e (by simp [he]), if_pos hk]

theorem remove_split {es es' : List V} {w : V} {k : K}
    (hother : ∀ e ∈ es ++ es', H.eq (key e) k = false)
    (hk : H.eq (key w) k = true) :
    remove H key k (es ++ w :: es') = es ++ es' := by
  have hkeep : ∀ l : List V, (∀ e ∈ l, H.eq (key e) k = false) →
      l.filter (fun e => !H.eq (key e) k) = l := fun l hl =>
    List.filter_eq_self.mpr fun e he => by rw [hl e he]; rfl
  rw [remove, List.filter_append, List.filter_cons_of_neg (by simp [hk]),
    hkeep es fun e he => hother e (by simp [he]),
    hkeep es' fun e he => hother e (by simp [he])]

theorem assign_absent {es : List V} {k : K} {upd : V → V}
    (h : Absent H key es k) : assign H key upd k es = es := by
  refine (List.map_congr_left fun e he => ?_).trans (List.map_id es)
  rw [h e he, if_neg (by simp), id]

theorem remove_absent {es : List V} {k : K} (h : Absent H key es k) : remove H key k es = es :=
  List.filter_eq_self.mpr fun e he => by rw [h e he]; rfl

/-! ## The end of a scan -/

/-- An empty slot on the probe sequence of `k`, reached without meeting `k`,
shows that no entry has that key. -/
theorem absent_of_miss {slots : List (Slot V)} (hch : Chain H key slots) {k : K}
    {pre post : List Nat} {i : Nat} {u : V}
    (hL : path H k slots.length = pre ++ i :: post)
    (hpre : ∀ j ∈ pre, Passed H key slots k j)
    (hi : slots[i]? = some ⟨.empty, u⟩) : Absent H key (entriesOf slots) k := by
  intro w hw
  obtain ⟨i₀, hi₀⟩ := mem_entriesOf.mp hw
  by_contra hcon
  rw [Bool.not_eq_false] at hcon
  have hmem : i₀ ∈ pre ++ i :: post := by
    rw [← hL]
    exact mem_probes.mpr (List.getElem?_eq_some_iff.mp hi₀).1
  rcases List.mem_append.mp hmem with hin | hin
  · obtain ⟨s, hs, -, hk⟩ := hpre i₀ hin
    rw [hi₀, Option.some.injEq] at hs
    subst hs
    rw [hk rfl] at hcon
    cases hcon
  · rcases List.mem_cons.mp hin with rfl | hin
    · rw [hi] at hi₀
      simp at hi₀
    · obtain ⟨p₁, p₂, rfl⟩ := List.append_of_mem hin
      refine hch i₀ w (pre ++ i :: p₁) p₂ hi₀ ?_ i (by simp) _ hi rfl
      rw [path_congr hcon, hL, List.append_assoc, List.cons_append]

theorem absent_of_exhausted {slots : List (Slot V)} {k : K}
    (h : ∀ j ∈ path H k slots.length, Passed H key slots k j) :
    Absent H key (entriesOf slots) k ∧ ¬ HasEmpty slots := by
  have hget : ∀ (i : Nat) (s : Slot V), slots[i]? = some s →
      s.state ≠ .empty ∧ (s.state = .filled → H.eq (key s.kv) k = false) := by
    intro i s hi
    obtain ⟨s', hs', hne, hk⟩ :=
      h i (mem_probes.mpr (List.getElem?_eq_some_iff.mp hi).1)
    rw [hi, Option.some.injEq] at hs'
    subst hs'
    exact ⟨hne, hk⟩
  constructor
  · intro w hw
    obtain ⟨i, hi⟩ := mem_entriesOf.mp hw
    exact (hget i _ hi).2 rfl
  · intro hex
    obtain ⟨i, u, hi⟩ := hex
    exact (hget i _ hi).1 rfl

theorem scan_path (H : Hashing K) (key : V → K) (t : Table V) (k : K) :
    Scan H key t.slots k (path H k t.cap) :=
  scan t.slots k _ fun _ hi => path_lt hi

/-! ## `find_slot` -/

theorem findSlot_spec {t : Table V} (h : Inv H key t) (k : K) :
    (∃ v, t.slots[findSlot H key t k]? = some ⟨.filled, v⟩ ∧
        H.eq (key v) k = true) ∨
      (findSlot H key t k = npos ∧ Absent H key t.entries k) := by
  by_cases h0 : t.cap = 0
  · right
    have hnil : t.slots = [] := List.length_eq_zero_iff.mp h0
    refine ⟨by rw [findSlot, if_pos h0], ?_⟩
    rw [entries, hnil]
    intro v hv
    cases hv
  · rw [findSlot, if_neg h0]
    cases scan_path H key t k with
    | hit hL hpre hi hk =>
        rw [hL, findLoop_hit hpre hi hk]
        exact Or.inl ⟨_, hi, hk⟩
    | miss hL hpre hi =>
        refine Or.inr ⟨by rw [hL, findLoop_miss hpre hi], ?_⟩
        exact absent_of_miss h.chain hL hpre hi
    | exhausted hall =>
        exact Or.inr ⟨findLoop_exhausted hall, (absent_of_exhausted hall).1⟩

/-- `find_slot` answers `size_type(-1)` exactly when no entry has the key. -/
theorem findSlot_eq_npos {t : Table V} (h : Inv H key t) (k : K) :
    findSlot H key t k = npos ↔ Absent H key t.entries k := by
  rcases findSlot_spec h k with ⟨v, hv, hk⟩ | ⟨hn, habs⟩
  · constructor
    · intro hn
      exact absurd hn (h.ne_npos hv)
    · intro habs
      rw [habs v (mem_entriesOf.mpr ⟨_, hv⟩)] at hk
      cases hk
  · exact ⟨fun _ => habs, fun _ => hn⟩

/-- On a table with distinct keys `find_slot` answers `i` exactly when slot
`i` is filled with an entry of that key. -/
theorem findSlot_eq {t : Table V} (h : Inv H key t)
    (hd : Distinct H key t.entries) (k : K) {i : Nat} (hi : i < t.cap) :
    findSlot H key t k = i ↔
      ∃ v, t.slots[i]? = some ⟨.filled, v⟩ ∧ H.eq (key v) k = true := by
  rcases findSlot_spec h k with ⟨v, hv, hk⟩ | ⟨hn, habs⟩
  · constructor
    · rintro rfl
      exact ⟨v, hv, hk⟩
    · intro hex
      obtain ⟨w, hw, hkw⟩ := hex
      exact hd.slot_unique hv hw (H.eq_trans hk (H.eq_symm hkw))
  · constructor
    · intro he
      have hcap := h.cap_le
      have hnp : npos = 2 ^ 64 - 1 := rfl
      omega
    · intro hex
      obtain ⟨w, hw, hkw⟩ := hex
      rw [habs w (mem_entriesOf.mpr ⟨_, hw⟩)] at hkw
      cases hkw

theorem contains_iff {t : Table V} (h : Inv H key t) (k : K) :
    contains H key t k = true ↔ ∃ v ∈ t.entries, H.eq (key v) k = true := by
  rw [contains, decide_eq_true_eq, ne_eq, findSlot_eq_npos h]
  constructor
  · intro hne
    by_contra hcon
    refine hne fun v hv => ?_
    by_contra hk
    exact hcon ⟨v, hv, by simpa using hk⟩
  · intro hex habs
    obtain ⟨v, hv, hk⟩ := hex
    rw [habs v hv] at hk
    cases hk

/-- A filled slot is where an iterator to it stands. -/
theorem iterAt_filled {t : Table V} {i : Nat} {v : V}
    (hi : t.slots[i]? = some ⟨.filled, v⟩) : t.iterAt i = i := by
  refine nextMarked_of_marked ?_
  rw [filledAt, hi]
  rfl

theorem endIter_eq (t : Table V) : t.endIter = t.cap :=
  nextMarked_of_end (Nat.le_refl _)

/-! ## The probe loop of an insert -/

/-- The three ends of `insert_slot` and `insert_or_assign`. -/
inductive InsertEnd (H : Hashing K) (key : V → K) (upd : V → V) (t : Table V)
    (v : V) (r : Option (Table V × Nat × Bool)) : Prop where
  | found {i w} (hi : t.slots[i]? = some ⟨.filled, w⟩)
      (hk : H.eq (key w) (key v) = true)
      (hr : r = some (⟨t.slots.set i ⟨.filled, upd w⟩, t.size⟩, i, false))
  | stored {i s} (hi : t.slots[i]? = some s) (hs : s.state ≠ .filled)
      (habs : Absent H key t.entries (key v)) (hempty : HasEmpty t.slots)
      (hpath : ∀ pre post, path H (key v) t.slots.length = pre ++ i :: post →
        ∀ j ∈ pre, ∀ u, t.slots[j]? = some u → u.state ≠ .empty)
      (hr : r = some (⟨t.slots.set i ⟨.filled, v⟩, t.size + 1⟩, i, true))
  | lost (habs : Absent H key t.entries (key v)) (hfull : ¬ HasEmpty t.slots)
      (hr : r = some (t, npos, false))

theorem insertProbe_end {t : Table V} (h : Inv H key t) (h0 : t.cap ≠ 0)
    (upd : V → V) (v : V) :
    InsertEnd H key upd t v (insertProbe H key upd t v) := by
  rw [insertProbe, if_neg h0]
  cases scan_path H key t (key v) with
  | hit hL hpre hi hk =>
      rw [hL, insertLoop_hit hpre hi hk]
      exact .found hi hk rfl
  | miss hL hpre hi =>
      rename_i pre e post u
      rw [hL, insertLoop_miss hpre hi]
      obtain ⟨s, hs, hne, hwhere⟩ := storeTarget_cases pre hi
      refine .stored hs hne (absent_of_miss h.chain hL hpre hi) ⟨_, _, hi⟩ ?_ rfl
      -- The target lies on the prefix the loop walked over, or ends it.
      have hpass : ∀ j ∈ pre, ∀ u, t.slots[j]? = some u → u.state ≠ .empty := by
        intro j hj u hu
        obtain ⟨s', hs', hne', -⟩ := hpre j hj
        rw [hu, Option.some.injEq] at hs'
        exact hs' ▸ hne'
      intro pre' post' hL'
      have hL'' : path H (key v) t.slots.length = pre ++ e :: post := hL
      rcases hwhere with heq | hmem
      · rw [heq] at hL'
        rw [probes_split_unique hL' hL'']
        exact hpass
      · obtain ⟨p₁, p₂, hp⟩ := List.append_of_mem hmem
        have hpre' : pre' = p₁ := by
          refine probes_split_unique hL' (?_ : _ = p₁ ++ _ :: (p₂ ++ e :: post))
          refine hL''.trans ?_
          conv_lhs => rw [hp]
          simp
        intro j hj
        refine hpass j ?_
        rw [hp]
        exact List.mem_append_left _ (hpre' ▸ hj)
  | exhausted hall =>
      obtain ⟨habs, hfull⟩ := absent_of_exhausted hall
      rw [insertLoop_exhausted hall]
      exact .lost habs hfull rfl

/-- Storing an absent entry keeps the invariant and adds that entry. -/
theorem stored_spec {t : Table V} (h : Inv H key t) {i : Nat} {s : Slot V}
    {v : V} (hi : t.slots[i]? = some s) (hs : s.state ≠ .filled)
    (hpath : ∀ pre post, path H (key v) t.slots.length = pre ++ i :: post →
      ∀ j ∈ pre, ∀ u, t.slots[j]? = some u → u.state ≠ .empty) :
    Inv H key ⟨t.slots.set i ⟨.filled, v⟩, t.size + 1⟩ ∧
      (entriesOf (t.slots.set i ⟨.filled, v⟩)).Perm (v :: t.entries) := by
  have hperm := entriesOf_set_fill hi hs v
  refine ⟨⟨?_, ?_, ?_⟩, hperm⟩
  · rw [entries, hperm.length_eq, h.size_eq]
    rfl
  · have := h.cap_pow
    simpa only [cap, List.length_set] using this
  · exact h.chain.set (by simp) fun _ => hpath

/-- Rewriting an entry under the same key keeps the invariant. -/
theorem updated_spec {t : Table V} (h : Inv H key t) {i : Nat} {w w' : V}
    (hi : t.slots[i]? = some ⟨.filled, w⟩)
    (hk : H.eq (key w') (key w) = true) :
    Inv H key ⟨t.slots.set i ⟨.filled, w'⟩, t.size⟩ := by
  obtain ⟨es, es', hsplit, hset, -⟩ := entriesOf_split hi
  refine ⟨?_, ?_, ?_⟩
  · rw [h.size_eq, entries, entries, hsplit, hset]
    simp
  · have := h.cap_pow
    simpa only [cap, List.length_set] using this
  · refine h.chain.set (by simp) fun _ pre post hL => ?_
    rw [path_congr hk] at hL
    exact h.chain i w pre post hi hL

/-- Rewriting the entry of key `k` is `assign` on the entries. -/
theorem updated_entries {t : Table V} (hd : Distinct H key t.entries) {i : Nat}
    {w : V} {k : K} (upd : V → V) (hi : t.slots[i]? = some ⟨.filled, w⟩)
    (hk : H.eq (key w) k = true) :
    entriesOf (t.slots.set i ⟨.filled, upd w⟩) =
      assign H key upd k t.entries := by
  obtain ⟨es, es', hsplit, hset, -⟩ := entriesOf_split hi
  rw [entries, hsplit] at hd
  rw [entries, hsplit, hset, assign_split (hd.split hk) hk]

theorem assign_distinct {es : List V} (hd : Distinct H key es) (upd : V → V)
    (hupd : ∀ e, key (upd e) = key e) (k : K) :
    Distinct H key (assign H key upd k es) := by
  refine List.pairwise_map.mpr (hd.imp fun hab => ?_)
  have hkey : ∀ e, key (if H.eq (key e) k = true then upd e else e) = key e := by
    intro e
    split
    · exact hupd e
    · rfl
  rw [hkey, hkey]
  exact hab

/-! ## `erase` and `clear` -/

/-- A filled slot turned into a tombstone: one entry fewer. -/
theorem tombstone_spec {t : Table V} (h : Inv H key t) {i : Nat} {w w' : V}
    (hi : t.slots[i]? = some ⟨.filled, w⟩) :
    Inv H key ⟨t.slots.set i ⟨.tombstone, w'⟩, t.size - 1⟩ := by
  obtain ⟨es, es', hsplit, -, hset⟩ := entriesOf_split hi
  refine ⟨?_, ?_, h.chain.set (by simp) (by simp)⟩
  · rw [h.size_eq, entries, entries, hsplit, hset _ (by simp)]
    simp
  · have := h.cap_pow
    simpa only [cap, List.length_set] using this

theorem erase_spec {t : Table V} (h : Inv H key t)
    (hd : Distinct H key t.entries) (k : K) :
    Inv H key (erase H key t k).1 ∧
      (erase H key t k).1.entries = remove H key k t.entries ∧
      (erase H key t k).2 = t.entries.countP fun e => H.eq (key e) k := by
  rcases findSlot_spec h k with ⟨w, hw, hk⟩ | ⟨hn, habs⟩
  · obtain ⟨es, es', hsplit, -, hset⟩ := entriesOf_split hw
    have hother := Distinct.split (by rw [← hsplit]; exact hd) hk
    have herase : erase H key t k =
        (⟨t.slots.set (findSlot H key t k) ⟨.tombstone, w⟩, t.size - 1⟩, 1) := by
      simp only [erase]
      rw [if_neg (h.ne_npos hw), List.modify_eq_set_getElem?, hw]
      rfl
    rw [herase]
    refine ⟨tombstone_spec h hw, ?_, ?_⟩
    · rw [entries, entries, hset _ (by simp), hsplit, remove_split hother hk]
    · have hnone : ∀ l : List V, (∀ e ∈ l, H.eq (key e) k = false) →
          l.countP (fun e => H.eq (key e) k) = 0 := fun l hl =>
        List.countP_eq_zero.mpr fun e he => by rw [hl e he]; simp
      have hone : (w :: es').countP (fun e => H.eq (key e) k) =
          es'.countP (fun e => H.eq (key e) k) + 1 := List.countP_cons_of_pos hk
      rw [entries, hsplit, List.countP_append, hone,
        hnone es fun e he => hother e (by simp [he]),
        hnone es' fun e he => hother e (by simp [he])]
  · have herase : erase H key t k = (t, 0) := by
      simp only [erase]
      rw [if_pos hn]
    rw [herase]
    refine ⟨h, (remove_absent habs).symm, ?_⟩
    exact (List.countP_eq_zero.mpr fun e he => by rw [habs e he]; simp).symm

theorem entries_clear (t : Table V) : t.clear.entries = [] := by
  simp [clear, entries, entriesOf]

theorem clear_spec {t : Table V} (h : Inv H key t) : Inv H key t.clear := by
  refine ⟨by rw [entries_clear]; rfl, ?_, ?_⟩
  · have := h.cap_pow
    simpa only [cap, clear, List.length_map] using this
  · intro i v pre post hi
    rw [clear, List.getElem?_map] at hi
    obtain ⟨s, -, hs⟩ := Option.map_eq_some_iff.mp hi
    simp at hs

end Ycetl.Ref.Table
