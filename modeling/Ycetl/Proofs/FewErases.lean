import Ycetl.Lib.Refinement
import Ycetl.Proofs.TableGrowth

/-!
# Tables that little is erased from

What a full table loses is a key that finds no empty slot, and what takes the
empty slots from it are tombstones: the growth test does not count them. Of
eight slots, at most four are filled before an insertion makes a table of
sixteen, and of more slots at most 70%; the rest are three at least and one
more. As long as no more than three keys are erased between one `clear` and
the next, whatever calls find nothing to erase, there is an empty slot left for every insertion, and
`unordered_map` and `unordered_set` do what a dictionary does, without
exception. With a fourth one they need not.
-/

namespace Ycetl.Ref

open Ycetl.Lib

/-! ## Dictionaries -/

/-- What is held for each key, where equal keys are one, and how much. -/
structure Dict (K V : Type) where
  at? : K → Option V
  size : Nat

namespace Dict

variable {K V : Type} (H : Hashing K) (key : V → K)

def empty : Dict K V := ⟨fun _ => none, 0⟩

def has (d : Dict K V) (k : K) : Bool := (d.at? k).isSome

/-- What is there already stays. -/
def add (d : Dict K V) (v : V) : Dict K V :=
  if d.has (key v) then d
  else ⟨fun k => if H.eq (key v) k then some v else d.at? k, d.size + 1⟩

def write (d : Dict K V) (k : K) (upd : V → V) : Dict K V :=
  { d with at? := fun k' => if H.eq k k' then (d.at? k').map upd else d.at? k' }

def remove (d : Dict K V) (k : K) : Dict K V :=
  ⟨fun k' => if H.eq k k' then none else d.at? k', if d.has k then d.size - 1 else d.size⟩

theorem write_id (d : Dict K V) (k : K) : d.write H k id = d := by
  have hat : (fun k' => if H.eq k k' = true then (d.at? k').map id else d.at? k') = d.at? := by
    funext k'
    rw [Option.map_id, id, ite_self]
  rw [write, hat]

end Dict

namespace Table

variable {K V : Type} {H : Hashing K} {key : V → K}

/-- The table holds what the dictionary holds. -/
structure Represents (H : Hashing K) (key : V → K) (t : Table V) (d : Dict K V) : Prop where
  at_iff : ∀ k e, d.at? k = some e ↔ e ∈ t.entries ∧ H.eq (key e) k = true
  size_eq : d.size = t.entries.length

theorem represents_empty : Represents H key (Table.empty : Table V) Dict.empty where
  at_iff k e := by
    refine ⟨fun h => ?_, fun h => ?_⟩
    · cases h
    · cases h.1
  size_eq := rfl

theorem Represents.has_iff {t : Table V} {d : Dict K V} (h : Represents H key t d) {k : K} :
    d.has k = true ↔ Present H key t k := by
  rw [Dict.has, Option.isSome_iff_exists]
  exact exists_congr fun e => h.at_iff k e

theorem Represents.has_false {t : Table V} {d : Dict K V} (h : Represents H key t d) {k : K}
    (habs : Absent H key t.entries k) : d.has k = false := by
  rw [← Bool.not_eq_true, h.has_iff]
  exact fun hp => hp.not_absent habs

theorem Represents.perm {t t' : Table V} {d : Dict K V} (h : Represents H key t d)
    (hp : t'.entries.Perm t.entries) : Represents H key t' d :=
  ⟨fun k e => by rw [h.at_iff, hp.mem_iff], h.size_eq.trans hp.length_eq.symm⟩

theorem Represents.add {t t' : Table V} {d : Dict K V} (h : Represents H key t d) {v : V}
    (habs : Absent H key t.entries (key v)) (hp : t'.entries.Perm (v :: t.entries)) :
    Represents H key t' (d.add H key v) := by
  rw [Dict.add, h.has_false habs, if_neg Bool.false_ne_true]
  refine ⟨fun k e => ?_, ?_⟩
  · rw [hp.mem_iff, List.mem_cons]
    dsimp only
    split
    · next hk =>
        rw [Option.some.injEq]
        refine ⟨fun he => ⟨Or.inl he.symm, he ▸ hk⟩, fun hex => ?_⟩
        obtain ⟨rfl | he, hek⟩ := hex
        · rfl
        · have := habs e he
          rw [H.eq_trans hek (H.eq_symm hk)] at this
          cases this
    · next hk =>
        rw [h.at_iff]
        refine ⟨fun hex => ⟨Or.inr hex.1, hex.2⟩, fun hex => ?_⟩
        obtain ⟨rfl | he, hek⟩ := hex
        · exact absurd hek hk
        · exact ⟨he, hek⟩
  · rw [hp.length_eq, List.length_cons, h.size_eq]

theorem Represents.add_present {t : Table V} {d : Dict K V} (h : Represents H key t d) {v : V}
    (hpres : Present H key t (key v)) : d.add H key v = d := by
  rw [Dict.add, if_pos (h.has_iff.mpr hpres)]

theorem Represents.write {t t' : Table V} {d : Dict K V} (h : Represents H key t d) {k : K}
    {upd : V → V} (hupd : ∀ e, key (upd e) = key e)
    (hp : t'.entries.Perm (assign H key upd k t.entries)) :
    Represents H key t' (d.write H k upd) := by
  refine ⟨fun k' e => ?_, ?_⟩
  · rw [hp.mem_iff, assign, List.mem_map, Dict.write]
    dsimp only
    split
    · next hk =>
        rw [Option.map_eq_some_iff]
        constructor
        · intro hex
          obtain ⟨w, hw, rfl⟩ := hex
          obtain ⟨hmem, hwk⟩ := (h.at_iff k' w).mp hw
          refine ⟨⟨w, hmem, if_pos (H.eq_trans hwk (H.eq_symm hk))⟩, ?_⟩
          rwa [hupd]
        · intro hex
          obtain ⟨⟨w, hmem, rfl⟩, hek⟩ := hex
          have hwk : H.eq (key w) k' = true := by
            split at hek
            · rwa [hupd] at hek
            · exact hek
          refine ⟨w, (h.at_iff k' w).mpr ⟨hmem, hwk⟩, ?_⟩
          rw [if_pos (H.eq_trans hwk (H.eq_symm hk))]
    · next hk =>
        rw [h.at_iff]
        have hne : ∀ w, H.eq (key w) k' = true → ¬ H.eq (key w) k = true := fun w hw hwk =>
          hk (H.eq_trans (H.eq_symm hwk) hw)
        constructor
        · intro hex
          exact ⟨⟨e, hex.1, if_neg (hne e hex.2)⟩, hex.2⟩
        · intro hex
          obtain ⟨⟨w, hmem, rfl⟩, hek⟩ := hex
          have hwk : H.eq (key w) k' = true := by
            split at hek
            · rwa [hupd] at hek
            · exact hek
          rw [if_neg (hne w hwk)]
          exact ⟨hmem, hwk⟩
  · rw [hp.length_eq, assign, List.length_map]
    exact h.size_eq

theorem Represents.remove {t t' : Table V} {d : Dict K V} (h : Represents H key t d)
    (hd : Distinct H key t.entries) {k : K} (hes : t'.entries = Table.remove H key k t.entries) :
    Represents H key t' (d.remove H k) := by
  refine ⟨fun k' e => ?_, ?_⟩
  · rw [hes, Table.remove, List.mem_filter, Dict.remove]
    dsimp only
    split
    · next hk =>
        refine ⟨fun hex => (by cases hex), fun hex => ?_⟩
        obtain ⟨⟨-, hek⟩, hek'⟩ := hex
        rw [H.eq_trans hek' (H.eq_symm hk)] at hek
        cases hek
    · next hk =>
        rw [h.at_iff]
        refine ⟨fun hex => ⟨⟨hex.1, ?_⟩, hex.2⟩, fun hex => ⟨hex.1.1, hex.2⟩⟩
        rw [Bool.not_eq_true', ← Bool.not_eq_true]
        exact fun hek => hk (H.eq_trans (H.eq_symm hek) hex.2)
  · rw [Dict.remove, hes]
    dsimp only
    split
    · next hhas =>
        obtain ⟨w, hw, hk⟩ := h.has_iff.mp hhas
        obtain ⟨es, es', hsplit⟩ := List.append_of_mem hw
        rw [hsplit] at hd
        rw [h.size_eq, hsplit, remove_split (hd.split hk) hk, List.length_append,
          List.length_append, List.length_cons]
        omega
    · next hhas =>
        have habs : Absent H key t.entries k := by
          intro w hw
          rw [← Bool.not_eq_true]
          exact fun hk => hhas (h.has_iff.mpr ⟨w, hw, hk⟩)
        rw [h.size_eq, remove_absent habs]

theorem Represents.clear {t : Table V} : Represents H key t.clear (Dict.empty : Dict K V) :=
  represents_empty.perm (by rw [entries_clear]; exact List.Perm.refl _)

/-! ## Tombstones -/

def tombstones (slots : List (Slot V)) : Nat := slots.countP fun s => s.state = .tombstone

theorem tombstones_eq_zero {slots : List (Slot V)} (h : NoTombstone slots) :
    tombstones slots = 0 := by
  rw [tombstones, List.countP_eq_zero]
  intro s hs hst
  obtain ⟨i, hi⟩ := List.mem_iff_getElem?.mp hs
  exact h i s hi (by simpa using hst)

theorem tombstones_fill (slots : List (Slot V)) (i : Nat) (v : V) :
    tombstones (slots.set i ⟨.filled, v⟩) ≤ tombstones slots := by
  rw [tombstones, tombstones]
  rcases Nat.lt_or_ge i slots.length with hi | hi
  · rw [List.countP_set hi]
    exact Nat.sub_le _ _
  · rw [List.set_eq_of_length_le hi]

/-- A slot is filled, a tombstone, or empty. -/
theorem hasEmpty_of_lt {slots : List (Slot V)}
    (h : (entriesOf slots).length + tombstones slots < slots.length) : HasEmpty slots := by
  by_contra hfull
  have hcount := List.length_eq_countP_add_countP (fun s : Slot V => s.state = .filled)
    (l := slots)
  have hrest : slots.countP (fun s => ¬ decide (s.state = .filled) = true) = tombstones slots := by
    refine List.countP_congr fun s hs => ?_
    obtain ⟨i, hi⟩ := List.mem_iff_getElem?.mp hs
    obtain ⟨st, v⟩ := s
    cases st with
    | filled | tombstone => simp
    | empty => exact absurd ⟨i, v, hi⟩ hfull
  rw [hrest, ← length_entriesOf] at hcount
  omega

theorem maybeGrow_tombstones [Inhabited V] {t g : Table V} (h : Inv H key t)
    (hg : maybeGrow H key t = some g) : tombstones g.slots ≤ tombstones t.slots := by
  cases maybeGrow_cases hg with
  | first _ heq =>
      rw [heq, tombstones_eq_zero (noTombstone_freshSlots _)]
      exact Nat.zero_le _
  | doubled _ _ hre =>
      obtain ⟨-, -, -, hnt⟩ := rehash_spec h hre
      rw [tombstones_eq_zero hnt]
      exact Nat.zero_le _
  | kept _ _ heq => rw [heq]

/-- A table after at most `e` erases since the last `clear`. -/
structure Clean (H : Hashing K) (key : V → K) (t : Table V) (m e : Nat) : Prop where
  unique : Unique H key t
  counted : Counted t m
  tombstones_le : tombstones t.slots ≤ e

theorem clean_empty : Clean H key (Table.empty : Table V) 0 0 :=
  ⟨Unique.empty, counted_empty, Nat.le_refl 0⟩

/-- Three tombstones leave an empty slot. -/
theorem Clean.hasRoom {t : Table V} {m e : Nat} (h : Clean H key t m e) (hm : m < 2 ^ 56)
    (he : e ≤ 3) : HasRoom t := by
  obtain ⟨⟨hcount, hslots⟩, hdouble⟩ := h.counted.noWrap hm
  have htombs := h.tombstones_le
  by_cases h0 : t.cap = 0
  · exact Or.inl h0
  · cases hdue : t.growthDue with
    | true => exact Or.inr (Or.inl ⟨hdue, hdouble⟩)
    | false =>
        refine Or.inr (Or.inr ⟨hdue, hasEmpty_of_lt ?_⟩)
        have hload : maxLoadPct = 70 := rfl
        have hinit : initialCapacity = 8 := rfl
        have hpos : 0 < m := by
          by_contra hne
          rw [h.counted.cap_eq, Nat.eq_zero_of_not_pos hne] at h0
          exact h0 rfl
        have hcap := buckets_pos hpos
        rw [← h.counted.cap_eq] at hcap
        have hsize := h.unique.inv.size_eq
        have hlen : t.slots.length = t.cap := rfl
        rw [growthDue, wrap, wrap, Nat.mod_eq_of_lt hcount, Nat.mod_eq_of_lt hslots, hload,
          decide_eq_false_iff_not] at hdue
        rw [entries] at hsize
        omega

/-- What an insertion does to a table with room. -/
inductive Inserted (H : Hashing K) (key : V → K) (upd : V → V) (t t' : Table V) (v : V)
    (i : Nat) : Bool → Prop where
  | stored (habs : Absent H key t.entries (key v)) (hi : t'.slots[i]? = some ⟨.filled, v⟩)
      (hes : t'.entries.Perm (v :: t.entries)) : Inserted H key upd t t' v i true
  | updated {w : V} (hw : w ∈ t.entries) (hk : H.eq (key w) (key v) = true)
      (hi : t'.slots[i]? = some ⟨.filled, upd w⟩)
      (hes : t'.entries.Perm (assign H key upd (key v) t.entries)) :
      Inserted H key upd t t' v i false

/-- An insertion is defined and does one or the other. -/
theorem Clean.insert [Inhabited V] {t : Table V} {m e : Nat} (h : Clean H key t m e)
    (hm : m < 2 ^ 56) (he : e ≤ 3) (upd : V → V) (hupd : ∀ e, key (upd e) = key e) (v : V) :
    ∃ g t' i ins, maybeGrow H key t = some g ∧ insertProbe H key upd g v = some (t', i, ins) ∧
      Inserted H key upd t t' v i ins ∧ Unique H key t' ∧ tombstones t'.slots ≤ e := by
  obtain ⟨g, hg, hg0, hempty⟩ := (hasRoom_iff h.unique.inv).mp (h.hasRoom hm he)
  obtain ⟨hinv, -⟩ := maybeGrow_spec h.unique.inv hg
  have htombs := Nat.le_trans (maybeGrow_tombstones h.unique.inv hg) h.tombstones_le
  obtain ⟨t', i, ins, hp, hle⟩ : ∃ t' i ins, insertProbe H key upd g v = some (t', i, ins) ∧
      tombstones t'.slots ≤ e := by
    cases insertProbe_end hinv hg0 upd v with
    | found _ _ hr => exact ⟨_, _, _, hr, Nat.le_trans (tombstones_fill ..) htombs⟩
    | stored _ _ _ _ _ hr => exact ⟨_, _, _, hr, Nat.le_trans (tombstones_fill ..) htombs⟩
    | lost _ hfull _ => exact absurd hempty hfull
  obtain ⟨hu, heff⟩ := growInsert_effect h.unique upd hupd hg hp
  refine ⟨g, t', i, ins, hg, hp, ?_, hu, hle⟩
  cases heff with
  | stored habs hins hi hes => exact hins ▸ .stored habs hi hes
  | updated hw hk hins hi hes => exact hins ▸ .updated hw hk hi hes
  | lost _ hroom _ _ _ => exact absurd (h.hasRoom hm he) hroom

/-- An insertion adds its entry, where none is there, and then updates it. -/
theorem Inserted.represents {t t' : Table V} {d : Dict K V} {upd : V → V} {v : V} {i : Nat}
    {ins : Bool} (h : Inserted H key upd t t' v i ins) (hr : Represents H key t d)
    (hupd : ∀ e, key (upd e) = key e) (hv : upd v = v) :
    Represents H key t' ((d.add H key v).write H (key v) upd) ∧ ins = !d.has (key v) := by
  cases h with
  | stored habs hi hes =>
      have hadd := hr.add habs hes
      refine ⟨hadd.write hupd ?_, by rw [hr.has_false habs]; rfl⟩
      have hsame : assign H key upd (key v) (v :: t.entries) = v :: t.entries := by
        have hrest : assign H key upd (key v) t.entries = t.entries := assign_absent habs
        rw [assign, List.map_cons, if_pos (H.eq_refl _), hv]
        exact congrArg (v :: ·) hrest
      refine hes.trans ?_
      rw [← hsame]
      exact (hes.map _).symm
  | updated hw hk hi hes =>
      have hpres : Present H key t (key v) := ⟨_, hw, hk⟩
      rw [hr.add_present hpres, hr.has_iff.mpr hpres]
      exact ⟨hr.write hupd hes, rfl⟩

/-- The number of entries erased. -/
theorem erase_number {t : Table V} {d : Dict K V} (h : Inv H key t) (hr : Represents H key t d)
    (k : K) : (erase H key t k).2 = if d.has k then 1 else 0 := by
  have hnpos := findSlot_eq_npos h k
  rw [erase]
  split
  · next hn => rw [hr.has_false (hnpos.mp hn), if_neg Bool.false_ne_true]
  · next hn =>
      rw [if_pos]
      by_contra hhas
      refine hn (hnpos.mpr fun v hv => ?_)
      rw [← Bool.not_eq_true]
      exact fun hk => hhas (hr.has_iff.mpr ⟨v, hv, hk⟩)

/-- An erase leaves a tombstone if it finds its key. -/
theorem erase_tombstones (t : Table V) (k : K) :
    tombstones (erase H key t k).1.slots ≤ tombstones t.slots + (erase H key t k).2 := by
  rw [erase]
  split
  · exact Nat.le_refl _
  · rw [tombstones, tombstones, List.modify_eq_set_getElem?]
    cases hi : t.slots[findSlot H key t k]? with
    | none => exact Nat.le_succ _
    | some s =>
        have hlt := (List.getElem?_eq_some_iff.mp hi).1
        rw [Option.map_eq_map, Option.map_some, Option.getD_some, List.countP_set hlt]
        have := Nat.sub_le (t.slots.countP fun s => s.state = .tombstone)
          (if (decide (t.slots[findSlot H key t k].state = .tombstone)) = true then 1 else 0)
        simp only [decide_true, if_true]
        omega

theorem clear_tombstones (t : Table V) : tombstones t.clear.slots = 0 := by
  refine tombstones_eq_zero fun i s hs => ?_
  rw [clear, List.getElem?_map, Option.map_eq_some_iff] at hs
  obtain ⟨u, -, rfl⟩ := hs
  exact fun hst => by cases hst

/-- An iterator found is not the end. -/
theorem find_iff_has {t : Table V} {d : Dict K V} (h : Inv H key t) (hr : Represents H key t d)
    (k : K) : (find H key t k ≠ t.endIter) ↔ d.has k = true := by
  rw [find_iff_count h, ← contains_iff_count h, contains_iff h, hr.has_iff]
  exact Iff.rfl

end Table

/-! ## Programs -/

open Table

/-- An answer without the slots in it. -/
inductive DictOut (T : Type) where
  | flag (b : Bool)
  | value (x : T)
  | number (n : Nat)
  | done
deriving DecidableEq

def TableOut.observed {V T : Type} (t : Table V) : TableOut T → DictOut T
  | .iter _ inserted => .flag inserted
  | .ref _ x => .value x
  | .erased n => .number n
  | .found i => .flag (i ≠ t.endIter)
  | .done => .done

/-- Along the run of the dictionary, `erased` counts the keys that were erased
since the last `clear`, and never comes to more than `n`. -/
def FewErases {δ α ω : Type} (n : Nat) (onDict : δ → α → δ × ω) (erased : δ → Nat → α → Nat) :
    δ → Nat → List α → Prop
  | _, _, [] => True
  | d, e, a :: as =>
      erased d e a ≤ n ∧ FewErases n onDict erased (onDict d a).1 (erased d e a) as

instance {δ α ω : Type} (n : Nat) (onDict : δ → α → δ × ω) (erased : δ → Nat → α → Nat) :
    ∀ d e as, Decidable (FewErases n onDict erased d e as)
  | _, _, [] => isTrue trivial
  | d, e, a :: as =>
      have : Decidable (FewErases n onDict erased (onDict d a).1 (erased d e a) as) :=
        instDecidableFewErases n onDict erased _ _ as
      inferInstanceAs (Decidable (_ ∧ _))

/-- Every call of a program from the empty table is defined and answers what
the dictionary answers, and the table left holds what the dictionary does. -/
def LikeDict {K V T α : Type} (H : Hashing K) (key : V → K)
    (observe : Table V → α → Option (Table V × DictOut T))
    (onDict : Dict K V → α → Dict K V × DictOut T) (as : List α) : Prop :=
  ∃ t d outs, answersFrom observe Table.empty as = some (t, outs) ∧
    answersFrom (fun d a => some (onDict d a)) Dict.empty as = some (d, outs) ∧
    Represents H key t d

section

variable {K V T α : Type} {H : Hashing K} {key : V → K}
  {observe : Table V → α → Option (Table V × DictOut T)}
  {onDict : Dict K V → α → Dict K V × DictOut T} {erased : Dict K V → Nat → α → Nat}

/-- A call on a table is defined and answers `out`; the table left represents
`d'` and has no more than `e'` tombstones. -/
def Follows (H : Hashing K) (key : V → K) (r : Option (Table V × DictOut T))
    (d' : Dict K V × DictOut T) (e' : Nat) : Prop :=
  ∃ t', r = some (t', d'.2) ∧ Represents H key t' d'.1 ∧ tombstones t'.slots ≤ e'

/-- One call on a table that little was erased from. -/
def StepLikeDict (H : Hashing K) (key : V → K)
    (observe : Table V → α → Option (Table V × DictOut T))
    (onDict : Dict K V → α → Dict K V × DictOut T) (erased : Dict K V → Nat → α → Nat) :
    Prop :=
  ∀ t d m e a, Clean H key t m e → m < 2 ^ 56 → e ≤ 3 → Represents H key t d →
    ∃ t' m', observe t a = some (t', (onDict d a).2) ∧ Represents H key t' (onDict d a).1 ∧
      m' ≤ m + 1 ∧ Clean H key t' m' (erased d e a)

theorem stepLikeDict [Inhabited V] {next : Table V → α → Option (Table V)} {inserts : α → Bool}
    (hnext : ∀ t a, next t a = (observe t a).map Prod.fst)
    (hunique : ∀ t t' a, Unique H key t → next t a = some t' → Unique H key t')
    (hresized : ∀ t t' a, next t a = some t' → Resized H key t t' (inserts a))
    (hfollows : ∀ t d m e a, Clean H key t m e → m < 2 ^ 56 → e ≤ 3 → Represents H key t d →
      Follows H key (observe t a) (onDict d a) (erased d e a)) :
    StepLikeDict H key observe onDict erased := by
  intro t d m e a h hm he hr
  obtain ⟨t', hobs, hr', htombs⟩ := hfollows t d m e a h hm he hr
  have hn : next t a = some t' := by rw [hnext, hobs, Option.map_some]
  have hc := h.counted.step hm (hresized t t' a hn)
  have hsize := h.counted.size_le
  refine ⟨t', _, hobs, hr', ?_, ⟨hunique t t' a h.unique hn, hc, htombs⟩⟩
  split <;> omega

theorem likeDict_from (hstep : StepLikeDict H key observe onDict erased) {t : Table V}
    {d : Dict K V} {m e : Nat} (h : Clean H key t m e) (he : e ≤ 3)
    (hr : Represents H key t d) {as : List α} (hm : m + as.length ≤ 2 ^ 56)
    (hfew : FewErases 3 onDict erased d e as) :
    ∃ t' d' outs, answersFrom observe t as = some (t', outs) ∧
      answersFrom (fun d a => some (onDict d a)) d as = some (d', outs) ∧
      Represents H key t' d' := by
  induction as generalizing t d m e with
  | nil => exact ⟨t, d, [], rfl, rfl, hr⟩
  | cons a as ih =>
      rw [List.length_cons] at hm
      obtain ⟨he', hfew⟩ := hfew
      obtain ⟨t₁, m₁, hobs, hr₁, hm₁, h₁⟩ := hstep t d m e a h (by omega) he hr
      obtain ⟨t', d', outs, hts, hds, hr'⟩ := ih h₁ he' hr₁ (by omega) hfew
      refine ⟨t', d', (onDict d a).2 :: outs, ?_, ?_, hr'⟩
      · rw [answersFrom, hobs, Option.bind_some, hts]
        rfl
      · rw [answersFrom, Option.bind_some, hds]
        rfl

theorem likeDict (hstep : StepLikeDict H key observe onDict erased) {as : List α}
    (hlen : as.length ≤ 2 ^ 56) (hfew : FewErases 3 onDict erased Dict.empty 0 as) :
    LikeDict H key observe onDict as :=
  likeDict_from hstep clean_empty (Nat.zero_le _) represents_empty (by omega) hfew

end

/-! ## The calls of both tables -/

section

variable {K V T : Type} (H : Hashing K) (key : V → K)

/-- A call that both tables have, on a dictionary. -/
def Dict.call (d : Dict K V) : UniqueOp V K → Dict K V × DictOut T
  | .insert v => (d.add H key v, .flag (!d.has (key v)))
  | .erase k => (d.remove H k, .number (if d.has k then 1 else 0))
  | .find k => (d, .flag (d.has k))
  | .clear => (Dict.empty, .done)

/-- The keys erased since the last `clear`: an erase counts if it finds its
key. -/
def Dict.erasedBy (d : Dict K V) (e : Nat) : UniqueOp V K → Nat
  | .erase k => if d.has k then e + 1 else e
  | .clear => 0
  | .insert _ | .find _ => e

variable [Inhabited V] {H key} {t : Table V} {d : Dict K V} {m e : Nat}

/-- Such a call on a table and on the dictionary it represents. -/
theorem Table.Clean.follows (h : Clean H key t m e) (hm : m < 2 ^ 56) (he : e ≤ 3)
    (hr : Represents H key t d) (op : UniqueOp V K) :
    Follows (T := T) H key ((uniqueStep H key t op).map fun r => (r.1, r.2.observed r.1))
      (d.call H key op) (d.erasedBy e op) := by
  cases op with
  | insert v =>
      obtain ⟨g, t', i, ins, hg, hp, heff, -, htombs⟩ := h.insert hm he id (fun _ => rfl) v
      obtain ⟨hrep, hins⟩ := heff.represents hr (fun _ => rfl) rfl
      have hrun : Table.insert H key t v = some (t', t'.iterAt i, ins) :=
        insert_eq_some.mpr ⟨g, i, hg, hp, rfl⟩
      rw [Dict.write_id] at hrep
      refine ⟨t', ?_, hrep, htombs⟩
      rw [uniqueStep, hrun, Dict.call, ← hins]
      rfl
  | erase k =>
      obtain ⟨hinv, hes, -⟩ := erase_spec h.unique.inv h.unique.distinct k
      have hnum := erase_number h.unique.inv hr k
      refine ⟨(Table.erase H key t k).1, ?_, hr.remove h.unique.distinct hes, ?_⟩
      · rw [Dict.call, ← hnum]
        rfl
      · have htombs : tombstones (Table.erase H key t k).1.slots ≤ _ := erase_tombstones t k
        have hle := h.tombstones_le
        rw [hnum] at htombs
        rw [Dict.erasedBy]
        split at htombs <;> split <;> omega
  | find k =>
      have hfind : decide (Table.find H key t k ≠ t.endIter) = d.has k := by
        rw [Bool.eq_iff_iff, decide_eq_true_iff]
        exact find_iff_has h.unique.inv hr k
      refine ⟨t, ?_, hr, h.tombstones_le⟩
      rw [Dict.call, ← hfind]
      rfl
  | clear => exact ⟨t.clear, rfl, .clear, Nat.le_of_eq (clear_tombstones t)⟩

end

namespace UnorderedMap

variable {K T : Type} [Inhabited K] [Inhabited T] (H : Hashing K)

/-- A call, and what it answers. -/
def observe (t : Table (K × T)) (op : Op K T) : Option (Table (K × T) × DictOut T) :=
  (step H t op).map fun r => (r.1, r.2.observed r.1)

/-- The same call on a dictionary. -/
def onDict (d : Dict K (K × T)) : Op K T → Dict K (K × T) × DictOut T
  | .insert v => d.call H Prod.fst (.insert v)
  | .insertOrAssign k x =>
      ((d.add H Prod.fst (k, x)).write H k (withValue x), .flag (!d.has k))
  | .index k => (d.add H Prod.fst (k, default), .value ((d.at? k).elim default Prod.snd))
  | .indexAssign k x => ((d.add H Prod.fst (k, default)).write H k (withValue x), .value x)
  | .erase k => d.call H Prod.fst (.erase k)
  | .find k => d.call H Prod.fst (.find k)
  | .clear => d.call H Prod.fst .clear

def erased (d : Dict K (K × T)) (e : Nat) : Op K T → Nat
  | .erase k => d.erasedBy e (.erase k)
  | .clear => d.erasedBy e .clear
  | .insert _ | .insertOrAssign _ _ | .index _ | .indexAssign _ _ | .find _ => e

variable {H} {t : Table (K × T)} {d : Dict K (K × T)} {m e : Nat}

/-- `operator[]` is defined, and what it names is the entry of its key. -/
theorem index_defined (h : Clean H Prod.fst t m e) (hm : m < 2 ^ 56) (he : e ≤ 3)
    (hr : Represents H Prod.fst t d) (k : K) :
    ∃ t' i w, index H t k = some (t', i, w.2) ∧ t'.slots[i]? = some ⟨.filled, w⟩ ∧
      H.eq w.1 k = true ∧ w.2 = (d.at? k).elim default Prod.snd ∧
      Represents H Prod.fst t' (d.add H Prod.fst (k, default)) ∧ Unique H Prod.fst t' ∧
      tombstones t'.slots ≤ e := by
  obtain ⟨g, t', i, ins, hg, hp, heff, hu, htombs⟩ :=
    h.insert hm he id (fun _ => rfl) (k, default)
  obtain ⟨hrep, -⟩ := heff.represents hr (fun _ => rfl) rfl
  rw [Dict.write_id] at hrep
  cases heff with
  | stored habs hi hes =>
      have hat : d.at? k = none := by
        have := hr.has_false habs
        rwa [Dict.has, Option.isSome_eq_false_iff, Option.isNone_iff_eq_none] at this
      exact ⟨t', i, (k, default), index_eq_some.mpr ⟨g, _, _, hg, hp, hi, rfl⟩, hi, H.eq_refl k,
        by rw [hat]; rfl, hrep, hu, htombs⟩
  | @updated w hw hk hi hes =>
      have hat : d.at? k = some w := (hr.at_iff k w).mpr ⟨hw, hk⟩
      exact ⟨t', i, w, index_eq_some.mpr ⟨g, _, _, hg, hp, hi, rfl⟩, hi, hk,
        by rw [hat]; rfl, hrep, hu, htombs⟩

/-- One call on a table and on the dictionary it represents. -/
theorem observe_follows (h : Clean H Prod.fst t m e) (hm : m < 2 ^ 56) (he : e ≤ 3)
    (hr : Represents H Prod.fst t d) (op : Op K T) :
    Follows H Prod.fst (observe H t op) (onDict H d op) (erased d e op) := by
  cases op with
  | insert v => exact h.follows hm he hr (.insert v)
  | insertOrAssign k x =>
      obtain ⟨g, t', i, ins, hg, hp, heff, -, htombs⟩ :=
        h.insert hm he (withValue x) (fun _ => rfl) (k, x)
      obtain ⟨hrep, hins⟩ := heff.represents hr (fun _ => rfl) rfl
      refine ⟨t', ?_, hrep, htombs⟩
      rw [observe, step, insertOrAssign_eq_some.mpr ⟨g, i, hg, hp, rfl⟩, onDict, ← hins]
      rfl
  | index k =>
      obtain ⟨t', i, w, hidx, -, -, hval, hrep, -, htombs⟩ := index_defined h hm he hr k
      refine ⟨t', ?_, hrep, htombs⟩
      rw [observe, step, hidx, onDict, ← hval]
      rfl
  | indexAssign k x =>
      obtain ⟨t₁, i, w, hidx, hi, hk, -, hrep, hu, htombs⟩ := index_defined h hm he hr k
      have hrun : UnorderedMap.indexAssign H t k x =
          some (⟨t₁.slots.modify i fun s => ⟨s.state, withValue x s.kv⟩, t₁.size⟩, i) :=
        indexAssign_eq_some.mpr ⟨t₁, w.2, hidx, rfl⟩
      rw [modify_value (x := x) hi] at hrun
      obtain ⟨-, hes⟩ := assignAt_spec (x := x) hu hi hk
      refine ⟨⟨t₁.slots.set i ⟨.filled, withValue x w⟩, t₁.size⟩, ?_,
        hrep.write (fun _ => rfl) (List.Perm.of_eq hes), Nat.le_trans (tombstones_fill ..) htombs⟩
      rw [observe, step, hrun]
      rfl
  | erase k => exact h.follows hm he hr (.erase k)
  | find k => exact h.follows hm he hr (.find k)
  | clear => exact h.follows hm he hr .clear

/-- The state that a call leaves, without its answer. -/
theorem observed_next (H : Hashing K) (t : Table (K × T)) (op : Op K T) :
    next H t op = (observe H t op).map Prod.fst := by
  rw [observe, Option.map_map]
  rfl

theorem step_likeDict : StepLikeDict H Prod.fst (observe H) (onDict (T := T) H) erased :=
  stepLikeDict (observed_next H)
    (fun _ _ _ hu hn => next_unique hu hn) (fun _ _ _ hn => next_resized hn)
    fun _ _ _ _ op h hm he hr => observe_follows h hm he hr op

end UnorderedMap

namespace UnorderedSet

variable {K : Type} [Inhabited K] (H : Hashing K)

def observe (t : Table K) (op : Op K) : Option (Table K × DictOut Unit) :=
  (step H t op).map fun r => (r.1, r.2.observed r.1)

def onDict (d : Dict K K) (op : Op K) : Dict K K × DictOut Unit := d.call H id op.shared

def erased (d : Dict K K) (e : Nat) (op : Op K) : Nat := d.erasedBy e op.shared

variable {H}

/-- The state that a call leaves, without its answer. -/
theorem observed_next (H : Hashing K) (t : Table K) (op : Op K) :
    next H t op = (observe H t op).map Prod.fst := by
  rw [observe, Option.map_map]
  rfl

theorem step_likeDict : StepLikeDict H id (observe H) (onDict H) erased :=
  stepLikeDict (observed_next H)
    (fun _ _ _ hu hn => next_unique hu hn) (fun _ _ _ hn => next_resized hn)
    fun t _ _ _ op h hm he hr => by
      rw [observe, step_eq]
      exact h.follows hm he hr op.shared

end UnorderedSet

/-- A program that erases no more than three keys between one `clear` and the
next cannot tell the two tables with unique keys from dictionaries; one that
erases four can. -/
theorem tables_refine_dictionaries {K T : Type} [Inhabited K] [Inhabited T] (H : Hashing K) :
    (∀ ops : List (UnorderedMap.Op K T), ops.length ≤ 2 ^ 56 →
      FewErases 3 (UnorderedMap.onDict H) UnorderedMap.erased Dict.empty 0 ops →
      LikeDict H Prod.fst (UnorderedMap.observe H) (UnorderedMap.onDict H) ops) ∧
    (∀ ops : List (UnorderedSet.Op K), ops.length ≤ 2 ^ 56 →
      FewErases 3 (UnorderedSet.onDict H) UnorderedSet.erased Dict.empty 0 ops →
      LikeDict H id (UnorderedSet.observe H) (UnorderedSet.onDict H) ops) ∧
    ∃ ops : List (UnorderedSet.Op Nat),
      FewErases 4 (UnorderedSet.onDict natHashing) UnorderedSet.erased Dict.empty 0 ops ∧
      ¬ LikeDict natHashing id (UnorderedSet.observe natHashing)
        (UnorderedSet.onDict natHashing) ops := by
  refine ⟨fun ops hlen hfew => likeDict UnorderedMap.step_likeDict hlen hfew,
    fun ops hlen hfew => likeDict UnorderedSet.step_likeDict hlen hfew, ?_⟩
  -- Each `erase` makes room for one more key in a slot of its own.
  refine ⟨[.insert 1, .insert 2, .insert 3, .insert 4, .insert 5, .erase 1, .insert 6, .erase 2,
    .insert 7, .erase 3, .insert 8, .erase 4, .insert 9], by decide, fun hlike => ?_⟩
  obtain ⟨t, d, outs, ht, hd, -⟩ := hlike
  have houts := (congrArg (Option.map Prod.snd) ht).trans
    (congrArg (Option.map Prod.snd) hd).symm
  revert houts
  decide

/-- An erase that finds nothing does not count. -/
theorem tables_refine_dictionaries_small :
    LikeDict natHashing Prod.fst (UnorderedMap.observe natHashing)
      (UnorderedMap.onDict (T := Nat) natHashing)
      [.insert (1, 10), .indexAssign 1 11, .erase 1, .erase 1, .erase 1, .erase 1, .index 1] := by
  obtain ⟨hmap, -⟩ := tables_refine_dictionaries (T := Nat) natHashing
  exact hmap _ (by decide) (by decide)

end Ycetl.Ref
