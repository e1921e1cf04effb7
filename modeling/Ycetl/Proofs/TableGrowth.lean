import Ycetl.Lib.Doubling
import Ycetl.Proofs.UnorderedMulti
import Ycetl.Proofs.UnorderedPresent

/-!
# How large the open-addressing tables become

Every inserting call makes sure of room for one entry more than there are,
whether or not it then stores one, and no other call changes the number of
slots. A table is therefore as large as the most entries that an inserting
call has made room for, and has never been larger: eight slots, doubled until
70% of them are enough.

The products of the growth test are far from wrapping as long as the calls can
be counted in 56 bits.
-/

namespace Ycetl.Ref.Table

open Ycetl.Lib

variable {K V : Type} {H : Hashing K} {key : V → K}

/-- The least number of slots of which `n` entries take at most 70%. -/
def enough (n : Nat) : Nat := (n * 100 + (maxLoadPct - 1)) / maxLoadPct

/-- The slots of a table that made room for `n` entries at most. -/
def buckets (n : Nat) : Nat := if n = 0 then 0 else doubled initialCapacity (enough n)

theorem enough_le_iff {n c : Nat} : enough n ≤ c ↔ n * 100 ≤ c * maxLoadPct := by
  have hload : maxLoadPct = 70 := rfl
  rw [enough, hload]
  omega

theorem enough_max (m n : Nat) : enough (max m n) = max (enough m) (enough n) := by
  have hload : maxLoadPct = 70 := rfl
  rw [enough, enough, enough, hload]
  omega

theorem buckets_pos {n : Nat} (h : 0 < n) : initialCapacity ≤ buckets n := by
  rw [buckets, if_neg (Nat.pos_iff_ne_zero.mp h)]
  exact unit_le_doubled _ _

/-- Never more than 70%. -/
theorem load_buckets (n : Nat) : n * 100 ≤ buckets n * maxLoadPct := by
  rcases Nat.eq_zero_or_pos n with rfl | h
  · exact Nat.zero_le _
  · rw [buckets, if_neg (Nat.pos_iff_ne_zero.mp h)]
    exact enough_le_iff.mp (le_doubled (by decide) _)

theorem buckets_le {n : Nat} : buckets n ≤ 3 * n + 8 := by
  have hload : maxLoadPct = 70 := rfl
  have hinit : initialCapacity = 8 := rfl
  rw [buckets]
  split
  · exact Nat.zero_le _
  · rcases Nat.lt_or_ge initialCapacity (enough n) with hlt | hge
    · have htwice := doubled_lt (by decide) hlt
      rw [enough, hload] at htwice
      rw [enough, hload]
      omega
    · rw [doubled_of_le hge]
      omega

/-- One entry more than there ever were room for doubles at most. -/
theorem buckets_succ {m n : Nat} (hn : n ≤ m) (hm : 0 < m) :
    buckets (max m (n + 1)) =
      if (n + 1) * 100 ≤ buckets m * maxLoadPct then buckets m else 2 * buckets m := by
  have hload : maxLoadPct = 70 := rfl
  have hpos := buckets_pos hm
  have hle := load_buckets m
  have hinit : initialCapacity = 8 := rfl
  have hm0 : max m (n + 1) ≠ 0 := by omega
  have heq : buckets m = doubled initialCapacity (enough m) := by
    rw [buckets, if_neg (Nat.pos_iff_ne_zero.mp hm)]
  have hstep : enough (n + 1) ≤ 2 * buckets m := by
    rw [enough_le_iff, hload]
    rw [hload] at hle
    omega
  rw [heq] at hstep
  have hgrow := doubled_max (by decide) hstep
  rw [buckets, if_neg hm0, enough_max, hgrow, ← heq]
  simp only [enough_le_iff]

/-! ## One call -/

theorem length_placeLoop (v : V) (L : List Nat) (ns : List (Slot V)) :
    (placeLoop v L ns).length = ns.length := by
  induction L with
  | nil => rfl
  | cons i rest ih =>
      rw [placeLoop]
      split
      · exact List.length_set
      · exact ih

theorem length_rehashLoop (newCap : Nat) (old ns : List (Slot V)) :
    (rehashLoop H key newCap old ns).length = ns.length := by
  induction old generalizing ns with
  | nil => rfl
  | cons s rest ih =>
      obtain ⟨st, v⟩ := s
      cases st with
      | filled => exact (ih _).trans (length_placeLoop ..)
      | empty | tombstone => exact ih ns

theorem length_insertFreeLoop (v : V) (slots : List (Slot V)) (L : List Nat) :
    (insertFreeLoop v slots L).1.length = slots.length := by
  induction L with
  | nil => rfl
  | cons i rest ih =>
      rw [insertFreeLoop]
      split
      · exact ih
      · exact List.length_set
      · rfl

theorem length_eraseLoop (k : K) (L : List Nat) (slots : List (Slot V)) (removed : Nat) :
    (eraseLoop H key k L slots removed).1.length = slots.length := by
  induction L generalizing slots removed with
  | nil => rfl
  | cons i rest ih =>
      rw [eraseLoop]
      split
      · rfl
      · split
        · exact (ih ..).trans List.length_set
        · exact ih ..
      · exact ih ..
      · rfl

/-- What a call does to the number of slots and to the count; an inserting
call makes room first. -/
inductive Resized [Inhabited V] (H : Hashing K) (key : V → K) (t t' : Table V) : Bool → Prop where
  | inserting {g : Table V} (hg : maybeGrow H key t = some g) (hcap : t'.cap = g.cap)
      (hsize : t'.size ≤ t.size + 1) : Resized H key t t' true
  | other (hcap : t'.cap = t.cap) (hsize : t'.size ≤ t.size) : Resized H key t t' false

/-- A write through a reference changes neither. -/
theorem Resized.write [Inhabited V] {t t₁ t' : Table V} {b : Bool} (h : Resized H key t t₁ b)
    (hcap : t'.cap = t₁.cap) (hsize : t'.size = t₁.size) : Resized H key t t' b := by
  cases h with
  | inserting hg hcap₁ hsize₁ => exact .inserting hg (hcap.trans hcap₁) (hsize ▸ hsize₁)
  | other hcap₁ hsize₁ => exact .other (hcap.trans hcap₁) (hsize ▸ hsize₁)

/-- The table has made room for `m` entries at most. -/
structure Counted (t : Table V) (m : Nat) : Prop where
  cap_eq : t.cap = buckets m
  size_le : t.size ≤ m

theorem counted_empty : Counted (Table.empty : Table V) 0 := ⟨rfl, Nat.le_refl 0⟩

/-- Below 2^56 nothing wraps. -/
theorem Counted.noWrap {t : Table V} {m : Nat} (h : Counted t m) (hm : m < 2 ^ 56) :
    NoWrap t ∧ t.cap * 2 < sizeMod := by
  have hload : maxLoadPct = 70 := rfl
  have hmod : sizeMod = 2 ^ 64 := rfl
  have hle := buckets_le (n := m)
  have hsize := h.size_le
  rw [← h.cap_eq] at hle
  rw [NoWrap, hload, hmod]
  omega

section

variable [Inhabited V]

theorem maybeGrow_size {t g : Table V} (hg : maybeGrow H key t = some g) : g.size = t.size := by
  cases maybeGrow_cases hg with
  | first _ heq => rw [heq]
  | doubled _ _ hre =>
      rw [rehash] at hre
      split at hre
      · cases hre
      · rw [← Option.some.inj hre]
  | kept _ _ heq => rw [heq]

theorem rehash_cap {t g : Table V} {newCap : Nat} (hre : rehash H key newCap t = some g) :
    g.cap = newCap := by
  rw [rehash] at hre
  split at hre
  · cases hre
  · rw [← Option.some.inj hre]
    exact (length_rehashLoop ..).trans (length_freshSlots newCap)

/-- Room is made for one more entry than there are. -/
theorem Counted.grow {t g : Table V} {m : Nat} (h : Counted t m) (hm : m < 2 ^ 56)
    (hg : maybeGrow H key t = some g) : g.cap = buckets (max m (t.size + 1)) := by
  obtain ⟨⟨hcount, hslots⟩, hdouble⟩ := h.noWrap hm
  have hsize := h.size_le
  cases maybeGrow_cases hg with
  | first h0 heq =>
      have hm0 : m = 0 := by
        by_contra hne
        have := buckets_pos (Nat.pos_of_ne_zero hne)
        rw [← h.cap_eq, h0] at this
        exact absurd this (by decide)
      have hmax : max m (t.size + 1) = 1 := by omega
      rw [hmax, heq]
      exact (length_freshSlots initialCapacity).trans (by decide)
  | doubled h0 hdue hre =>
      have hpos : 0 < m := by
        by_contra hne
        rw [h.cap_eq, Nat.eq_zero_of_not_pos hne] at h0
        exact h0 rfl
      rw [growthDue, wrap, wrap, Nat.mod_eq_of_lt hcount, Nat.mod_eq_of_lt hslots,
        decide_eq_true_iff] at hdue
      rw [rehash_cap hre, wrap, Nat.mod_eq_of_lt hdouble, buckets_succ hsize hpos, ← h.cap_eq,
        if_neg (Nat.not_le.mpr hdue), Nat.mul_comm]
  | kept h0 hdue heq =>
      have hpos : 0 < m := by
        by_contra hne
        rw [h.cap_eq, Nat.eq_zero_of_not_pos hne] at h0
        exact h0 rfl
      rw [growthDue, wrap, wrap, Nat.mod_eq_of_lt hcount, Nat.mod_eq_of_lt hslots,
        decide_eq_false_iff_not] at hdue
      rw [heq, buckets_succ hsize hpos, ← h.cap_eq, if_pos (Nat.not_lt.mp hdue)]

theorem Counted.step {t t' : Table V} {m : Nat} (h : Counted t m) (hm : m < 2 ^ 56) {b : Bool}
    (hr : Resized H key t t' b) : Counted t' (max m (if b then t.size + 1 else 0)) := by
  have hsize := h.size_le
  cases hr with
  | inserting hg hcap hsize' =>
      rw [if_pos rfl]
      exact ⟨hcap.trans (h.grow hm hg), Nat.le_trans hsize' (Nat.le_max_right _ _)⟩
  | other hcap hsize' =>
      rw [if_neg Bool.false_ne_true, Nat.max_zero]
      exact ⟨hcap.trans h.cap_eq, Nat.le_trans hsize' hsize⟩

/-- The body of the inserting calls of the tables with unique keys. -/
theorem growProbe_resized {t g t' : Table V} {upd : V → V} {v : V} {j : Nat} {ins : Bool}
    (hg : maybeGrow H key t = some g)
    (hp : insertProbe H key upd g v = some (t', j, ins)) : Resized H key t t' true := by
  refine .inserting hg (insertProbe_cap hp) ?_
  rw [insertProbe] at hp
  split at hp
  · cases hp
  · cases hp
    rw [← maybeGrow_size hg]
    split
    · exact Nat.le_refl _
    · exact Nat.le_succ _

/-- That of the tables that keep duplicates. -/
theorem insertImpl_resized {t t' : Table V} {v : V} {i : Nat}
    (hr : insertImpl H key t v = some (t', i)) : Resized H key t t' true := by
  rw [insertImpl, Option.bind_eq_bind] at hr
  obtain ⟨g, hg, hrest⟩ := Option.bind_eq_some_iff.mp hr
  split at hrest
  · cases hrest
  · cases hrest
    refine .inserting hg (length_insertFreeLoop ..) ?_
    rw [← maybeGrow_size hg]
    dsimp only
    split
    · exact Nat.le_refl _
    · exact Nat.le_succ _

theorem erase_resized (t : Table V) (k : K) : Resized H key t (erase H key t k).1 false := by
  rw [erase]
  split
  · exact .other rfl (Nat.le_refl _)
  · exact .other (List.length_modify ..) (Nat.sub_le ..)

theorem eraseAll_resized (t : Table V) (k : K) :
    Resized H key t (eraseAll H key t k).1 false := by
  rw [eraseAll]
  split
  · exact .other rfl (Nat.le_refl _)
  · exact .other (length_eraseLoop ..) (Nat.sub_le ..)

theorem clear_resized (t : Table V) : Resized H key t t.clear false :=
  .other (List.length_map ..) (Nat.zero_le _)

theorem same_resized (t : Table V) : Resized H key t t false := .other rfl (Nat.le_refl _)

/-! ## Runs -/

variable {α : Type}

/-- The most entries that an inserting call of a run makes room for. -/
def madeRoom (step : Table V → α → Option (Table V)) (inserts : α → Bool) :
    Table V → List α → Nat
  | _, [] => 0
  | t, a :: as =>
      max (if inserts a then t.size + 1 else 0)
        ((step t a).elim 0 fun t' => madeRoom step inserts t' as)

variable {step : Table V → α → Option (Table V)} {inserts : α → Bool}

theorem Counted.run (hstep : ∀ t a t', step t a = some t' → Resized H key t t' (inserts a))
    {t t' : Table V} {m : Nat} (h : Counted t m) {as : List α} (hm : m + as.length ≤ 2 ^ 56)
    (hrun : runFrom step t as = some t') :
    Counted t' (max m (madeRoom step inserts t as)) := by
  induction as generalizing t m with
  | nil =>
      rw [runFrom_nil, Option.some.injEq] at hrun
      rw [madeRoom, Nat.max_zero]
      exact hrun ▸ h
  | cons a as ih =>
      rw [List.length_cons] at hm
      obtain ⟨t₁, ha, has⟩ := runFrom_cons_some hrun
      have hsize := h.size_le
      have h₁ := h.step (by omega) (hstep t a t₁ ha)
      rw [madeRoom, ha, ← Nat.max_assoc]
      refine ih h₁ ?_ has
      split <;> omega

theorem Counted.along_noWrap
    (hstep : ∀ t a t', step t a = some t' → Resized H key t t' (inserts a))
    {t : Table V} {m : Nat} (h : Counted t m) {as : List α} (hm : m + as.length ≤ 2 ^ 56) :
    Along step (fun t _ => NoWrap t) t as := by
  induction as generalizing t m with
  | nil => trivial
  | cons a as ih =>
      rw [List.length_cons] at hm
      have hsize := h.size_le
      refine ⟨(h.noWrap (by omega)).1, fun t₁ ha => ?_⟩
      refine ih (h.step (by omega) (hstep t a t₁ ha)) ?_
      split <;> omega

/-- What a run that can be counted in 56 bits does: nothing wraps, and it ends
with the slots that the most of its insertions needed. -/
structure Measured (step : Table V → α → Option (Table V)) (inserts : α → Bool) (as : List α) :
    Prop where
  noWrap : Along step (fun t _ => NoWrap t) Table.empty as
  cap_eq : ∀ t, runFrom step Table.empty as = some t →
    t.cap = buckets (madeRoom step inserts Table.empty as)
  load_le : ∀ t, runFrom step Table.empty as = some t → t.size * 100 ≤ t.cap * maxLoadPct

theorem measured (hstep : ∀ t a t', step t a = some t' → Resized H key t t' (inserts a))
    {as : List α} (hlen : as.length ≤ 2 ^ 56) : Measured step inserts as := by
  have hm : 0 + as.length ≤ 2 ^ 56 := by rwa [Nat.zero_add]
  have hrun : ∀ t, runFrom step Table.empty as = some t →
      Counted t (madeRoom step inserts Table.empty as) := by
    intro t ht
    have hc := counted_empty.run hstep hm ht
    rwa [Nat.zero_max] at hc
  refine ⟨counted_empty.along_noWrap hstep hm, fun t ht => (hrun t ht).cap_eq, fun t ht => ?_⟩
  have hc := hrun t ht
  have hload := load_buckets (madeRoom step inserts Table.empty as)
  rw [hc.cap_eq]
  exact Nat.le_trans (Nat.mul_le_mul_right 100 hc.size_le) hload

end

end Ycetl.Ref.Table

namespace Ycetl.Ref

open Ycetl.Lib Table

namespace UnorderedMap

variable {K T : Type} [Inhabited K] [Inhabited T] {H : Hashing K}

def inserts (op : Op K T) : Bool := (insertedKey op).isSome

theorem next_resized {t t' : Table (K × T)} {op : Op K T} (hn : next H t op = some t') :
    Resized H Prod.fst t t' (inserts op) := by
  obtain ⟨⟨t₁, out⟩, hs, rfl⟩ := Option.map_eq_some_iff.mp hn
  cases op with
  | insert v =>
      obtain ⟨⟨t₁, i, ins⟩, hr, heq⟩ := Option.map_eq_some_iff.mp hs
      cases heq
      obtain ⟨g, j, hg, hp, -⟩ := insert_eq_some.mp hr
      exact growProbe_resized hg hp
  | insertOrAssign k x =>
      obtain ⟨⟨t₁, i, ins⟩, hr, heq⟩ := Option.map_eq_some_iff.mp hs
      cases heq
      obtain ⟨g, j, hg, hp, -⟩ := insertOrAssign_eq_some.mp hr
      exact growProbe_resized hg hp
  | index k =>
      obtain ⟨⟨t₁, i, x⟩, hr, heq⟩ := Option.map_eq_some_iff.mp hs
      cases heq
      obtain ⟨g, ins, s, hg, hp, -⟩ := index_eq_some.mp hr
      exact growProbe_resized hg hp
  | indexAssign k x =>
      obtain ⟨⟨t₁, i⟩, hr, heq⟩ := Option.map_eq_some_iff.mp hs
      cases heq
      obtain ⟨t₂, y, hr', rfl⟩ := indexAssign_eq_some.mp hr
      obtain ⟨g, ins, s, hg, hp, -⟩ := index_eq_some.mp hr'
      exact (growProbe_resized hg hp).write (List.length_modify ..) rfl
  | erase k =>
      cases hs
      exact erase_resized t k
  | find k =>
      cases hs
      exact same_resized t
  | clear =>
      cases hs
      exact clear_resized t

end UnorderedMap

namespace UnorderedSet

variable {K : Type} [Inhabited K] {H : Hashing K}

def inserts (op : Op K) : Bool := (insertedKey op).isSome

theorem next_resized {t t' : Table K} {op : Op K} (hn : next H t op = some t') :
    Resized H id t t' (inserts op) := by
  obtain ⟨⟨t₁, out⟩, hs, rfl⟩ := Option.map_eq_some_iff.mp hn
  cases op with
  | insert k | emplace k =>
      obtain ⟨⟨t₁, i, ins⟩, hr, heq⟩ := Option.map_eq_some_iff.mp hs
      cases heq
      obtain ⟨g, j, hg, hp, -⟩ := insert_eq_some.mp hr
      exact growProbe_resized hg hp
  | erase k =>
      cases hs
      exact erase_resized t k
  | find k =>
      cases hs
      exact same_resized t
  | clear =>
      cases hs
      exact clear_resized t

end UnorderedSet

/-- Which calls of the tables with duplicates insert. -/
def MultiOp.inserts {V K : Type} : MultiOp V K → Bool
  | .insert _ => true
  | .erase _ | .find _ | .contains _ | .count _ | .clear => false

theorem Table.multiNext_resized {K V : Type} [Inhabited V] {H : Hashing K} {key : V → K}
    {t t' : Table V} {op : MultiOp V K} (hn : multiNext H key t op = some t') :
    Resized H key t t' op.inserts := by
  obtain ⟨⟨t₁, out⟩, hs, rfl⟩ := Option.map_eq_some_iff.mp hn
  cases op with
  | insert v =>
      obtain ⟨⟨t₁, i⟩, hr, heq⟩ := Option.map_eq_some_iff.mp hs
      cases heq
      exact insertImpl_resized hr
  | erase k =>
      cases hs
      exact eraseAll_resized t k
  | find | contains | count =>
      cases hs
      exact same_resized t
  | clear =>
      cases hs
      exact clear_resized t

namespace UnorderedMultiset

variable {K : Type} [Inhabited K] {H : Hashing K}

def inserts (op : Op K) : Bool := op.onBag.inserts

theorem next_resized {t t' : Table K} {op : Op K} (hn : next H t op = some t') :
    Resized H id t t' (inserts op) := by
  rw [next_eq] at hn
  exact multiNext_resized hn

end UnorderedMultiset

/-- In every run of each of the four tables the number of slots is that which
the most of its insertions needed, and nothing wraps on the way there. -/
theorem bucket_counts_exact {K T : Type} [Inhabited K] [Inhabited T] (H : Hashing K) :
    (∀ ops : List (UnorderedMap.Op K T), ops.length ≤ 2 ^ 56 →
      Measured (UnorderedMap.next H) UnorderedMap.inserts ops) ∧
    (∀ ops : List (UnorderedSet.Op K), ops.length ≤ 2 ^ 56 →
      Measured (UnorderedSet.next H) UnorderedSet.inserts ops) ∧
    (∀ ops : List (MultiOp (K × T) K), ops.length ≤ 2 ^ 56 →
      Measured (UnorderedMultimap.next H) MultiOp.inserts ops) ∧
    ∀ ops : List (UnorderedMultiset.Op K), ops.length ≤ 2 ^ 56 →
      Measured (UnorderedMultiset.next H) UnorderedMultiset.inserts ops :=
  ⟨fun _ hlen => measured (fun _ _ _ hn => UnorderedMap.next_resized hn) hlen,
    fun _ hlen => measured (fun _ _ _ hn => UnorderedSet.next_resized hn) hlen,
    fun _ hlen => measured (fun _ _ _ hn => multiNext_resized hn) hlen,
    fun _ hlen => measured (fun _ _ _ hn => UnorderedMultiset.next_resized hn) hlen⟩

/-- Six keys are more than 70% of eight slots. -/
theorem bucket_counts_small :
    ∃ t : Table Nat, runFrom (UnorderedSet.next natHashing) Table.empty
        [.insert 1, .insert 2, .insert 3, .insert 4, .insert 5, .erase 1, .insert 1, .insert 6]
          = some t ∧ t.cap = 16 := by
  have hrun : runFrom (UnorderedSet.next natHashing) Table.empty
      [.insert 1, .insert 2, .insert 3, .insert 4, .insert 5, .erase 1, .insert 1, .insert 6]
        = some _ := rfl
  obtain ⟨-, hset, -⟩ := bucket_counts_exact (T := Nat) natHashing
  exact ⟨_, hrun, ((hset _ (by decide)).cap_eq _ hrun).trans (by decide)⟩

end Ycetl.Ref
