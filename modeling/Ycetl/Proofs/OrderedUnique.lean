import Ycetl.Lib.Runs
import Ycetl.Proofs.OrderedOps

/-!
# `map` and `set` refine a finite sorted map

The abstract map is a partial function on keys that does not tell equivalent
keys apart, and a call updates it at one class of keys. What the array does is
read off the place of a key: the lower bound splits the entries into those
below and those not below, and either the first of the latter is the entry of
the key, and all others are above it, or they all are. `place` is that case
split, and every call is one look at it.
-/

namespace Ycetl.Ref

open Ycetl.Lib

/-! ## The abstract map -/

/-- A partial function on keys, by the entry it has for each. -/
abbrev FiniteMap (K V : Type) : Type := K → Option V

namespace FiniteMap

variable {K V T : Type}

def empty : FiniteMap K V := fun _ => none

/-- The map at the class of `k` replaced. -/
def update (C : WeakOrder K) (m : FiniteMap K V) (k : K) (o : Option V) : FiniteMap K V :=
  fun k' => if C.equiv k' k then o else m k'

/-- What a call answers: whether it inserted and the entry it points to, a
mapped value, a number of erased entries, an entry if there is one. -/
inductive Answer (V T : Type) where
  | inserted (b : Bool) (entry : Option V)
  | value (x : T)
  | erased (n : Nat)
  | entry (o : Option V)
  | done

/-- An insert that keeps the entry that is there. -/
def insert (C : WeakOrder K) (key : V → K) (m : FiniteMap K V) (v : V) :
    FiniteMap K V × Answer V T :=
  match m (key v) with
  | some w => (m, .inserted false (some w))
  | none => (update C m (key v) (some v), .inserted true (some v))

def erase (C : WeakOrder K) (m : FiniteMap K V) (k : K) : FiniteMap K V × Answer V T :=
  match m k with
  | some _ => (update C m k none, .erased 1)
  | none => (m, .erased 0)

end FiniteMap

namespace Ordered

variable {K V T : Type} {C : WeakOrder K} {key : V → K} {t : Ordered V} {l xs ys : List V}
  {k : K} {v : V}

/-- The map the entries stand for. -/
def lookup (C : WeakOrder K) (key : V → K) (l : List V) : FiniteMap K V := fun k =>
  l.find? fun e => C.equiv (key e) k

/-- The answer of the container's own result. -/
def answer (t : Ordered V) : OrderedOut T → FiniteMap.Answer V T
  | .iter i b => .inserted b (t.at? i)
  | .ref _ x => .value x
  | .erased n => .erased n
  | .found i => .entry (t.at? i)
  | .done => .done

/-- The entries on the two sides of a key. -/
structure Around (C : WeakOrder K) (key : V → K) (k : K) (xs ys : List V) : Prop where
  below : ∀ e ∈ xs, C.lt (key e) k = true
  above : ∀ e ∈ ys, C.lt k (key e) = true

/-! ## Place and lookup -/

theorem Around.not_equiv (h : Around C key k xs ys) {k' : K} (hk : C.equiv k' k = true) :
    lookup C key (xs ++ ys) k' = none := by
  refine List.find?_eq_none.mpr fun e he => ?_
  rw [WeakOrder.equiv_congr hk, WeakOrder.equiv_iff]
  intro hex
  obtain ⟨hlt, hgt⟩ := hex
  rcases List.mem_append.mp he with hx | hy
  · rw [h.below e hx] at hlt
    cases hlt
  · rw [h.above e hy] at hgt
    cases hgt

/-- With the entry of `k` between its neighbours, the map has it at the keys
equivalent to `k` and is the map of the neighbours elsewhere. -/
theorem Around.lookup_eq (h : Around C key k xs ys) (hv : C.equiv (key v) k = true) :
    lookup C key (xs ++ v :: ys) =
      FiniteMap.update C (lookup C key (xs ++ ys)) k (some v) := by
  funext k'
  rw [FiniteMap.update]
  have hiff : C.equiv (key v) k' = C.equiv k' k := by
    rw [WeakOrder.equiv_comm, WeakOrder.equiv_congr hv]
  cases hk : C.equiv k' k with
  | true =>
      have hnone := h.not_equiv hk
      rw [lookup, List.find?_append, Option.or_eq_none_iff] at hnone
      rw [if_pos rfl, lookup, List.find?_append, hnone.1, Option.none_or,
        List.find?_cons_of_pos (by rw [hiff, hk])]
  | false =>
      rw [if_neg (by simp), lookup, lookup, List.find?_append, List.find?_append,
        List.find?_cons_of_neg (by rw [hiff, hk]; simp)]

theorem Around.ascending (h : Around C key k xs ys) (hv : C.equiv (key v) k = true)
    (ha : C.Ascending key (xs ++ ys)) : C.Ascending key (xs ++ v :: ys) := by
  obtain ⟨hx, hy, hxy⟩ := List.pairwise_append.mp ha
  refine List.pairwise_append.mpr ⟨hx, List.pairwise_cons.mpr ⟨fun e he => ?_, hy⟩, ?_⟩
  · rw [WeakOrder.lt_congr_left hv]
    exact h.above e he
  · intro e he f hf
    rcases List.mem_cons.mp hf with rfl | hf
    · rw [WeakOrder.lt_congr_right hv]
      exact h.below e he
    · exact hxy e he f hf

theorem ascending_of_cons (ha : C.Ascending key (xs ++ v :: ys)) :
    C.Ascending key (xs ++ ys) :=
  List.Pairwise.sublist (List.Sublist.append (List.Sublist.refl xs)
    (List.sublist_cons_self v ys)) ha

/-- The place of a key: its entry is at the lower bound, or it has none and
could be put there. -/
theorem Holds.place (h : Holds t l) (ha : C.Ascending key l) (k : K) :
    (∃ xs v ys, l = xs ++ v :: ys ∧ Around C key k xs ys ∧ C.equiv (key v) k = true ∧
      lowerBoundIndex C key t k = some xs.length ∧ hit C key t k xs.length = some true) ∨
      ∃ xs ys, l = xs ++ ys ∧ Around C key k xs ys ∧
        lowerBoundIndex C key t k = some xs.length ∧
        hit C key t k xs.length = some false := by
  obtain ⟨xs, es, ys, rfl, hxs, hes, hys, hlow, -⟩ := ha.sorted.split k
  have hlb := h.lowerBoundIndex_eq ha.sorted k
  rw [hlow] at hlb
  cases es with
  | nil =>
      rw [List.append_nil] at h
      refine Or.inr ⟨xs, ys, by rw [List.append_nil], ⟨hxs, hys⟩, hlb, ?_⟩
      cases ys with
      | nil => rw [List.append_nil] at h; exact h.hit_end
      | cons y ys =>
          rw [h.hit_some (getElem?_length_append xs ys y), hys y (by simp)]
          rfl
  | cons v es =>
      -- Two entries of the run would be equivalent and one below the other.
      have hnil : es = [] := by
        cases es with
        | nil => rfl
        | cons w es =>
            have hvw := (List.pairwise_cons.mp (List.pairwise_append.mp
              (List.pairwise_append.mp ha).1).2.1).1 w (by simp)
            have hv := hes v (by simp)
            have hw := hes w (by simp)
            rw [WeakOrder.lt_congr_left hv, (WeakOrder.equiv_iff.mp hw).2] at hvw
            cases hvw
      subst hnil
      rw [List.append_assoc, List.singleton_append] at h ⊢
      have hv := hes v (by simp)
      refine Or.inl ⟨xs, v, ys, rfl, ⟨hxs, hys⟩, hv, hlb, ?_⟩
      rw [h.hit_some (getElem?_length_append xs ys v), (WeakOrder.equiv_iff.mp hv).2]
      rfl

/-! ## Calls -/

/-- The array is in ascending order and stands for the map. -/
structure Denotes (C : WeakOrder K) (key : V → K) (t : Ordered V) (l : List V)
    (m : FiniteMap K V) : Prop where
  holds : Holds t l
  ascending : C.Ascending key l
  lookup_eq : lookup C key l = m

theorem denotes_empty : Denotes C key (empty : Ordered V) [] FiniteMap.empty :=
  ⟨holds_empty, List.Pairwise.nil, rfl⟩

variable {m : FiniteMap K V}

/-- A call ends in an array that stands for the map the abstract call ends in,
and answers what that call answers. -/
def Agrees (C : WeakOrder K) (key : V → K) (r : Option (Ordered V × OrderedOut T))
    (r' : FiniteMap K V × FiniteMap.Answer V T) : Prop :=
  ∃ t' out l', r = some (t', out) ∧ Denotes C key t' l' r'.1 ∧ answer t' out = r'.2

/-- What the place of a key means for the map. -/
theorem Denotes.place (h : Denotes C key t l m) (k : K) :
    (∃ xs v ys, l = xs ++ v :: ys ∧ Around C key k xs ys ∧ C.equiv (key v) k = true ∧
      lowerBoundIndex C key t k = some xs.length ∧
      hit C key t k xs.length = some true ∧ m k = some v ∧ t.at? xs.length = some v) ∨
      ∃ xs ys, l = xs ++ ys ∧ Around C key k xs ys ∧
        lowerBoundIndex C key t k = some xs.length ∧
        hit C key t k xs.length = some false ∧ m k = none := by
  rcases h.holds.place h.ascending k with
    ⟨xs, v, ys, rfl, har, hv, hlb, hhit⟩ | ⟨xs, ys, rfl, har, hlb, hhit⟩
  · refine Or.inl ⟨xs, v, ys, rfl, har, hv, hlb, hhit, ?_, ?_⟩
    · rw [← h.lookup_eq, har.lookup_eq hv, FiniteMap.update,
        if_pos (WeakOrder.equiv_refl k)]
    · rw [h.holds.at?_eq, getElem?_length_append]
  · refine Or.inr ⟨xs, ys, rfl, har, hlb, hhit, ?_⟩
    rw [← h.lookup_eq]
    exact har.not_equiv (WeakOrder.equiv_refl k)

/-- An entry is put in its place. -/
theorem Denotes.insertAt (h : Denotes C key t (xs ++ ys) m) (har : Around C key k xs ys)
    (hv : C.equiv (key v) k = true) :
    Denotes C key (t.insertAt xs.length v) (xs ++ v :: ys)
        (FiniteMap.update C m k (some v)) ∧
      (t.insertAt xs.length v).at? xs.length = some v := by
  have hh := h.holds.insertAt (by simp : xs.length ≤ (xs ++ ys).length) v
  rw [insertIdx_length_append] at hh
  refine ⟨⟨hh, har.ascending hv h.ascending, ?_⟩, ?_⟩
  · rw [har.lookup_eq hv, h.lookup_eq]
  · rw [hh.at?_eq, getElem?_length_append]

/-- An entry is replaced by one with the same key. -/
theorem Denotes.write (h : Denotes C key t (xs ++ v :: ys) m)
    (har : Around C key k xs ys) (hv : C.equiv (key v) k = true) {w : V}
    (hw : key w = key v) :
    Denotes C key (t.write xs.length w) (xs ++ w :: ys)
        (FiniteMap.update C m k (some w)) ∧
      (t.write xs.length w).at? xs.length = some w := by
  have hh := h.holds.write (by simp : xs.length < (xs ++ v :: ys).length) w
  rw [List.set_append_right _ _ (Nat.le_refl _), Nat.sub_self, List.set_cons_zero] at hh
  have hwk : C.equiv (key w) k = true := hw ▸ hv
  refine ⟨⟨hh, har.ascending hwk (ascending_of_cons h.ascending), ?_⟩, ?_⟩
  · rw [har.lookup_eq hwk, ← h.lookup_eq, har.lookup_eq hv]
    funext k'
    rw [FiniteMap.update, FiniteMap.update, FiniteMap.update]
    split <;> rfl
  · rw [hh.at?_eq, getElem?_length_append]

/-- An entry is taken out. -/
theorem Denotes.removeAt (h : Denotes C key t (xs ++ v :: ys) m)
    (har : Around C key k xs ys) (hv : C.equiv (key v) k = true) :
    Denotes C key (t.removeAt xs.length 1) (xs ++ ys) (FiniteMap.update C m k none) := by
  have hh := h.holds.removeAt Nat.one_pos
    (show xs.length + 1 ≤ (xs ++ v :: ys).length by simp)
  rw [List.take_left' rfl, List.drop_append, List.drop_eq_nil_of_le (by omega),
    Nat.add_sub_cancel_left, List.drop_one, List.tail_cons, List.nil_append] at hh
  refine ⟨hh, ascending_of_cons h.ascending, ?_⟩
  rw [← h.lookup_eq, har.lookup_eq hv]
  funext k'
  rw [FiniteMap.update, FiniteMap.update]
  split
  · next hk => exact har.not_equiv hk
  · rfl

theorem Denotes.insert_agrees (h : Denotes C key t l m) (v : V) :
    Agrees (T := T) C key ((insert C key t v).map fun r => (r.1, .iter r.2.1 r.2.2))
      (m.insert C key v) := by
  rcases h.place (key v) with
    ⟨xs, w, ys, rfl, har, hw, hlb, hhit, hm, hat⟩ | ⟨xs, ys, rfl, har, hlb, hhit, hm⟩
  · rw [FiniteMap.insert, hm]
    exact ⟨t, .iter xs.length false, _, by simp [insert, hlb, hhit], h,
      by rw [answer, hat]⟩
  · obtain ⟨hd, hat⟩ := h.insertAt har (WeakOrder.equiv_refl (key v))
    rw [FiniteMap.insert, hm]
    exact ⟨t.insertAt xs.length v, .iter xs.length true, _, by simp [insert, hlb, hhit],
      hd, by rw [answer, hat]⟩

theorem Denotes.erase_agrees (h : Denotes C key t l m) (k : K) :
    Agrees (T := T) C key ((erase C key t k).map fun r => (r.1, .erased r.2))
      (m.erase C k) := by
  rcases h.place k with
    ⟨xs, w, ys, rfl, har, hw, hlb, hhit, hm, -⟩ | ⟨xs, ys, rfl, -, hlb, hhit, hm⟩
  · rw [FiniteMap.erase, hm]
    exact ⟨t.removeAt xs.length 1, .erased 1, _, by simp [erase, hlb, hhit],
      h.removeAt har hw, rfl⟩
  · rw [FiniteMap.erase, hm]
    exact ⟨t, .erased 0, _, by simp [erase, hlb, hhit], h, rfl⟩

/-- `find` points to the entry of the key, or to the end. -/
theorem Denotes.find_eq (h : Denotes C key t l m) (k : K) :
    ∃ i, find C key t k = some i ∧ t.at? i = m k ∧ (i = t.size ↔ m k = none) := by
  rcases h.place k with
    ⟨xs, w, ys, rfl, har, hw, hlb, hhit, hm, hat⟩ | ⟨xs, ys, rfl, har, hlb, hhit, hm⟩
  · refine ⟨xs.length, by simp [find, hlb, hhit], by rw [hat, hm], ?_⟩
    rw [h.holds.size_eq, hm]
    simp
  · refine ⟨t.size, by simp [find, hlb, hhit], ?_, by simp [hm]⟩
    rw [hm, at?, if_neg (Nat.lt_irrefl _)]

theorem Denotes.contains_eq (h : Denotes C key t l m) (k : K) :
    contains C key t k = some (m k).isSome := by
  obtain ⟨i, hi, -, hend⟩ := h.find_eq k
  rw [contains, hi, Option.bind_eq_bind, Option.bind_some]
  congr 1
  cases hm : m k with
  | none => simp [hend.mpr hm]
  | some v =>
      have hne : i ≠ t.size := fun he => by rw [hend.mp he] at hm; cases hm
      simp [hne]

theorem Denotes.clear (h : Denotes C key t l m) :
    Denotes C key t.clear [] FiniteMap.empty :=
  ⟨h.holds.clear, List.Pairwise.nil, rfl⟩

end Ordered

/-! ## `map` -/

namespace OrderedMap

variable {K T : Type} [Inhabited T] {C : WeakOrder K}

def next (C : WeakOrder K) (t : Ordered (K × T)) (op : Op K T) : Option (Ordered (K × T)) :=
  (step C t op).map Prod.fst

/-- The value of `k` set, whatever it was. -/
def assign (C : WeakOrder K) (m : FiniteMap K (K × T)) (k : K) (x : T) :
    FiniteMap K (K × T) :=
  FiniteMap.update C m k (some (((m k).map Prod.fst).getD k, x))

/-- A call on the abstract map. -/
def onMap (C : WeakOrder K) (m : FiniteMap K (K × T)) :
    Op K T → FiniteMap K (K × T) × FiniteMap.Answer (K × T) T
  | .insert v => m.insert C Prod.fst v
  | .insertOrAssign k x => (assign C m k x, .inserted (m k).isNone (assign C m k x k))
  | .index k =>
      match m k with
      | some v => (m, .value v.2)
      | none => (FiniteMap.update C m k (some (k, default)), .value default)
  | .indexAssign k x => (assign C m k x, .value x)
  | .erase k => m.erase C k
  | .find k => (m, .entry (m k))
  | .clear => (FiniteMap.empty, .done)

open Ordered

theorem step_agrees {t : Ordered (K × T)} {l : List (K × T)} {m : FiniteMap K (K × T)}
    (h : Denotes C Prod.fst t l m) (op : Op K T) :
    Agrees C Prod.fst (step C t op) (onMap C m op) := by
  cases op with
  | insert v => exact h.insert_agrees v
  | erase k => exact h.erase_agrees k
  | clear => exact ⟨t.clear, .done, _, rfl, h.clear, rfl⟩
  | find k =>
      obtain ⟨i, hi, hat, -⟩ := h.find_eq k
      exact ⟨t, .found i, l, by rw [step, hi]; rfl, h, by rw [answer, hat]; rfl⟩
  | insertOrAssign k x =>
      rcases h.place k with
        ⟨xs, w, ys, rfl, har, hw, hlb, hhit, hm, hat⟩ | ⟨xs, ys, rfl, har, hlb, hhit, hm⟩
      · obtain ⟨hd, hat'⟩ := h.write har hw (w := (w.1, x)) rfl
        have hm' : assign C m k x = FiniteMap.update C m k (some (w.1, x)) := by
          rw [assign, hm]
          rfl
        rw [onMap, hm', hm]
        refine ⟨t.write xs.length (w.1, x), .iter xs.length false, _,
          by simp [step, insertOrAssign, hlb, hhit, hat], hd, ?_⟩
        rw [answer, hat', FiniteMap.update, if_pos (WeakOrder.equiv_refl k)]
        rfl
      · obtain ⟨hd, hat'⟩ := h.insertAt har (v := (k, x)) (WeakOrder.equiv_refl k)
        have hm' : assign C m k x = FiniteMap.update C m k (some (k, x)) := by
          rw [assign, hm]
          rfl
        rw [onMap, hm', hm]
        refine ⟨t.insertAt xs.length (k, x), .iter xs.length true, _,
          by simp [step, insertOrAssign, hlb, hhit], hd, ?_⟩
        rw [answer, hat', FiniteMap.update, if_pos (WeakOrder.equiv_refl k)]
        rfl
  | index k =>
      rcases h.place k with
        ⟨xs, w, ys, rfl, har, hw, hlb, hhit, hm, hat⟩ | ⟨xs, ys, rfl, har, hlb, hhit, hm⟩
      · rw [onMap, hm]
        exact ⟨t, .ref xs.length w.2, _, by simp [step, index, hlb, hhit, hat], h, rfl⟩
      · obtain ⟨hd, hat'⟩ := h.insertAt har (v := (k, default)) (WeakOrder.equiv_refl k)
        rw [onMap, hm]
        exact ⟨t.insertAt xs.length (k, default), .ref xs.length default, _,
          by simp [step, index, hlb, hhit, hat'], hd, rfl⟩
  | indexAssign k x =>
      rcases h.place k with
        ⟨xs, w, ys, rfl, har, hw, hlb, hhit, hm, hat⟩ | ⟨xs, ys, rfl, har, hlb, hhit, hm⟩
      · obtain ⟨hd, -⟩ := h.write har hw (w := (w.1, x)) rfl
        have hm' : assign C m k x = FiniteMap.update C m k (some (w.1, x)) := by
          rw [assign, hm]
          rfl
        rw [onMap, hm']
        exact ⟨t.write xs.length (w.1, x), .ref xs.length x, _,
          by simp [step, indexAssign, index, hlb, hhit, hat], hd, rfl⟩
      · -- The fresh entry is written right after it was put in.
        have hwk : C.equiv ((k, (default : T)).1) k = true := WeakOrder.equiv_refl k
        obtain ⟨hd, hat'⟩ := h.insertAt har hwk
        obtain ⟨hd', -⟩ := hd.write har hwk (w := (k, x)) rfl
        have hm' : assign C m k x = FiniteMap.update C
            (FiniteMap.update C m k (some (k, default))) k (some (k, x)) := by
          rw [assign, hm]
          funext k'
          rw [FiniteMap.update, FiniteMap.update, FiniteMap.update]
          split <;> rfl
        rw [onMap, hm']
        exact ⟨(t.insertAt xs.length (k, default)).write xs.length (k, x),
          .ref xs.length x, _, by simp [step, indexAssign, index, hlb, hhit, hat'], hd', rfl⟩

end OrderedMap

/-! ## `set` -/

namespace OrderedSet

variable {K : Type} {C : WeakOrder K}

def next (C : WeakOrder K) (t : Ordered K) (op : Op K) : Option (Ordered K) :=
  (step C t op).map Prod.fst

/-- A call on the abstract map of keys to themselves. -/
def onMap (C : WeakOrder K) (m : FiniteMap K K) :
    Op K → FiniteMap K K × FiniteMap.Answer K Unit
  | .insert k | .emplace k => m.insert C id k
  | .erase k => m.erase C k
  | .find k => (m, .entry (m k))
  | .clear => (FiniteMap.empty, .done)

open Ordered

theorem step_agrees {t : Ordered K} {l : List K} {m : FiniteMap K K}
    (h : Denotes C id t l m) (op : Op K) :
    Agrees C id (step C t op) (onMap C m op) := by
  cases op with
  | insert k | emplace k => exact h.insert_agrees k
  | erase k => exact h.erase_agrees k
  | clear => exact ⟨t.clear, .done, _, rfl, h.clear, rfl⟩
  | find k =>
      obtain ⟨i, hi, hat, -⟩ := h.find_eq k
      exact ⟨t, .found i, l, by rw [step, hi]; rfl, h, by rw [answer, hat]; rfl⟩

end OrderedSet

/-! ## Runs -/

namespace Ordered

variable {K V T α : Type} {C : WeakOrder K} {key : V → K}

/-- What an array says that stands for an abstract map: it iterates over the
entries of the map in ascending order, and its lookups are those of the map. -/
structure SortedMap (C : WeakOrder K) (key : V → K) (t : Ordered V)
    (m : FiniteMap K V) : Prop where
  iterates : ∃ l, t.iterate = l.map some ∧ C.Ascending key l ∧ lookup C key l = m
  lower_bound : ∀ k, ∃ i ≤ t.size, lowerBoundIndex C key t k = some i ∧
    ∀ j v, t.at? j = some v → (C.lt (key v) k = true ↔ j < i)
  find_eq : ∀ k, ∃ i, find C key t k = some i ∧ t.at? i = m k ∧
    (i = t.size ↔ m k = none)
  contains_eq : ∀ k, contains C key t k = some (m k).isSome

theorem Denotes.sortedMap {t : Ordered V} {l : List V} {m : FiniteMap K V}
    (h : Denotes C key t l m) : SortedMap C key t m where
  iterates := ⟨l, h.holds.iterate_eq, h.ascending, h.lookup_eq⟩
  lower_bound := h.holds.lowerBoundIndex_splits h.ascending.sorted
  find_eq := h.find_eq
  contains_eq := h.contains_eq

/-- Calls that agree with the abstract ones make runs that do. -/
theorem run_denotes {step : Ordered V → α → Option (Ordered V × OrderedOut T)}
    {onMap : FiniteMap K V → α → FiniteMap K V × FiniteMap.Answer V T}
    (hstep : ∀ t l m op, Denotes C key t l m →
      Agrees C key (step t op) (onMap m op)) (ops : List α) :
    ∃ t l, runFrom (fun t op => (step t op).map Prod.fst) empty ops = some t ∧
      Denotes C key t l (ops.foldl (fun m op => (onMap m op).1) FiniteMap.empty) := by
  have hrun : ∀ (ops : List α) (t : Ordered V) (l : List V) (m : FiniteMap K V),
      Denotes C key t l m →
      ∃ t' l', runFrom (fun t op => (step t op).map Prod.fst) t ops = some t' ∧
        Denotes C key t' l' (ops.foldl (fun m op => (onMap m op).1) m) := by
    intro ops
    induction ops with
    | nil => exact fun t l m h => ⟨t, l, rfl, h⟩
    | cons op ops ih =>
        intro t l m h
        obtain ⟨t₁, out, l₁, hs, hd, -⟩ := hstep t l m op h
        have hn : (step t op).map Prod.fst = some t₁ := by rw [hs]; rfl
        obtain ⟨t', l', hrun, hd'⟩ := ih t₁ l₁ _ hd
        exact ⟨t', l', (runFrom_cons hn).trans hrun, hd'⟩
  exact hrun ops empty [] FiniteMap.empty denotes_empty

end Ordered

/-- Every run of a `map` or a `set` is defined and ends in an array that stands
for the abstract map of the same calls, and the next call, whichever it is,
answers what the abstract one answers. -/
theorem ordered_refines_sorted_map {K T : Type} [Inhabited T] (C : WeakOrder K) :
    (∀ ops : List (OrderedMap.Op K T),
      ∃ t, runFrom (OrderedMap.next C) Ordered.empty ops = some t ∧
        Ordered.SortedMap C Prod.fst t
          (ops.foldl (fun m op => (OrderedMap.onMap C m op).1) FiniteMap.empty) ∧
        ∀ op, ∃ t' out, OrderedMap.step C t op = some (t', out) ∧
          Ordered.answer t' out = (OrderedMap.onMap C (ops.foldl
            (fun m op => (OrderedMap.onMap C m op).1) FiniteMap.empty) op).2) ∧
      ∀ ops : List (OrderedSet.Op K),
        ∃ t, runFrom (OrderedSet.next C) Ordered.empty ops = some t ∧
          Ordered.SortedMap C id t
            (ops.foldl (fun m op => (OrderedSet.onMap C m op).1) FiniteMap.empty) ∧
          ∀ op, ∃ t' out, OrderedSet.step C t op = some (t', out) ∧
            Ordered.answer t' out = (OrderedSet.onMap C (ops.foldl
              (fun m op => (OrderedSet.onMap C m op).1) FiniteMap.empty) op).2 := by
  constructor
  · intro ops
    obtain ⟨t, l, hrun, hd⟩ := Ordered.run_denotes
      (fun t l m op h => OrderedMap.step_agrees (C := C) h op) ops
    refine ⟨t, hrun, hd.sortedMap, fun op => ?_⟩
    obtain ⟨t', out, -, hs, -, hans⟩ := OrderedMap.step_agrees hd op
    exact ⟨t', out, hs, hans⟩
  · intro ops
    obtain ⟨t, l, hrun, hd⟩ := Ordered.run_denotes
      (fun t l m op h => OrderedSet.step_agrees (C := C) h op) ops
    refine ⟨t, hrun, hd.sortedMap, fun op => ?_⟩
    obtain ⟨t', out, -, hs, -, hans⟩ := OrderedSet.step_agrees hd op
    exact ⟨t', out, hs, hans⟩

end Ycetl.Ref
