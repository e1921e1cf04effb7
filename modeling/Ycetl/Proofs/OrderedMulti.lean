import Ycetl.Lib.Runs
import Ycetl.Proofs.OrderedOps

/-!
# `multimap` and `multiset` hold the stable sort of their history

An insert puts the new entry at its upper bound, behind all entries with an
equivalent key, and that is one more step of a stable sort. An erase takes the
run between the two bounds out, and leaving entries out commutes with sorting.
So after any history the array is the stable sort of the entries that were
inserted and not erased since, in the order of their insertion.
-/

namespace Ycetl.Ref

open Ycetl.Lib

/-! ## The history -/

/-- What a call does to the surviving insertions. -/
def surviveStep {K V : Type} (C : WeakOrder K) (key : V → K) (hist : List V) :
    OrderedMultiOp V K → List V
  | .insert v => hist ++ [v]
  | .erase k => hist.filter fun e => !C.equiv (key e) k
  | .clear => []
  | .find _ | .contains _ | .count _ | .equalRange _ => hist

/-- The surviving insertions of a history, in insertion order. -/
def survivors {K V : Type} (C : WeakOrder K) (key : V → K)
    (ops : List (OrderedMultiOp V K)) : List V :=
  ops.foldl (surviveStep C key) []

namespace Ordered

variable {K V : Type} {C : WeakOrder K} {key : V → K} {t : Ordered V} {l : List V} {k : K}

/-! ## Calls -/

/-- An insert at the upper bound is one more step of the sort. -/
theorem Holds.insertEqual (h : Holds t l) (hs : C.Sorted key l) (v : V) :
    ∃ t' i, insertEqual C key t v = some (t', i) ∧ Holds t' (C.insertLast key v l) ∧
      t'.at? i = some v := by
  have hub := h.upperBoundIndex_eq hs (key v)
  have hh := h.insertAt (cut_le (fun e => !C.lt (key v) (key e)) l) v
  have hl : l.insertIdx (cut (fun e => !C.lt (key v) (key e)) l) v =
      C.insertLast key v l := by
    rw [WeakOrder.insertLast_eq, cut, ← insertIdx_length_append,
      List.takeWhile_append_dropWhile]
  rw [hl] at hh
  refine ⟨_, _, by rw [Ordered.insertEqual, hub]; rfl, hh, ?_⟩
  rw [hh.at?_eq, WeakOrder.insertLast_eq, cut, getElem?_length_append]

/-- The two bounds bracket the run of a key. -/
structure Run (C : WeakOrder K) (key : V → K) (t : Ordered V) (l : List V) (k : K)
    (lo hi : Nat) : Prop where
  lower : lowerBoundIndex C key t k = some lo
  upper : upperBoundIndex C key t k = some hi
  le : lo ≤ hi
  le_size : hi ≤ t.size
  not_above : ∀ j v, t.at? j = some v → (C.lt k (key v) = false ↔ j < hi)
  equiv_iff : ∀ j v, t.at? j = some v → (C.equiv (key v) k = true ↔ lo ≤ j ∧ j < hi)
  length_eq : hi - lo = l.countP fun e => C.equiv (key e) k
  outside : l.take lo ++ l.drop hi = l.filter fun e => !C.equiv (key e) k

theorem Holds.run (h : Holds t l) (hs : C.Sorted key l) (k : K) :
    ∃ lo hi, Run C key t l k lo hi := by
  have hlb := h.lowerBoundIndex_eq hs k
  have hub := h.upperBoundIndex_eq hs k
  have habove : ∀ j v, t.at? j = some v →
      (C.lt k (key v) = false ↔ j < cut (fun e => !C.lt k (key e)) l) := by
    intro j v hv
    rw [h.at?_eq] at hv
    rw [lt_cut_iff (hs.initial_not_lt k) hv, Bool.not_eq_true']
  have hiff : ∀ j v, t.at? j = some v → (C.equiv (key v) k = true ↔
      cut (fun e => C.lt (key e) k) l ≤ j ∧ j < cut (fun e => !C.lt k (key e)) l) := by
    intro j v hv
    rw [h.at?_eq] at hv
    rw [WeakOrder.equiv_iff, ← Nat.not_lt, lt_cut_iff (hs.initial_lt k) hv,
      lt_cut_iff (hs.initial_not_lt k) hv, Bool.not_eq_true, Bool.not_eq_true']
  obtain ⟨xs, es, ys, hl, hxs, hes, hys, hlow, hupp⟩ := hs.split k
  rw [hlow] at hlb hiff
  rw [hupp] at hub hiff habove
  have hx : ∀ e ∈ xs, C.equiv (key e) k = false := fun e he => by
    rw [WeakOrder.equiv, hxs e he]
    rfl
  have hy : ∀ e ∈ ys, C.equiv (key e) k = false := fun e he => by
    rw [WeakOrder.equiv, hys e he, Bool.not_true, Bool.and_false]
  refine ⟨_, _, hlb, hub, by simp, ?_, habove, hiff, ?_, ?_⟩
  · rw [h.size_eq, hl]
    simp
  · rw [hl, List.countP_append, List.countP_append, List.countP_eq_zero.mpr,
      List.countP_eq_length.mpr hes, List.countP_eq_zero.mpr]
    · simp
    · exact fun e he => by rw [hy e he]; simp
    · exact fun e he => by rw [hx e he]; simp
  · rw [hl, List.filter_append, List.filter_append,
      List.filter_eq_self.mpr (fun e he => by rw [hx e he]; rfl),
      List.filter_eq_nil_iff.mpr (fun e he => by rw [hes e he]; simp),
      List.filter_eq_self.mpr (fun e he => by rw [hy e he]; rfl), List.append_nil,
      List.drop_left' rfl, List.append_assoc, List.take_left' rfl]

theorem Run.count_eq {lo hi : Nat} (h : Run C key t l k lo hi) :
    count C key t k = some (hi - lo) := by
  rw [count, h.upper, h.lower]
  rfl

theorem Run.equalRange_eq {lo hi : Nat} (h : Run C key t l k lo hi) :
    equalRange C key t k = some (lo, hi) := by
  rw [equalRange, h.lower, h.upper]
  rfl

/-- `find` returns the first element of the run, or the end. -/
theorem Run.find_eq {lo hi : Nat} (h : Run C key t l k lo hi) (hh : Holds t l) :
    find C key t k = some (if lo < hi then lo else t.size) := by
  have hle := h.le_size
  rw [find, h.lower, Option.bind_eq_bind, Option.bind_some]
  by_cases hlt : lo < hi
  · -- The element at the lower bound is in the run.
    obtain ⟨v, hv⟩ : ∃ v, l[lo]? = some v :=
      ⟨_, List.getElem?_eq_getElem (by rw [hh.size_eq] at hle; omega)⟩
    have heq := (h.equiv_iff lo v (by rw [hh.at?_eq, hv])).mpr ⟨Nat.le_refl _, hlt⟩
    rw [hh.hit_some hv, (WeakOrder.equiv_iff.mp heq).2, if_pos hlt]
    rfl
  · have hhit : hit C key t k lo = some false := by
      by_cases hend : lo = l.length
      · rw [hend, hh.hit_end]
      · obtain ⟨v, hv⟩ : ∃ v, l[lo]? = some v :=
          ⟨_, List.getElem?_eq_getElem (by rw [hh.size_eq] at hle; have := h.le; omega)⟩
        have hat : t.at? lo = some v := by rw [hh.at?_eq, hv]
        rw [hh.hit_some hv]
        cases hkv : C.lt k (key v) with
        | true => rfl
        | false => exact absurd ((h.not_above lo v hat).mp hkv) hlt
    rw [hhit, if_neg hlt]
    rfl

theorem Run.contains_eq {lo hi : Nat} (h : Run C key t l k lo hi) (hh : Holds t l) :
    contains C key t k = some (decide (lo < hi)) := by
  have hle := h.le_size
  rw [contains, h.find_eq hh, Option.bind_eq_bind, Option.bind_some]
  by_cases hlt : lo < hi
  · rw [if_pos hlt, decide_eq_true hlt, decide_eq_true (by omega : lo ≠ t.size)]
    rfl
  · rw [if_neg hlt, decide_eq_false hlt, decide_eq_false (fun hne => hne rfl)]
    rfl

theorem Run.eraseEqual {lo hi : Nat} (h : Run C key t l k lo hi) (hh : Holds t l) :
    ∃ t', eraseEqual C key t k = some (t', hi - lo) ∧
      Holds t' (l.filter fun e => !C.equiv (key e) k) := by
  have hle := h.le
  have hsz := h.le_size
  rw [hh.size_eq] at hsz
  rw [← h.outside]
  by_cases heq : lo = hi
  · refine ⟨t, ?_, ?_⟩
    · rw [Ordered.eraseEqual, h.lower, h.upper]
      simp [heq]
    · rw [heq, List.take_append_drop]
      exact hh
  · refine ⟨t.removeAt lo (hi - lo), ?_, ?_⟩
    · rw [Ordered.eraseEqual, h.lower, h.upper]
      simp [heq]
    · have := hh.removeAt (show 0 < hi - lo by omega) (show lo + (hi - lo) ≤ l.length by omega)
      rwa [Nat.add_sub_cancel' hle] at this

/-! ## Runs -/

/-- What an array says that holds the stable sort of a history. -/
structure StableBag (C : WeakOrder K) (key : V → K) (t : Ordered V) (hist : List V) :
    Prop where
  iterates : t.iterate = (C.sort key hist).map some
  sorted : C.Sorted key (C.sort key hist)
  perm : (C.sort key hist).Perm hist
  fifo : ∀ k, (C.sort key hist).filter (fun e => C.equiv (key e) k) =
    hist.filter fun e => C.equiv (key e) k
  run : ∀ k, ∃ lo hi, Run C key t (C.sort key hist) k lo hi ∧
    hi - lo = (hist.countP fun e => C.equiv (key e) k) ∧
    count C key t k = some (hi - lo) ∧
    equalRange C key t k = some (lo, hi) ∧
    find C key t k = some (if lo < hi then lo else t.size) ∧
    contains C key t k = some (decide (lo < hi))
  insert_last : ∀ v, ∃ t' i, Ordered.insertEqual C key t v = some (t', i) ∧
    t'.at? i = some v ∧ t'.iterate = (C.insertLast key v (C.sort key hist)).map some
  erase_run : ∀ k, ∃ t' n, Ordered.eraseEqual C key t k = some (t', n) ∧
    count C key t k = some n ∧
    t'.iterate = ((C.sort key hist).filter fun e => !C.equiv (key e) k).map some

theorem Holds.stableBag {hist : List V} (h : Holds t (C.sort key hist)) :
    StableBag C key t hist where
  iterates := h.iterate_eq
  sorted := WeakOrder.sort_sorted hist
  perm := WeakOrder.sort_perm hist
  fifo k := WeakOrder.sort_stable k hist
  run k := by
    obtain ⟨lo, hi, hr⟩ := h.run (WeakOrder.sort_sorted hist) k
    refine ⟨lo, hi, hr, ?_, hr.count_eq, hr.equalRange_eq, hr.find_eq h,
      hr.contains_eq h⟩
    rw [hr.length_eq, (WeakOrder.sort_perm hist).countP_eq]
  insert_last v := by
    obtain ⟨t', i, hins, hh, hat⟩ := h.insertEqual (WeakOrder.sort_sorted hist) v
    exact ⟨t', i, hins, hat, hh.iterate_eq⟩
  erase_run k := by
    obtain ⟨lo, hi, hr⟩ := h.run (WeakOrder.sort_sorted hist) k
    obtain ⟨t', her, hh⟩ := hr.eraseEqual h
    exact ⟨t', hi - lo, her, hr.count_eq, hh.iterate_eq⟩

def multiNext (C : WeakOrder K) (key : V → K) (t : Ordered V)
    (op : OrderedMultiOp V K) : Option (Ordered V) :=
  (multiStep C key t op).map Prod.fst

/-- A call keeps the array the sort of what survives. -/
theorem Holds.multiNext {hist : List V} (h : Holds t (C.sort key hist))
    (op : OrderedMultiOp V K) :
    ∃ t', multiNext C key t op = some t' ∧
      Holds t' (C.sort key (surviveStep C key hist op)) := by
  have hs : C.Sorted key (C.sort key hist) := WeakOrder.sort_sorted hist
  cases op with
  | insert v =>
      obtain ⟨t', i, hins, hh, -⟩ := h.insertEqual hs v
      rw [← WeakOrder.sort_concat] at hh
      exact ⟨t', by rw [Ordered.multiNext, multiStep, hins]; rfl, hh⟩
  | erase k =>
      obtain ⟨lo, hi, hr⟩ := h.run hs k
      obtain ⟨t', her, hh⟩ := hr.eraseEqual h
      rw [← WeakOrder.sort_filter] at hh
      exact ⟨t', by rw [Ordered.multiNext, multiStep, her]; rfl, hh⟩
  | clear => exact ⟨t.clear, rfl, h.clear⟩
  | find k =>
      obtain ⟨lo, hi, hr⟩ := h.run hs k
      exact ⟨t, by rw [Ordered.multiNext, multiStep, hr.find_eq h]; rfl, h⟩
  | contains k =>
      obtain ⟨lo, hi, hr⟩ := h.run hs k
      exact ⟨t, by rw [Ordered.multiNext, multiStep, hr.contains_eq h]; rfl, h⟩
  | count k =>
      obtain ⟨lo, hi, hr⟩ := h.run hs k
      exact ⟨t, by rw [Ordered.multiNext, multiStep, hr.count_eq]; rfl, h⟩
  | equalRange k =>
      obtain ⟨lo, hi, hr⟩ := h.run hs k
      exact ⟨t, by rw [Ordered.multiNext, multiStep, hr.equalRange_eq]; rfl, h⟩

theorem run_stableBag (C : WeakOrder K) (key : V → K) (ops : List (OrderedMultiOp V K)) :
    ∃ t, runFrom (multiNext C key) empty ops = some t ∧
      StableBag C key t (survivors C key ops) := by
  have hrun : ∀ (ops : List (OrderedMultiOp V K)) (t : Ordered V) (hist : List V),
      Holds t (C.sort key hist) →
      ∃ t', runFrom (multiNext C key) t ops = some t' ∧
        Holds t' (C.sort key (ops.foldl (surviveStep C key) hist)) := by
    intro ops
    induction ops with
    | nil => exact fun t hist h => ⟨t, rfl, h⟩
    | cons op ops ih =>
        intro t hist h
        obtain ⟨t₁, hn, hh⟩ := h.multiNext op
        rw [runFrom_cons hn]
        exact ih t₁ _ hh
  obtain ⟨t, ht, hh⟩ := hrun ops empty [] holds_empty
  exact ⟨t, ht, hh.stableBag⟩

end Ordered

namespace OrderedMultimap

variable {K T : Type}

def next (C : WeakOrder K) (t : Ordered (K × T)) (op : OrderedMultiOp (K × T) K) :
    Option (Ordered (K × T)) :=
  (step C t op).map Prod.fst

end OrderedMultimap

namespace OrderedMultiset

variable {K : Type}

def next (C : WeakOrder K) (t : Ordered K) (op : Op K) : Option (Ordered K) :=
  (step C t op).map Prod.fst

/-- To a history, an `emplace` is an insert. -/
def Op.onHistory : Op K → OrderedMultiOp K K
  | .call op => op
  | .emplace k => .insert k

theorem next_eq (C : WeakOrder K) :
    next C = fun t op => Ordered.multiNext C id t op.onHistory := by
  funext t op
  cases op <;> rfl

end OrderedMultiset

/-- Every run of a `multimap` or a `multiset` is defined and ends in the
stable sort of its surviving insertions. -/
theorem ordered_multi_holds_stable_sort {K T : Type} (C : WeakOrder K) :
    (∀ ops : List (OrderedMultiOp (K × T) K),
      ∃ t, runFrom (OrderedMultimap.next C) Ordered.empty ops = some t ∧
        Ordered.StableBag C Prod.fst t (survivors C Prod.fst ops)) ∧
      ∀ ops : List (OrderedMultiset.Op K),
        ∃ t, runFrom (OrderedMultiset.next C) Ordered.empty ops = some t ∧
          Ordered.StableBag C id t
            (survivors C id (ops.map OrderedMultiset.Op.onHistory)) := by
  refine ⟨fun ops => Ordered.run_stableBag C Prod.fst ops, fun ops => ?_⟩
  rw [OrderedMultiset.next_eq, ← runFrom_map]
  exact Ordered.run_stableBag C id (ops.map OrderedMultiset.Op.onHistory)

end Ycetl.Ref
