import Mathlib.Data.List.InsertIdx
import Ycetl.Ref.Ordered
import Ycetl.Proofs.DynamicArrayOps

/-!
# The sorted arrays as lists

Whatever the containers do to their array they do through five calls: read an
element, overwrite one, insert one at an index, close a gap, clear. `Holds`
says which list the array holds, and each of the five is the list operation
it looks like. With a sorted list the two searches end at its two cuts, and
nothing after this module needs the slots again.
-/

namespace Ycetl.Ref.Ordered

open Ycetl.Lib DynamicArray

variable {K V : Type} {t t' : Ordered V} {l : List V}

/-- The array holds this list. -/
structure Holds (t : Ordered V) (l : List V) : Prop where
  offset_pos : 0 < t.store.offset
  fits : Fits t.store t.data
  contents_eq : contents t.store t.data = l.map some

theorem holds_empty : Holds (empty : Ordered V) [] :=
  ⟨Nat.one_pos, fits_none _, rfl⟩

theorem Holds.size_eq (h : Holds t l) : t.size = l.length := by
  have := congrArg List.length h.contents_eq
  rwa [length_contents, List.length_map] at this

theorem Holds.at?_eq (h : Holds t l) (i : Nat) : t.at? i = l[i]? := by
  rw [at?]
  by_cases hi : i < t.size
  · have hget := contents_get (s := t.store) hi
    rw [h.contents_eq, List.getElem?_map] at hget
    rw [if_pos hi]
    have hlt : i < l.length := h.size_eq ▸ hi
    rw [List.getElem?_eq_getElem hlt, Option.map_some, Option.some.injEq] at hget
    rw [List.getElem?_eq_getElem hlt, ← hget]
  · rw [if_neg hi, List.getElem?_eq_none (by rw [← h.size_eq]; omega)]

theorem Holds.iterate_eq (h : Holds t l) : t.iterate = l.map some := by
  refine List.ext_getElem? fun i => ?_
  rw [iterate, List.getElem?_map, List.getElem?_map, h.size_eq]
  by_cases hi : i < l.length
  · rw [List.getElem?_range hi, Option.map_some, h.at?_eq, List.getElem?_eq_getElem hi,
      Option.map_some]
  · rw [List.getElem?_eq_none (by rw [List.length_range]; omega),
      List.getElem?_eq_none (by omega)]
    rfl

theorem holds_of_inPlace (h : Holds t l) {s' : Store V} {a' : Arr} {l' : List V}
    (hp : InPlace t.store t.data s' a' (l'.map some)) : Holds ⟨s', a'⟩ l' :=
  ⟨by rw [show (Ordered.mk s' a').store.offset = t.store.offset from hp.offset_eq]
      exact h.offset_pos,
    hp.fits h.fits, hp.contents_eq⟩

theorem Holds.insertAt (h : Holds t l) {i : Nat} (hi : i ≤ l.length) (v : V) :
    Holds (t.insertAt i v) (l.insertIdx i v) := by
  have : Inhabited V := ⟨v⟩
  have hlegal : (Call.insert i v).Legal t.data := by
    rw [← h.size_eq] at hi
    exact hi
  have hgranted : Granted TypedDynamicMemory.allocate t.store
      (growthRequest t.data (.insert i v)) := by
    rw [Granted, TypedDynamicMemory.allocate]
  have hr := call_result h.fits h.offset_pos hlegal hgranted
  refine ⟨?_, hr.fits h.fits h.offset_pos, ?_⟩
  · have := hr.offset_eq
    have := h.offset_pos
    show 0 < (call TypedDynamicMemory.allocate t.store t.data (.insert i v)).1.offset
    omega
  · refine hr.contents_eq.trans ?_
    rw [h.contents_eq]
    exact (List.map_insertIdx ..).symm

theorem Holds.write (h : Holds t l) {i : Nat} (hi : i < l.length) (v : V) :
    Holds (t.write i v) (l.set i v) := by
  have hsize : t.data.size = l.length := h.size_eq
  have hp := write_inPlace h.fits (show i < t.data.size from hsize ▸ hi) v
  rw [h.contents_eq, ← List.map_set] at hp
  exact holds_of_inPlace h hp

theorem Holds.clear (h : Holds t l) : Holds t.clear [] :=
  holds_of_inPlace h (shrink_inPlace h.fits (Nat.zero_le t.data.size))

/-! ## Closing a gap -/

/-- After the assignments the elements behind the gap are in place. -/
theorem shiftAssign_inPlace (h : Holds t l) {i removed : Nat} (h0 : 0 < removed)
    (hi : i + removed ≤ l.length) :
    ∃ l', InPlace t.store t.data (shiftAssign t i removed) t.data l' ∧
      l'.take (l.length - removed) = (l.take i ++ l.drop (i + removed)).map some := by
  have hsize : t.data.size = l.length := h.size_eq
  have hfit := h.fits
  obtain ⟨hview, hoff⟩ := shiftLoop_spec t.store t.data (hsize ▸ hi)
    (fun j s => s.assign (t.data.data + j) (.move (t.data.data + (j + removed))))
    fun j s' _ hj hlive => ⟨Store.offset_assign _ _ _, fun q => by
      have hl := hlive _ (hfit.live (t.data.data + j) ⟨by omega, by omega⟩)
      rw [Store.view_assign _ (Src.moved_move_ne (by omega))]
      simp only [hl, and_true]
      rfl⟩
  refine ⟨_, ⟨hfit.size_le, Or.inl ⟨rfl, rfl⟩, hoff, fun q hq => ?_, fun q hq => ?_, rfl⟩, ?_⟩
  · have hout : ¬ (t.data.data ≤ q ∧ q < t.data.data + t.data.size) := fun hin =>
      hq (hfit.owns hin)
    rw [shiftAssign, size, hview, if_neg (by omega), if_neg (by omega)]
  · rw [Store.Live, shiftAssign, size, hview]
    split
    · rfl
    · split
      · rw [Option.isSome_map]
        exact hfit.live q hq
      · exact hfit.live q hq
  · refine List.ext_getElem? fun k => ?_
    by_cases hk : k < l.length - removed
    · rw [List.getElem?_take_of_lt hk, contents_get (by omega), shiftAssign, size, hview,
        List.map_append]
      by_cases hki : k < i
      · rw [List.getElem?_append_left (by simp; omega), List.map_take,
          List.getElem?_take_of_lt hki, ← h.contents_eq, contents_get (by omega),
          if_neg (by omega), if_neg (by omega)]
      · rw [List.getElem?_append_right (by simp; omega), List.length_map, List.length_take,
          Nat.min_eq_left (by omega), List.map_drop, List.getElem?_drop, ← h.contents_eq,
          contents_get (by omega), if_pos (by omega),
          show t.data.data + k + removed = t.data.data + (i + removed + (k - i)) by omega]
        rfl
    · rw [List.getElem?_eq_none (by rw [List.length_take]; omega),
        List.getElem?_eq_none (by simp; omega)]

/-- Popping one by one leaves the first elements. -/
theorem popLoop_spec (t : Ordered V) (hfit : Fits t.store t.data) {n : Nat}
    (hn : n ≤ t.data.size) :
    Fits (popLoop t n).store (popLoop t n).data ∧
      (popLoop t n).store.offset = t.store.offset ∧
      contents (popLoop t n).store (popLoop t n).data =
        (contents t.store t.data).take (t.data.size - n) := by
  have hloop := upLoop_inv
    (fun _ (t : Ordered V) =>
      (⟨(popBack t.store t.data).1, (popBack t.store t.data).2⟩ : Ordered V))
    (fun i (t' : Ordered V) => Fits t'.store t'.data ∧
      t'.store.offset = t.store.offset ∧
      contents t'.store t'.data = (contents t.store t.data).take (t.data.size - i))
    0 n (s := t)
    ⟨hfit, rfl, (List.take_of_length_le (by rw [length_contents]; omega)).symm⟩ ?_
  · rw [Nat.zero_add] at hloop
    exact hloop
  · rintro i t' - hi ⟨hfit', hoff, hcon⟩
    have hsize := congrArg List.length hcon
    rw [length_contents, List.length_take, length_contents] at hsize
    have hp := popBack_inPlace hfit' (by omega)
    refine ⟨hp.fits hfit', hp.offset_eq.trans hoff, hp.contents_eq.trans ?_⟩
    rw [hcon, List.take_take]
    congr 1
    omega

theorem Holds.removeAt (h : Holds t l) {i removed : Nat} (h0 : 0 < removed)
    (hi : i + removed ≤ l.length) :
    Holds (t.removeAt i removed) (l.take i ++ l.drop (i + removed)) := by
  obtain ⟨l', hp, htake⟩ := shiftAssign_inPlace h h0 hi
  have hsize : t.data.size = l.length := h.size_eq
  obtain ⟨hfit, hoff, hcon⟩ := popLoop_spec
    { t with store := shiftAssign t i removed } (hp.fits h.fits)
    (show removed ≤ t.data.size by omega)
  refine ⟨?_, hfit, ?_⟩
  · have := h.offset_pos
    rw [Ordered.removeAt, hoff]
    exact hp.offset_eq ▸ this
  · refine hcon.trans ?_
    rw [hp.contents_eq]
    exact hsize ▸ htake

theorem insertIdx_length_append (xs ys : List V) (v : V) :
    (xs ++ ys).insertIdx xs.length v = xs ++ v :: ys := by
  induction xs with
  | nil => rfl
  | cons x xs ih => exact congrArg (x :: ·) ih

theorem getElem?_length_append (xs ys : List V) (v : V) :
    (xs ++ v :: ys)[xs.length]? = some v := by
  rw [List.getElem?_append_right (Nat.le_refl _), Nat.sub_self]
  rfl

/-! ## The searches -/

section

variable {C : WeakOrder K} {key : V → K}

theorem Holds.lowerBoundIndex_eq (h : Holds t l) (hs : C.Sorted key l) (k : K) :
    lowerBoundIndex C key t k = some (cut (fun e => C.lt (key e) k) l) := by
  rw [lowerBoundIndex, h.size_eq]
  refine bisect_cut (hs.initial_lt k) fun i v hv => ?_
  rw [h.at?_eq, hv, Option.map_some]

theorem Holds.upperBoundIndex_eq (h : Holds t l) (hs : C.Sorted key l) (k : K) :
    upperBoundIndex C key t k = some (cut (fun e => !C.lt k (key e)) l) := by
  rw [upperBoundIndex, h.size_eq]
  refine bisect_cut (hs.initial_not_lt k) fun i v hv => ?_
  rw [h.at?_eq, hv, Option.map_some]

/-- `lower_bound_index` splits the keys into those less than `k` and the rest. -/
theorem Holds.lowerBoundIndex_splits (h : Holds t l) (hs : C.Sorted key l) (k : K) :
    ∃ i ≤ t.size, lowerBoundIndex C key t k = some i ∧
      ∀ j v, t.at? j = some v → (C.lt (key v) k = true ↔ j < i) := by
  refine ⟨_, h.size_eq ▸ cut_le _ l, h.lowerBoundIndex_eq hs k, fun j v hv => ?_⟩
  rw [h.at?_eq] at hv
  exact (lt_cut_iff (hs.initial_lt k) hv).symm

theorem Holds.hit_some (h : Holds t l) {k : K} {i : Nat} {v : V} (hv : l[i]? = some v) :
    hit C key t k i = some (!C.lt k (key v)) := by
  rw [hit, if_pos (by rw [h.size_eq]; exact (List.getElem?_eq_some_iff.mp hv).1),
    h.at?_eq, hv, Option.map_some]

theorem Holds.hit_end (h : Holds t l) {k : K} : hit C key t k l.length = some false := by
  rw [hit, h.size_eq, if_neg (Nat.lt_irrefl _)]

end

end Ycetl.Ref.Ordered
