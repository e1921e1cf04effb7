import Ycetl.Proofs.DynamicArrayLoops

/-!
# One call on one array

Every member function is a `reserve`, of zero or more slots, followed by work
in the buffer. `reserve_result` is the one place where a buffer is replaced,
and it needs the memory to have granted the request; the rest is done in
place, by four lemmas: slots are filled at the end, emptied at the end, a gap
is opened, a gap is closed. `call_result` puts them together. It says all that
the other results need of a call: what became of the buffer, what the elements
are now, and that no slot outside the array has changed.
-/

namespace Ycetl.Ref.DynamicArray

open Ycetl.Lib

variable {T : Type} {s s' s₁ : Store T} {a a' a₁ : Arr}

/-- The slots of the buffer. -/
def Owns (a : Arr) (q : Nat) : Prop := a.data ≤ q ∧ q < a.data + a.capacity

/-- The slots that hold elements. -/
def Elem (a : Arr) (q : Nat) : Prop := a.data ≤ q ∧ q < a.data + a.size

instance (a : Arr) (q : Nat) : Decidable (Elem a q) :=
  inferInstanceAs (Decidable (_ ∧ _))

/-- The elements, `none` where one has been moved from. -/
def contents (s : Store T) (a : Arr) : List (Option T) :=
  (List.range a.size).map fun k => (s.view (a.data + k)).join

/-- The array has its elements alive in a buffer that the store handed out. -/
structure Fits (s : Store T) (a : Arr) : Prop where
  size_le : a.size ≤ a.capacity
  below : a.capacity ≠ 0 → 0 < a.data ∧ a.data + a.capacity ≤ s.offset
  live : ∀ q, Elem a q → s.Live q

/-- What a call that keeps or drops its buffer does. -/
structure InPlace (s : Store T) (a : Arr) (s' : Store T) (a' : Arr)
    (l : List (Option T)) : Prop where
  size_le : a'.size ≤ a'.capacity
  buffer : (a'.data = a.data ∧ a'.capacity = a.capacity) ∨ a'.capacity = 0
  offset_eq : s'.offset = s.offset
  frame : ∀ q, ¬ Owns a q → s'.view q = s.view q
  live : ∀ q, Elem a' q → s'.Live q
  contents_eq : contents s' a' = l

/-- What any call does that asks the memory for `n` slots: the buffer is the
old one, or fresh, or gone. -/
structure Result (s : Store T) (a : Arr) (n : Nat) (s' : Store T) (a' : Arr)
    (l : List (Option T)) : Prop where
  size_le : a'.size ≤ a'.capacity
  buffer : a'.capacity ≠ 0 → (a'.data = a.data ∧ a'.capacity = a.capacity) ∨
    (a'.data = s.offset ∧ a'.data + a'.capacity ≤ s'.offset)
  offset_eq : s'.offset = s.offset + n
  frame : ∀ q < s.offset, ¬ Owns a q → s'.view q = s.view q
  live : ∀ q, Elem a' q → s'.Live q
  contents_eq : contents s' a' = l

/-! ## Contents -/

@[simp] theorem length_contents : (contents s a).length = a.size := by
  rw [contents, List.length_map, List.length_range]

theorem contents_get {k : Nat} (hk : k < a.size) :
    (contents s a)[k]? = some (s.view (a.data + k)).join := by
  rw [contents, List.getElem?_map, List.getElem?_range hk]
  rfl

/-- The elements are read off slot by slot. -/
theorem contents_eq_of {l : List (Option T)} (hlen : l.length = a.size)
    (h : ∀ k < a.size, l[k]? = some (s.view (a.data + k)).join) :
    contents s a = l := by
  refine List.ext_getElem? fun k => ?_
  by_cases hk : k < a.size
  · rw [contents_get hk, h k hk]
  · rw [List.getElem?_eq_none (by rw [length_contents]; omega),
      List.getElem?_eq_none (by omega)]

/-- One element has been overwritten by `x`. -/
theorem contents_set {k : Nat} {x : Option T} (hview : ∀ q, s'.view q =
      if q = a.data + k then some x else s.view q) :
    contents s' a = (contents s a).set k x := by
  refine contents_eq_of (by simp) fun j hj => ?_
  rw [hview, List.getElem?_set]
  by_cases hjk : k = j
  · rw [if_pos hjk, if_pos (by rw [length_contents]; omega), if_pos (by omega)]
    rfl
  · rw [if_neg hjk, contents_get hj, if_neg (by omega)]

/-- The slots from the last element up to `n` have been filled with `x`. -/
theorem contents_fill {n : Nat} {x : Option T} (hn : a.size ≤ n) (hview : ∀ q, s'.view q =
      if a.data + a.size ≤ q ∧ q < a.data + a.size + (n - a.size) then some x
      else s.view q) :
    contents s' { a with size := n } = contents s a ++ List.replicate (n - a.size) x := by
  refine contents_eq_of (by simp; omega) fun k hk => ?_
  dsimp only at hk ⊢
  rw [hview]
  by_cases hks : k < a.size
  · rw [List.getElem?_append_left (by simpa using hks), contents_get hks,
      if_neg (by omega)]
  · rw [List.getElem?_append_right (by simpa using Nat.le_of_not_lt hks),
      length_contents, List.getElem?_replicate, if_pos (by omega), if_pos (by omega)]
    rfl

/-- The elements from `idx` on have moved up, and slot `idx` has got `x`. -/
theorem contents_gap {idx : Nat} {x : Option T} (hidx : idx ≤ a.size)
    (hlive : ∀ q, Elem a q → s.Live q) (hview : ∀ q, s'.view q =
      if q = a.data + idx then some x else (shiftUp s a idx).view q) :
    contents s' { a with size := a.size + 1 } = (contents s a).insertIdx idx x := by
  obtain ⟨hup, -⟩ := shiftUp_spec s a hidx fun q hlo hhi => hlive q ⟨hlo, hhi⟩
  refine contents_eq_of (by simp [List.length_insertIdx, hidx]) fun k hk => ?_
  dsimp only at hk ⊢
  rw [List.getElem?_insertIdx, hview, length_contents]
  by_cases hlt : k < idx
  · rw [if_pos hlt, contents_get (by omega), if_neg (by omega), hup,
      if_neg (by omega), if_neg (by omega)]
  · by_cases heq : k = idx
    · rw [if_neg hlt, if_pos heq, if_pos (by omega), if_pos (by rw [heq])]
      rfl
    · rw [if_neg hlt, if_neg heq, contents_get (by omega), if_neg (by omega), hup,
        if_pos (by omega), show a.data + k - 1 = a.data + (k - 1) by omega]
      rfl

/-! ## Work in the buffer -/

theorem Fits.owns (h : Fits s a) {q : Nat} (hq : Elem a q) : Owns a q :=
  ⟨hq.1, by have := hq.2; have := h.size_le; omega⟩

/-- Slots in a buffer have been handed out. -/
theorem Fits.owns_lt (h : Fits s a) {q : Nat} (hq : Owns a q) : q < s.offset := by
  obtain ⟨hlo, hhi⟩ := hq
  have := h.below (by omega)
  omega

/-- An array is seen through its own slots. -/
theorem Fits.keep (h : Fits s a) (hle : s.offset ≤ s'.offset)
    (hkeep : ∀ q, Owns a q → s'.view q = s.view q) : Fits s' a := by
  refine ⟨h.size_le, fun h0 => ?_, fun q hq => ?_⟩
  · have := h.below h0
    omega
  · exact (Store.live_congr (hkeep q (h.owns hq))).mpr (h.live q hq)

/-- A slot of the new buffer is an old one of this array, or a fresh one. -/
theorem Result.owned {n : Nat} {l : List (Option T)} (h : Result s a n s' a' l) {q : Nat}
    (hq : Owns a' q) : Owns a q ∨ s.offset ≤ q := by
  obtain ⟨hlo, hhi⟩ := hq
  rcases h.buffer (by omega) with ⟨hd, hc⟩ | ⟨hd, -⟩
  · exact Or.inl ⟨hd ▸ hlo, by rw [← hd, ← hc]; exact hhi⟩
  · exact Or.inr (hd ▸ hlo)

/-- Nothing is done. -/
theorem Fits.refl (h : Fits s a) : InPlace s a s a (contents s a) :=
  ⟨h.size_le, Or.inl ⟨rfl, rfl⟩, rfl, fun _ _ => rfl, h.live, rfl⟩

/-- The array fits the store again. -/
theorem InPlace.fits {l : List (Option T)} (h : InPlace s a s' a' l) (hfit : Fits s a) :
    Fits s' a' := by
  refine ⟨h.size_le, fun h0 => ?_, h.live⟩
  obtain ⟨hd, hc⟩ := h.buffer.resolve_right h0
  rw [hd, hc, h.offset_eq]
  exact hfit.below (hc ▸ h0)

/-- An element is overwritten. -/
theorem write_inPlace (h : Fits s a) {k : Nat} (hk : k < a.size) (v : T) :
    InPlace s a (s.assign (a.data + k) (.value v)) a ((contents s a).set k (some v)) := by
  have hl : s.Live (a.data + k) := h.live _ ⟨by omega, by omega⟩
  have hview : ∀ q, (s.assign (a.data + k) (.value v)).view q =
      if q = a.data + k then some (some v) else s.view q := fun q => by
    rw [Store.view_assign _ (by simp [Src.moved])]
    simp only [hl, and_true]
    rfl
  refine ⟨h.size_le, Or.inl ⟨rfl, rfl⟩, Store.offset_assign _ _ _, fun q hq => ?_,
    fun q hq => ?_, ?_⟩
  · rw [hview, if_neg]
    rintro rfl
    exact hq (h.owns ⟨by omega, by omega⟩)
  · rw [Store.Live, hview]
    split
    · rfl
    · exact h.live q hq
  · exact contents_set hview

/-- Slots are filled behind the last element with `x`, by whichever loop. -/
theorem filled_inPlace (h : Fits s a) {n : Nat} {x : Option T} (hn : a.size ≤ n)
    (hcap : n ≤ a.capacity) (hoff : s'.offset = s.offset) (hview : ∀ q, s'.view q =
      if a.data + a.size ≤ q ∧ q < a.data + a.size + (n - a.size) then some x
      else s.view q) :
    InPlace s a s' { a with size := n } (contents s a ++ List.replicate (n - a.size) x) := by
  refine ⟨hcap, Or.inl ⟨rfl, rfl⟩, hoff, fun q hq => ?_, fun q hq => ?_, ?_⟩
  · rw [hview, if_neg fun hin => hq ⟨by omega, by omega⟩]
  · obtain ⟨hlo, hhi⟩ := hq
    dsimp only at hlo hhi
    rw [Store.Live, hview]
    split
    · rfl
    · exact h.live q ⟨hlo, by omega⟩
  · exact contents_fill hn hview

/-- Slots are filled behind the last element with a value. -/
theorem extend_inPlace (h : Fits s a) {n : Nat} (hn : a.size ≤ n)
    (hcap : n ≤ a.capacity) (v : T) :
    InPlace s a (constructN s (a.data + a.size) (n - a.size) (.value v))
      { a with size := n } (contents s a ++ List.replicate (n - a.size) (some v)) := by
  obtain ⟨hview, hoff, -⟩ := constructN_spec s (a.data + a.size) (n - a.size) v
  exact filled_inPlace h hn hcap hoff hview

/-- Slots are emptied behind the first `n`. -/
theorem shrink_inPlace (h : Fits s a) {n : Nat} (hn : n ≤ a.size) :
    InPlace s a (destroyRange s a n a.size) { a with size := n }
      ((contents s a).take n) := by
  obtain ⟨hview, hoff, -⟩ := destroyRange_spec s a hn
  have hsz := h.size_le
  refine ⟨by dsimp only; omega, Or.inl ⟨rfl, rfl⟩, hoff, fun q hq => ?_,
    fun q hq => ?_, ?_⟩
  · rw [hview, if_neg fun hin => hq ⟨by omega, by omega⟩]
  · obtain ⟨hlo, hhi⟩ := hq
    dsimp only at hlo hhi
    rw [Store.Live, hview, if_neg (by omega)]
    exact h.live q ⟨hlo, by omega⟩
  · refine contents_eq_of (by simp; omega) fun k hk => ?_
    dsimp only at hk ⊢
    rw [List.getElem?_take_of_lt hk, contents_get (by omega), hview, if_neg (by omega)]

theorem popBack_eq (h0 : 0 < a.size) :
    popBack s a = (destroyRange s a (a.size - 1) a.size, { a with size := a.size - 1 }) := by
  rw [popBack, destroyRange, show a.size - (a.size - 1) = 1 by omega]
  rfl

theorem popBack_inPlace (h : Fits s a) (h0 : 0 < a.size) :
    InPlace s a (popBack s a).1 (popBack s a).2 ((contents s a).take (a.size - 1)) := by
  rw [popBack_eq h0]
  exact shrink_inPlace h (Nat.sub_le a.size 1)

/-- A gap is opened and filled. -/
theorem insert_inPlace (h : Fits s a) {idx : Nat} (hidx : idx ≤ a.size)
    (hroom : a.size < a.capacity) (v : T) :
    InPlace s a ((shiftUp s a idx).constructAt (a.data + idx) (.value v))
      { a with size := a.size + 1 } ((contents s a).insertIdx idx (some v)) := by
  obtain ⟨hview, hoff⟩ := shiftUp_spec s a hidx fun q hlo hhi => h.live q ⟨hlo, hhi⟩
  have hv : ∀ q, ((shiftUp s a idx).constructAt (a.data + idx) (.value v)).view q =
      if q = a.data + idx then some (some v) else (shiftUp s a idx).view q :=
    fun q => Store.view_constructAt_of_ne _ (by simp [Src.cell]) q
  refine ⟨hroom, Or.inl ⟨rfl, rfl⟩, (Store.offset_constructAt _ _ _).trans hoff,
    fun q hq => ?_, fun q hq => ?_, ?_⟩
  · have hout : ¬ (a.data ≤ q ∧ q ≤ a.data + a.size) := fun hin =>
      hq ⟨hin.1, by omega⟩
    rw [hv, if_neg (by omega), hview, if_neg (by omega), if_neg (by omega)]
  · obtain ⟨hlo, hhi⟩ := hq
    dsimp only at hlo hhi
    rw [Store.Live, hv]
    split
    · rfl
    · next hne =>
        rw [hview]
        split
        · rfl
        · rw [if_neg fun hq => hne hq.1]
          exact h.live q ⟨hlo, by omega⟩
  · exact contents_gap hidx h.live hv

/-- The elements behind an erased range, which move down over it; behind an
empty range each of them is constructed from itself. -/
def movedDown (l : List (Option T)) (first last : Nat) : List (Option T) :=
  if first = last then (l.drop last).map fun _ => none else l.drop last

/-- A gap is made and closed. -/
theorem eraseGap_inPlace (h : Fits s a) {first last : Nat} (hlt : first < last)
    (hlast : last ≤ a.size) :
    InPlace s a (eraseRange s a first last).1 (eraseRange s a first last).2
      ((contents s a).take first ++ (contents s a).drop last) := by
  obtain ⟨hdview, hdoff, -⟩ := destroyRange_spec s a (Nat.le_of_lt hlt)
  obtain ⟨hview, hoff⟩ := shiftDown_spec (destroyRange s a first last) a
    (Nat.sub_pos_of_lt hlt) (show first + (last - first) ≤ a.size by omega)
  have hsz := h.size_le
  rw [eraseRange]
  refine ⟨by dsimp only; omega, Or.inl ⟨rfl, rfl⟩, hoff.trans hdoff, fun q hq => ?_,
    fun q hq => ?_, ?_⟩
  · have hout : ¬ (a.data ≤ q ∧ q < a.data + a.size) := fun hin =>
      hq ⟨hin.1, by omega⟩
    rw [hview, if_neg (by omega), if_neg (by omega), hdview, if_neg (by omega)]
  · obtain ⟨hlo, hhi⟩ := hq
    dsimp only at hlo hhi
    rw [Store.Live, hview]
    split
    · rfl
    · rw [if_neg (by omega), hdview, if_neg (by omega)]
      exact h.live q ⟨hlo, by omega⟩
  · refine contents_eq_of (by simp; omega) fun k hk => ?_
    dsimp only at hk ⊢
    rw [hview]
    by_cases hk₁ : k < first
    · rw [List.getElem?_append_left (by simp; omega), List.getElem?_take_of_lt hk₁,
        contents_get (by omega), if_neg (by omega), if_neg (by omega), hdview,
        if_neg (by omega)]
    · rw [List.getElem?_append_right (by simp; omega), List.length_take,
        length_contents, Nat.min_eq_left (by omega), List.getElem?_drop,
        contents_get (by omega), if_pos (by omega), hdview, if_neg (by omega),
        show a.data + k + (last - first) = a.data + (last + (k - first)) by omega]
      rfl

/-- No element is destroyed, and those from `pos` on lose their values. -/
theorem eraseNothing_inPlace (h : Fits s a) {pos : Nat} (hpos : pos ≤ a.size) :
    InPlace s a (eraseRange s a pos pos).1 (eraseRange s a pos pos).2
      ((contents s a).take pos ++ ((contents s a).drop pos).map fun _ => none) := by
  obtain ⟨hview, hoff⟩ := shiftDown_zero_spec s a hpos
  have hdestroy : destroyRange s a pos pos = s := by
    rw [destroyRange, Nat.sub_self]
    rfl
  rw [eraseRange, hdestroy, Nat.sub_self, Nat.sub_zero]
  refine ⟨h.size_le, Or.inl ⟨rfl, rfl⟩, hoff, fun q hq => ?_, fun q hq => ?_, ?_⟩
  · rw [hview, if_neg]
    exact fun hin => hq (h.owns ⟨by omega, hin.2⟩)
  · rw [Store.Live, hview]
    split
    · rfl
    · exact h.live q hq
  · refine contents_eq_of (by simp; omega) fun k hk => ?_
    dsimp only at hk ⊢
    rw [hview]
    by_cases hlt : k < pos
    · rw [List.getElem?_append_left (by simp; omega), List.getElem?_take_of_lt hlt,
        contents_get hk, if_neg (by omega)]
    · rw [List.getElem?_append_right (by simp; omega), List.length_take, length_contents,
        Nat.min_eq_left hpos, List.getElem?_map, List.getElem?_drop, contents_get (by omega),
        if_pos (by omega)]
      rfl

/-- The loops of `erase(first, last)`. -/
theorem eraseRange_inPlace (h : Fits s a) {first last : Nat} (hle : first ≤ last)
    (hlast : last ≤ a.size) :
    InPlace s a (eraseRange s a first last).1 (eraseRange s a first last).2
      ((contents s a).take first ++ movedDown (contents s a) first last) := by
  rw [movedDown]
  split
  · next heq =>
      subst heq
      exact eraseNothing_inPlace h hlast
  · next hne => exact eraseGap_inPlace h (by omega) hlast

/-- All elements are destroyed and the buffer is given up. -/
theorem clearAndDeallocateBuffer_inPlace (h : Fits s a) :
    InPlace s a (clearAndDeallocateBuffer s a).1 (clearAndDeallocateBuffer s a).2 [] := by
  obtain ⟨-, -, hoff, hframe, -, -⟩ := shrink_inPlace h (Nat.zero_le a.size)
  exact ⟨Nat.le_refl 0, Or.inr rfl, hoff, hframe,
    fun q hq => absurd hq.2 (Nat.not_lt.mpr hq.1), rfl⟩

/-! ## Growth -/

section

variable {alloc : Allocate}

/-- The memory grants a request of `n` slots: the next free ones. -/
def Granted (alloc : Allocate) (s : Store T) (n : Nat) : Prop :=
  alloc s.offset n = if n = 0 then (0, s.offset) else (s.offset, s.offset + n)

theorem granted_dynamic (s : Store T) (n : Nat) :
    Granted TypedDynamicMemory.allocate s n := by
  rw [Granted, TypedDynamicMemory.allocate]

/-- A buffer that is replaced: the elements are in the fresh slots, the old
ones are raw, and nothing else has changed. -/
theorem reserve_grown (h : Fits s a) {n : Nat} (hn : a.capacity < n)
    (hg : Granted alloc s n) :
    (reserve alloc s a n).2 = ⟨s.offset, a.size, n⟩ ∧
      (reserve alloc s a n).1.offset = s.offset + n ∧
      (∀ q, (reserve alloc s a n).1.view q =
        if Elem a q then none
        else if s.offset ≤ q ∧ q < s.offset + a.size then
          some (s.view (a.data + (q - s.offset))).join
        else s.view q) ∧
      (s.Clean → (∀ q, s.offset ≤ q → ¬ s.Live q) →
        (reserve alloc s a n).1.Clean) := by
  have hdis : a.data + a.size ≤ s.offset ∨ s.offset + a.size ≤ a.data := by
    have := h.size_le
    have := h.below
    by_cases h0 : a.capacity = 0
    · omega
    · exact Or.inl (by have := this h0; omega)
  have halloc : allocate alloc s n = (s.offset, { s with offset := s.offset + n }) := by
    rw [allocate, hg, if_neg (by omega)]
  have hmove := moveLoop_spec { s with offset := s.offset + n } a.data a.size s.offset hdis
  obtain ⟨hview, hoff, hclean⟩ := hmove
  obtain ⟨hdview, hdoff, hdclean⟩ := destroyRange_spec
    (upLoop (fun i (s' : Store T) =>
      s'.constructAt (s.offset + i) (.move (a.data + i))) 0 a.size
      { s with offset := s.offset + n }) a (Nat.zero_le a.size)
  rw [reserve, if_neg (by omega), halloc]
  refine ⟨rfl, hdoff.trans hoff, fun q => ?_, fun hc hraw => ?_⟩
  · rw [hdview, Nat.add_zero, hview]
    by_cases hq : a.data ≤ q ∧ q < a.data + a.size
    · rw [if_pos hq, if_pos (show Elem a q from hq)]
    · rw [if_neg hq, if_neg (show ¬ Elem a q from hq), if_neg hq]
      rfl
  · refine hdclean (hclean (hc.bump n) (fun q hlo _ => hraw q hlo) fun q hlo hhi =>
      h.live q ⟨hlo, hhi⟩) fun q hlo hhi => ?_
    rw [Store.Live, hview, if_neg (by omega), if_pos (by omega), Option.isSome_map]
    exact h.live q ⟨by omega, by omega⟩

/-- A `reserve` that is granted, or not needed, keeps the elements. -/
theorem reserve_result (h : Fits s a) {n : Nat}
    (hg : a.capacity < n → Granted alloc s n) :
    Result s a (if a.capacity < n then n else 0) (reserve alloc s a n).1
        (reserve alloc s a n).2 (contents s a) ∧
      (reserve alloc s a n).2.size = a.size ∧
      (reserve alloc s a n).2.capacity = max a.capacity n := by
  by_cases hn : n ≤ a.capacity
  · rw [reserve, if_pos hn, if_neg (Nat.not_lt.mpr hn)]
    exact ⟨⟨h.size_le, fun _ => Or.inl ⟨rfl, rfl⟩, rfl, fun _ _ _ => rfl,
      h.live, rfl⟩, rfl, (Nat.max_eq_left hn).symm⟩
  · obtain ⟨harr, hoff, hview, -⟩ := reserve_grown h (by omega) (hg (by omega))
    have hsz := h.size_le
    have hbelow := h.below
    -- The old elements lie below the fresh slots.
    have hfresh : ∀ q, s.offset ≤ q → ¬ Elem a q := fun q hq he => by
      obtain ⟨hlo, hhi⟩ := h.owns he
      have := hbelow (by omega)
      omega
    rw [if_pos (Nat.lt_of_not_le hn)]
    refine ⟨⟨by rw [harr]; dsimp only; omega, fun _ => Or.inr ?_, hoff,
      fun q hq hown => ?_, fun q hq => ?_, ?_⟩, by rw [harr], by rw [harr]; dsimp only; omega⟩
    · rw [harr, hoff]
      exact ⟨rfl, Nat.le_refl _⟩
    · rw [hview, if_neg fun he => hown (h.owns he), if_neg (by omega)]
    · rw [harr] at hq
      rw [Store.Live, hview, if_neg (hfresh q hq.1),
        if_pos (show s.offset ≤ q ∧ q < s.offset + a.size from hq)]
      rfl
    · rw [harr]
      refine contents_eq_of length_contents fun k hk => ?_
      dsimp only at hk ⊢
      rw [contents_get hk, hview, if_neg (hfresh _ (Nat.le_add_right _ _)),
        if_pos (by omega), Nat.add_sub_cancel_left]
      rfl

/-! ## Constructors -/

theorem fits_none (s : Store T) : Fits s Arr.none :=
  ⟨Nat.le_refl 0, fun h => absurd rfl h, fun _ hq => absurd hq.2 (Nat.not_lt.mpr hq.1)⟩

/-- A constructor fills the first `size` slots of the run it was granted; what
it leaves in them is `f`. -/
theorem built_result {n cap : Nat} {f : Nat → Option T} (hle : n ≤ cap)
    (hg : Granted alloc s cap)
    (hview : ∀ q, s'.view q =
      if (alloc s.offset cap).1 ≤ q ∧ q < (alloc s.offset cap).1 + n then
        some (f (q - (alloc s.offset cap).1))
      else s.view q)
    (hoff : s'.offset = (alloc s.offset cap).2) :
    Result s Arr.none cap s' ⟨(alloc s.offset cap).1, n, cap⟩ ((List.range n).map f) := by
  have hcon : contents s' ⟨(alloc s.offset cap).1, n, cap⟩ = (List.range n).map f := by
    refine contents_eq_of (by simp) fun k hk => ?_
    dsimp only at hk ⊢
    rw [hview, if_pos ⟨Nat.le_add_right _ _, Nat.add_lt_add_left hk _⟩,
      Nat.add_sub_cancel_left, List.getElem?_map, List.getElem?_range hk]
    rfl
  have hlive : ∀ q, Elem ⟨(alloc s.offset cap).1, n, cap⟩ q → s'.Live q := fun q hq => by
    obtain ⟨hlo, hhi⟩ := hq
    dsimp only at hlo hhi
    rw [Store.Live, hview, if_pos ⟨hlo, hhi⟩]
    rfl
  rw [Granted] at hg
  by_cases h0 : cap = 0
  · rw [if_pos h0] at hg
    refine ⟨hle, fun h => absurd h0 h, ?_, fun q _ _ => ?_, hlive, hcon⟩
    · rw [hoff, hg, h0]
      rfl
    · rw [hview, if_neg (by omega)]
  · rw [if_neg h0] at hg
    refine ⟨hle, fun _ => Or.inr ?_, ?_, fun q hq _ => ?_, hlive, hcon⟩
    · rw [hoff, hg]
      exact ⟨rfl, Nat.le_refl _⟩
    · rw [hoff, hg]
    · rw [hview, if_neg (by rw [hg]; dsimp only; omega)]

theorem ofSize_result {n : Nat} (hg : Granted alloc s n) (v : T) :
    Result s Arr.none n (ofSize alloc s n v).1 (ofSize alloc s n v).2
      (List.replicate n (some v)) := by
  obtain ⟨hview, hoff, -⟩ := constructN_spec
    { s with offset := (alloc s.offset n).2 } (alloc s.offset n).1 n v
  have := built_result (f := fun _ => some v) (Nat.le_refl n) hg hview hoff
  rwa [List.map_const', List.length_range] at this

theorem ofRange_result {vs : List T} (hg : Granted alloc s vs.length) :
    Result s Arr.none vs.length (ofRange alloc s vs).1 (ofRange alloc s vs).2
      (vs.map some) := by
  obtain ⟨hview, hoff, -⟩ := copyConstructList_spec vs
    { s with offset := (alloc s.offset vs.length).2 } (alloc s.offset vs.length).1
  have := built_result (f := fun k => vs[k]?) (Nat.le_refl vs.length) hg hview hoff
  have hlist : (List.range vs.length).map (fun k => vs[k]?) = vs.map some := by
    refine List.ext_getElem? fun k => ?_
    rw [List.getElem?_map, List.getElem?_map]
    by_cases hk : k < vs.length
    · rw [List.getElem?_range hk, Option.map_some, List.getElem?_eq_getElem hk,
        Option.map_some]
    · rw [List.getElem?_eq_none (by rw [List.length_range]; omega),
        List.getElem?_eq_none (by omega)]
      rfl
  rwa [hlist] at this

/-- A granted buffer does not meet the elements of an array that is there. -/
theorem Fits.apart_granted {b : Arr} (h : Fits s b) (hg : Granted alloc s b.capacity) :
    b.data + b.size ≤ (alloc s.offset b.capacity).1 ∨
      (alloc s.offset b.capacity).1 + b.size ≤ b.data := by
  have hsz := h.size_le
  rw [hg]
  by_cases h0 : b.capacity = 0
  · omega
  · have := h.below h0
    rw [if_neg h0]
    exact Or.inl (by dsimp only; omega)

/-- A copy has the elements and the capacity of the original. -/
theorem ofCopy_result {b : Arr} (h : Fits s b) (hg : Granted alloc s b.capacity) :
    Result s Arr.none b.capacity (ofCopy alloc s b).1 (ofCopy alloc s b).2
      (contents s b) := by
  obtain ⟨hview, hoff, -⟩ := copyConstructN_spec
    { s with offset := (alloc s.offset b.capacity).2 } b.data b.size
    (alloc s.offset b.capacity).1 (h.apart_granted hg)
  exact built_result (f := fun k => (s.view (b.data + k)).join) h.size_le hg hview hoff

/-- The slots a constructor asks for. -/
def requested : Ctor T → Nat
  | .none => 0
  | .sized n | .filled n _ => n
  | .range vs => vs.length

/-- The elements a constructor leaves. -/
def built [Inhabited T] : Ctor T → List (Option T)
  | .none => []
  | .sized n => List.replicate n (some default)
  | .filled n v => List.replicate n (some v)
  | .range vs => vs.map some

theorem construct_result [Inhabited T] (c : Ctor T) (hg : Granted alloc s (requested c)) :
    Result s Arr.none (requested c) (construct alloc s c).1 (construct alloc s c).2
      (built c) := by
  cases c with
  | none =>
      exact ⟨Nat.le_refl 0, fun h => absurd rfl h, rfl, fun _ _ _ => rfl,
        (fits_none s).live, rfl⟩
  | sized n => exact ofSize_result hg default
  | filled n v => exact ofSize_result hg v
  | range vs => exact ofRange_result hg

/-! ## The calls -/

/-- The capacity a call asks `reserve` for. -/
def growTo (a : Arr) : Call T → Nat
  | .reserve n | .resize n | .resizeWith n _ => n
  | .pushBack _ | .insert _ _ =>
      if a.size = a.capacity then (if a.capacity ≠ 0 then a.capacity * 2 else 4) else 0
  | .popBack | .clear | .clearAndDeallocateBuffer | .erase _ | .eraseRange _ _ => 0

/-- The slots a call asks the memory for, 0 where it asks for none. -/
def growthRequest (a : Arr) (c : Call T) : Nat :=
  if a.capacity < growTo a c then growTo a c else 0

/-- What a call does once it has its buffer. -/
def inPlaceCall [Inhabited T] (s : Store T) (a : Arr) : Call T → Store T × Arr
  | .reserve _ => (s, a)
  | .resize n =>
      (if a.size < n then constructN s (a.data + a.size) (n - a.size) (.value default)
        else destroyRange s a n a.size, { a with size := n })
  | .resizeWith n v =>
      (if a.size < n then constructN s (a.data + a.size) (n - a.size) (.value v)
        else destroyRange s a n a.size, { a with size := n })
  | .pushBack v =>
      (constructN s (a.data + a.size) (a.size + 1 - a.size) (.value v),
        { a with size := a.size + 1 })
  | .popBack => (destroyRange s a (a.size - 1) a.size, { a with size := a.size - 1 })
  | .clear => (destroyRange s a 0 a.size, { a with size := 0 })
  | .clearAndDeallocateBuffer => clearAndDeallocateBuffer s a
  | .insert pos v =>
      ((shiftUp s a pos).constructAt (a.data + pos) (.value v),
        { a with size := a.size + 1 })
  | .erase pos => eraseRange s a pos (pos + 1)
  | .eraseRange first last => eraseRange s a first last

/-- What a call does to the elements. -/
def onList [Inhabited T] (l : List (Option T)) : Call T → List (Option T)
  | .reserve _ => l
  | .resize n => l.take n ++ List.replicate (n - l.length) (some default)
  | .resizeWith n v => l.take n ++ List.replicate (n - l.length) (some v)
  | .pushBack v => l ++ [some v]
  | .popBack => l.take (l.length - 1)
  | .clear | .clearAndDeallocateBuffer => []
  | .insert pos v => l.insertIdx pos (some v)
  | .erase pos => l.take pos ++ l.drop (pos + 1)
  | .eraseRange first last => l.take first ++ movedDown l first last

theorem ensureRoom_eq (v : T) :
    ensureRoom alloc s a = reserve alloc s a (growTo a (.pushBack v)) := by
  rw [ensureRoom, growTo]
  split
  · rfl
  · rw [reserve, if_pos (Nat.zero_le _)]

theorem resize_eq (n : Nat) (src : Src T) :
    resize alloc s a n src =
      (let r := reserve alloc s a n
       (if r.2.size < n then
          constructN r.1 (r.2.data + r.2.size) (n - r.2.size) src
        else destroyRange r.1 r.2 n r.2.size, { r.2 with size := n })) := by
  have hres : (if a.capacity < n then reserve alloc s a n else (s, a)) =
      reserve alloc s a n := by
    split
    · rfl
    · next hn => rw [reserve, if_pos (Nat.le_of_not_lt hn)]
  rw [resize, hres]
  obtain ⟨s₁, a₁⟩ := reserve alloc s a n
  dsimp only
  congr 1
  split
  · rfl
  · next hge =>
      split
      · rfl
      · next hge' =>
          rw [destroyRange, show a₁.size - n = 0 by omega]
          rfl

variable [Inhabited T]

/-- Every call is a `reserve` followed by work in the buffer. -/
theorem call_eq (c : Call T) (hl : c.Legal a) : call alloc s a c =
    inPlaceCall (reserve alloc s a (growTo a c)).1 (reserve alloc s a (growTo a c)).2 c := by
  have hzero : reserve alloc s a 0 = (s, a) := by rw [reserve, if_pos (Nat.zero_le _)]
  cases c with
  | reserve n => rfl
  | resize n => rw [call, resize_eq]; rfl
  | resizeWith n v => rw [call, resize_eq]; rfl
  | pushBack v =>
      rw [call, emplaceBack, ensureRoom_eq v]
      obtain ⟨s₁, a₁⟩ := reserve alloc s a (growTo a (.pushBack v))
      rw [inPlaceCall, Nat.add_sub_cancel_left]
      rfl
  | insert pos v =>
      rw [call, insert, ensureRoom_eq v]
      rfl
  | popBack =>
      rw [call, growTo, hzero, popBack_eq hl]
      rfl
  | clear | clearAndDeallocateBuffer => rw [call, growTo, hzero]; rfl
  | erase pos =>
      rw [call, growTo, hzero, inPlaceCall, eraseRange, erase, destroyRange,
        Nat.add_sub_cancel_left]
      rfl
  | eraseRange first last => rw [call, growTo, hzero]; rfl

/-- The buffer is large enough for what the call puts into it. -/
def HasRoom (a : Arr) : Call T → Prop
  | .resize n | .resizeWith n _ => n ≤ a.capacity
  | .pushBack _ | .insert _ _ => a.size < a.capacity
  | _ => True

omit [Inhabited T] in
theorem hasRoom_of_reserve (h : Fits s a) (c : Call T) {a₁ : Arr} (hsize : a₁.size = a.size)
    (hcap : a₁.capacity = max a.capacity (growTo a c)) : HasRoom a₁ c := by
  have hsz := h.size_le
  cases c with
  | resize n | resizeWith n v =>
      rw [HasRoom, hcap]
      exact Nat.le_max_right _ _
  | pushBack v | insert pos v =>
      rw [HasRoom, hcap, hsize, growTo]
      by_cases hfull : a.size = a.capacity
      · rw [if_pos hfull]
        split <;> omega
      · omega
  | _ => trivial

omit [Inhabited T] in
theorem resize_inPlace (h : Fits s a) {n : Nat} (hcap : n ≤ a.capacity) (v : T) :
    InPlace s a
      (if a.size < n then constructN s (a.data + a.size) (n - a.size) (.value v)
        else destroyRange s a n a.size) { a with size := n }
      ((contents s a).take n ++ List.replicate (n - (contents s a).length) (some v)) := by
  rw [length_contents]
  split
  · next hlt =>
      rw [List.take_of_length_le (by rw [length_contents]; omega)]
      exact extend_inPlace h (Nat.le_of_lt hlt) hcap v
  · next hge =>
      rw [show n - a.size = 0 by omega, List.replicate_zero, List.append_nil]
      exact shrink_inPlace h (by omega)

theorem inPlaceCall_inPlace (h : Fits s a) {c : Call T} (hl : c.Legal a)
    (hroom : HasRoom a c) :
    InPlace s a (inPlaceCall s a c).1 (inPlaceCall s a c).2 (onList (contents s a) c) := by
  cases c with
  | reserve n => exact h.refl
  | resize n => exact resize_inPlace h hroom default
  | resizeWith n v => exact resize_inPlace h hroom v
  | pushBack v =>
      have := extend_inPlace h (Nat.le_succ a.size) hroom v
      rw [Nat.succ_eq_add_one, Nat.add_sub_cancel_left] at this
      rw [inPlaceCall, Nat.add_sub_cancel_left]
      exact this
  | popBack =>
      have := shrink_inPlace h (Nat.sub_le a.size 1)
      rw [inPlaceCall, onList, length_contents]
      exact this
  | clear => exact shrink_inPlace h (Nat.zero_le a.size)
  | clearAndDeallocateBuffer => exact clearAndDeallocateBuffer_inPlace h
  | insert pos v => exact insert_inPlace h hl hroom v
  | erase pos => exact eraseGap_inPlace h (Nat.lt_succ_self pos) hl
  | eraseRange first last => exact eraseRange_inPlace h hl.1 hl.2

omit [Inhabited T] in
/-- Work in the buffer after a `reserve`. -/
theorem Result.trans_inPlace {n : Nat} {l l' : List (Option T)}
    (h₁ : Result s a n s₁ a₁ l) (h₂ : InPlace s₁ a₁ s' a' l') :
    Result s a n s' a' l' := by
  have hoff := h₁.offset_eq
  obtain ⟨hsize, hbuf', hoff', hframe', hlive, hcon⟩ := h₂
  refine ⟨hsize, fun h0 => ?_, by omega, fun q hq hown => ?_, hlive, hcon⟩
  · obtain ⟨hd, hc⟩ := hbuf'.resolve_right h0
    rw [hd, hc, hoff']
    exact h₁.buffer (hc ▸ h0)
  · have hown' : ¬ Owns a₁ q := fun hq₁ =>
      (h₁.owned hq₁).elim hown (Nat.not_le.mpr hq)
    rw [hframe' q hown', h₁.frame q hq hown]

omit [Inhabited T] in
/-- The array fits the store after the call again. -/
theorem Result.fits {n : Nat} {l : List (Option T)} (h : Result s a n s' a' l) (hfit : Fits s a)
    (h0 : 0 < s.offset) : Fits s' a' := by
  refine ⟨h.size_le, fun hc => ?_, h.live⟩
  rcases h.buffer hc with ⟨hd, hc'⟩ | ⟨hd, hle⟩
  · obtain ⟨hpos, hle⟩ := hfit.below (hc' ▸ hc)
    have := h.offset_eq
    rw [hd, hc']
    omega
  · exact ⟨by omega, hle⟩

omit [Inhabited T] in
/-- The buffer a call works in, when the memory grants what it asks for. -/
theorem reserve_ready (h : Fits s a) (h0 : 0 < s.offset) {c : Call T} (hl : c.Legal a)
    (hg : Granted alloc s (growthRequest a c)) {r : Store T × Arr}
    (hr : reserve alloc s a (growTo a c) = r) :
    Result s a (growthRequest a c) r.1 r.2 (contents s a) ∧ Fits r.1 r.2 ∧ c.Legal r.2 ∧
      HasRoom r.2 c ∧ r.2.capacity = max a.capacity (growTo a c) := by
  obtain ⟨hres, hsize, hcap⟩ := reserve_result h fun hlt => by
    rwa [growthRequest, if_pos hlt] at hg
  rw [hr] at hres hsize hcap
  have hl' : c.Legal r.2 := by
    cases c <;> first | trivial | (rw [Call.Legal, hsize]; exact hl)
  exact ⟨hres, hres.fits h h0, hl', hasRoom_of_reserve h c hsize hcap, hcap⟩

/-- What a call does, when the memory grants what it asks for. -/
theorem call_result (h : Fits s a) (h0 : 0 < s.offset) {c : Call T} (hl : c.Legal a)
    (hg : Granted alloc s (growthRequest a c)) :
    Result s a (growthRequest a c) (call alloc s a c).1 (call alloc s a c).2
      (onList (contents s a) c) := by
  obtain ⟨hres, hfit, hl', hroom, -⟩ := reserve_ready h h0 hl hg rfl
  rw [call_eq c hl]
  have := inPlaceCall_inPlace hfit hl' hroom
  rw [hres.contents_eq] at this
  exact hres.trans_inPlace this

end

end Ycetl.Ref.DynamicArray
