import Ycetl.Lib.Runs
import Ycetl.Proofs.DynamicArrayWorld

/-!
# The lives of the elements

Between two calls the live slots are to be exactly the elements of the arrays,
and no primitive may have met a slot in the wrong state. Filling and emptying
slots at the end of an array keeps that, and so does a new buffer. The two
loops that shift elements do not: the one that opens a gap ends by
constructing over the moved-from object in it, and the one that closes a gap
constructs over the elements it has just moved and leaves the last of them
behind. So the calls that keep the account are those whose shift has nothing
to do, and these are the edits at the end of the array.
-/

namespace Ycetl.Ref.DynamicArray

open Ycetl.Lib

variable {T : Type} {s s' s₁ : Store T} {a a' a₁ : Arr}

/-- One array's call as the account sees it: no fault, and the elements of the
array are exchanged for its new ones. -/
structure Lives (s : Store T) (a : Arr) (s' : Store T) (a' : Arr) : Prop where
  clean : s'.Clean
  live_iff : ∀ q, s'.Live q ↔ (s.Live q ∧ ¬ Elem a q) ∨ Elem a' q

/-- No live object lies where the array could put one. -/
structure Spare (s : Store T) (a : Arr) : Prop where
  buffer : ∀ q, Owns a q → s.Live q → Elem a q
  fresh : ∀ q, s.offset ≤ q → ¬ s.Live q

theorem Fits.lives_refl (h : Fits s a) (hc : s.Clean) : Lives s a s a := by
  refine ⟨hc, fun q => ⟨fun hl => ?_, ?_⟩⟩
  · by_cases hq : Elem a q
    · exact Or.inr hq
    · exact Or.inl ⟨hl, hq⟩
  · intro hor
    rcases hor with ⟨hl, -⟩ | hq
    · exact hl
    · exact h.live q hq

theorem Lives.trans (h₁ : Lives s a s₁ a₁) (h₂ : Lives s₁ a₁ s' a')
    (hnew : ∀ q, Elem a₁ q → s.Live q → Elem a q) : Lives s a s' a' := by
  refine ⟨h₂.clean, fun q => ?_⟩
  rw [h₂.live_iff, h₁.live_iff]
  constructor
  · intro hor
    rcases hor with ⟨hl | hq, hne⟩ | hq
    · exact Or.inl hl
    · exact absurd hq hne
    · exact Or.inr hq
  · intro hor
    rcases hor with ⟨hl, hne⟩ | hq
    · exact Or.inl ⟨Or.inl ⟨hl, hne⟩, fun hq => hne (hnew q hq hl)⟩
    · exact Or.inr hq

/-! ## The ways to keep the account -/

/-- A change of the size is not seen where it makes no difference. -/
theorem elem_resized {n q : Nat} (h : q < a.data + n ↔ q < a.data + a.size) :
    Elem { a with size := n } q ↔ Elem a q :=
  and_congr_right fun _ => h

theorem extend_lives (h : Fits s a) (hc : s.Clean) (hsp : Spare s a) {n : Nat}
    (hn : a.size ≤ n) (hcap : n ≤ a.capacity) (v : T) :
    Lives s a (constructN s (a.data + a.size) (n - a.size) (.value v))
      { a with size := n } := by
  obtain ⟨hview, -, hclean⟩ := constructN_spec s (a.data + a.size) (n - a.size) v
  have hraw : ∀ q, a.data + a.size ≤ q → q < a.data + a.size + (n - a.size) →
      ¬ s.Live q := fun q hlo hhi hl => by
    have := (hsp.buffer q ⟨by omega, by omega⟩ hl).2
    omega
  refine ⟨hclean hc hraw, fun q => ?_⟩
  rw [Store.Live, hview]
  by_cases hin : a.data + a.size ≤ q ∧ q < a.data + a.size + (n - a.size)
  · rw [if_pos hin]
    exact ⟨fun _ => Or.inr ⟨by dsimp only; omega, by dsimp only; omega⟩, fun _ => rfl⟩
  · rw [if_neg hin]
    have helem : Elem { a with size := n } q ↔ Elem a q := elem_resized (by omega)
    rw [helem]
    exact (h.lives_refl hc).live_iff q

theorem shrink_lives (h : Fits s a) (hc : s.Clean) {n : Nat} (hn : n ≤ a.size) :
    Lives s a (destroyRange s a n a.size) { a with size := n } := by
  obtain ⟨hview, -, hclean⟩ := destroyRange_spec s a hn
  refine ⟨hclean hc fun q hlo hhi => h.live q ⟨by omega, hhi⟩, fun q => ?_⟩
  rw [Store.Live, hview]
  by_cases hin : a.data + n ≤ q ∧ q < a.data + a.size
  · rw [if_pos hin]
    refine ⟨fun hl => by simp at hl, ?_⟩
    intro hor
    rcases hor with ⟨-, hne⟩ | ⟨-, hhi⟩
    · exact absurd ⟨by omega, hin.2⟩ hne
    · dsimp only at hhi
      omega
  · rw [if_neg hin]
    have helem : Elem { a with size := n } q ↔ Elem a q := elem_resized (by omega)
    rw [helem]
    exact (h.lives_refl hc).live_iff q

theorem clearAndDeallocateBuffer_lives (h : Fits s a) (hc : s.Clean) :
    Lives s a (clearAndDeallocateBuffer s a).1 Arr.none := by
  obtain ⟨hclean, hlive⟩ := shrink_lives h hc (Nat.zero_le a.size)
  refine ⟨hclean, fun q => (hlive q).trans (or_congr Iff.rfl ?_)⟩
  exact ⟨fun hq => absurd hq.2 (Nat.not_lt.mpr hq.1),
    fun hq => absurd hq.2 (Nat.not_lt.mpr hq.1)⟩

section

variable {alloc : Allocate}

theorem reserve_lives (h : Fits s a) (hc : s.Clean) (hsp : Spare s a) {n : Nat}
    (hg : a.capacity < n → Granted alloc s n) :
    Lives s a (reserve alloc s a n).1 (reserve alloc s a n).2 ∧
      Spare (reserve alloc s a n).1 (reserve alloc s a n).2 ∧
      ∀ q, Elem (reserve alloc s a n).2 q → s.Live q → Elem a q := by
  by_cases hn : n ≤ a.capacity
  · rw [reserve, if_pos hn]
    exact ⟨h.lives_refl hc, hsp, fun _ hq _ => hq⟩
  · obtain ⟨harr, hoff, hview, hclean⟩ := reserve_grown h (by omega) (hg (by omega))
    have hsz := h.size_le
    have hlive : ∀ q, (reserve alloc s a n).1.Live q ↔
        (s.Live q ∧ ¬ Elem a q) ∨ Elem (reserve alloc s a n).2 q := by
      intro q
      rw [Store.Live, hview, harr]
      by_cases hq : Elem a q
      · rw [if_pos hq]
        refine ⟨fun hl => by simp at hl, ?_⟩
        intro hor
        rcases hor with ⟨-, hne⟩ | ⟨hlo, -⟩
        · exact absurd hq hne
        · exact absurd (h.live q hq) (hsp.fresh q hlo)
      · rw [if_neg hq]
        by_cases hin : s.offset ≤ q ∧ q < s.offset + a.size
        · rw [if_pos hin]
          exact ⟨fun _ => Or.inr hin, fun _ => rfl⟩
        · rw [if_neg hin]
          exact ⟨fun hl => Or.inl ⟨hl, hq⟩, fun hl => (hl.resolve_right hin).1⟩
    have hfresh : ∀ q, s.offset ≤ q → (reserve alloc s a n).1.Live q →
        Elem (reserve alloc s a n).2 q := fun q hlo hl =>
      ((hlive q).mp hl).resolve_left fun hl => hsp.fresh q hlo hl.1
    refine ⟨⟨hclean hc hsp.fresh, hlive⟩, ⟨fun q hq hl => ?_, fun q hq hl => ?_⟩,
      fun q hq hl => ?_⟩
    · rw [harr] at hq
      exact hfresh q hq.1 hl
    · have hel := hfresh q (by omega) hl
      rw [harr] at hel
      have := hel.2
      dsimp only at this
      omega
    · rw [harr] at hq
      exact absurd hl (hsp.fresh q hq.1)

/-! ## Constructors -/

/-- The slots of a granted request are raw. -/
theorem Granted.raw {n cap : Nat} (hg : Granted alloc s cap) (hle : n ≤ cap)
    (hfresh : ∀ q, s.offset ≤ q → ¬ s.Live q) (q : Nat)
    (hlo : (alloc s.offset cap).1 ≤ q) (hhi : q < (alloc s.offset cap).1 + n) :
    ¬ s.Live q := by
  rw [hg] at hlo hhi
  split at hhi
  · omega
  · next h0 =>
      rw [if_neg h0] at hlo
      exact hfresh q hlo

theorem built_lives {n p cap : Nat} {f : Nat → Option T} (hclean : s'.Clean)
    (hview : ∀ q, s'.view q = if p ≤ q ∧ q < p + n then some (f (q - p)) else s.view q) :
    Lives s Arr.none s' ⟨p, n, cap⟩ := by
  refine ⟨hclean, fun q => ?_⟩
  have hnone : ¬ Elem Arr.none q := fun hn => absurd hn.2 (Nat.not_lt.mpr hn.1)
  rw [Store.Live, hview]
  by_cases hin : p ≤ q ∧ q < p + n
  · rw [if_pos hin]
    exact ⟨fun _ => Or.inr hin, fun _ => rfl⟩
  · rw [if_neg hin]
    exact ⟨fun hl => Or.inl ⟨hl, hnone⟩, fun hl => (hl.resolve_right hin).1⟩

theorem ofSize_lives (hc : s.Clean) (hfresh : ∀ q, s.offset ≤ q → ¬ s.Live q)
    {n : Nat} (hg : Granted alloc s n) (v : T) :
    Lives s Arr.none (ofSize alloc s n v).1 (ofSize alloc s n v).2 := by
  have hraw := hg.raw (Nat.le_refl n) hfresh
  obtain ⟨hview, -, hclean⟩ := constructN_spec
    { s with offset := (alloc s.offset n).2 } (alloc s.offset n).1 n v
  exact built_lives (f := fun _ => some v) (hclean ⟨hc.faults, hc.ledger⟩ hraw) hview

theorem ofRange_lives (hc : s.Clean) (hfresh : ∀ q, s.offset ≤ q → ¬ s.Live q)
    {vs : List T} (hg : Granted alloc s vs.length) :
    Lives s Arr.none (ofRange alloc s vs).1 (ofRange alloc s vs).2 := by
  have hraw := hg.raw (Nat.le_refl vs.length) hfresh
  obtain ⟨hview, -, hclean⟩ := copyConstructList_spec vs
    { s with offset := (alloc s.offset vs.length).2 } (alloc s.offset vs.length).1
  exact built_lives (f := fun k => vs[k]?) (hclean ⟨hc.faults, hc.ledger⟩ hraw) hview

theorem ofCopy_lives (hc : s.Clean) (hfresh : ∀ q, s.offset ≤ q → ¬ s.Live q) {b : Arr}
    (h : Fits s b) (hg : Granted alloc s b.capacity) :
    Lives s Arr.none (ofCopy alloc s b).1 (ofCopy alloc s b).2 := by
  have hraw := hg.raw h.size_le hfresh
  obtain ⟨hview, -, hclean⟩ := copyConstructN_spec
    { s with offset := (alloc s.offset b.capacity).2 } b.data b.size
    (alloc s.offset b.capacity).1 (h.apart_granted hg)
  exact built_lives (f := fun k => (s.view (b.data + k)).join)
    (hclean ⟨hc.faults, hc.ledger⟩ hraw fun q hlo hhi => h.live q ⟨hlo, hhi⟩) hview

variable [Inhabited T]

theorem construct_lives (hc : s.Clean) (hfresh : ∀ q, s.offset ≤ q → ¬ s.Live q)
    (c : Ctor T) (hg : Granted alloc s (requested c)) :
    Lives s Arr.none (construct alloc s c).1 (construct alloc s c).2 := by
  cases c with
  | none => exact (fits_none s).lives_refl hc
  | sized n => exact ofSize_lives hc hfresh hg default
  | filled n v => exact ofSize_lives hc hfresh hg v
  | range vs => exact ofRange_lives hc hfresh hg

/-! ## Calls -/

/-- An edit that shifts nothing: at the end of the array. -/
def Call.AtEnd (a : Arr) : Call T → Prop
  | .insert pos _ => pos = a.size
  | .erase pos => pos + 1 = a.size
  | .eraseRange _ last => last = a.size
  | _ => True

omit [Inhabited T] in
theorem eraseRange_end {first : Nat} (hle : first ≤ a.size) :
    eraseRange s a first a.size =
      (destroyRange s a first a.size, { a with size := first }) := by
  rw [eraseRange, shiftDown, show a.size - (a.size - first) = first by omega,
    Nat.sub_self]
  rfl

/-- At its end, an array keeps the account of its elements. -/
theorem inPlaceCall_lives (h : Fits s a) (hc : s.Clean) (hsp : Spare s a) {c : Call T}
    (hl : c.Legal a) (hroom : HasRoom a c) (hend : c.AtEnd a) :
    Lives s a (inPlaceCall s a c).1 (inPlaceCall s a c).2 := by
  have hresize : ∀ n v, n ≤ a.capacity → Lives s a
      (if a.size < n then constructN s (a.data + a.size) (n - a.size) (.value v)
        else destroyRange s a n a.size) { a with size := n } := by
    intro n v hn
    split
    · next hlt => exact extend_lives h hc hsp (Nat.le_of_lt hlt) hn v
    · next hge => exact shrink_lives h hc (Nat.le_of_not_lt hge)
  cases c with
  | reserve n => exact h.lives_refl hc
  | resize n => exact hresize n default hroom
  | resizeWith n v => exact hresize n v hroom
  | pushBack v => exact extend_lives h hc hsp (Nat.le_succ a.size) hroom v
  | popBack => exact shrink_lives h hc (Nat.sub_le a.size 1)
  | clear => exact shrink_lives h hc (Nat.zero_le a.size)
  | clearAndDeallocateBuffer =>
      obtain ⟨hclean, hlive⟩ := clearAndDeallocateBuffer_lives h hc
      refine ⟨hclean, fun q => (hlive q).trans (or_congr Iff.rfl ?_)⟩
      exact ⟨fun hq => absurd hq.2 (Nat.not_lt.mpr hq.1),
        fun hq => absurd hq.2 (Nat.not_lt.mpr hq.1)⟩
  | insert pos v =>
      have hpos : pos = a.size := hend
      have := extend_lives h hc hsp (Nat.le_succ a.size) hroom v
      rw [Nat.succ_eq_add_one, Nat.add_sub_cancel_left] at this
      rw [inPlaceCall, hpos, shiftUp, Nat.sub_self]
      exact this
  | erase pos =>
      have hpos : pos + 1 = a.size := hend
      rw [inPlaceCall, hpos, eraseRange_end (by omega)]
      exact shrink_lives h hc (by omega)
  | eraseRange first last =>
      have hlast : last = a.size := hend
      obtain ⟨hle, -⟩ := hl
      rw [inPlaceCall, hlast, eraseRange_end (hlast ▸ hle)]
      exact shrink_lives h hc (hlast ▸ hle)

/-- The calls that shift elements do not keep it: an object is constructed
over a live one, or a moved-from object is left behind the last element. -/
theorem inPlaceCall_faulty (h : Fits s a) {c : Call T} (hl : c.Legal a)
    (hend : ¬ c.AtEnd a) :
    (inPlaceCall s a c).1.faults ≠ [] ∨
      ∃ q, Owns a q ∧ (inPlaceCall s a c).1.Live q ∧ ¬ Elem (inPlaceCall s a c).2 q := by
  have herase : ∀ first last, first ≤ last → last < a.size →
      (eraseRange s a first last).1.faults ≠ [] ∨
        ∃ q, Owns a q ∧ (eraseRange s a first last).1.Live q ∧
          ¬ Elem (eraseRange s a first last).2 q := by
    intro first last hle hlt
    obtain ⟨hdview, -, -⟩ := destroyRange_spec s a hle
    by_cases heq : first = last
    · -- An empty range: every element is constructed over itself.
      refine Or.inl ?_
      rw [heq] at hdview
      rw [eraseRange, heq, Nat.sub_self]
      refine shiftDown_zero_faults hlt ?_
      rw [Store.Live, hdview, if_neg (by omega)]
      exact h.live _ ⟨by omega, by omega⟩
    · -- The last old slot is drained and nobody destroys it.
      refine Or.inr ⟨a.data + (a.size - 1), h.owns ⟨by omega, by omega⟩, ?_, ?_⟩
      · obtain ⟨hview, -⟩ := shiftDown_spec (destroyRange s a first last) a
          (show 0 < last - first by omega) (show first + (last - first) ≤ a.size by omega)
        rw [eraseRange, Store.Live, hview, if_neg (by omega), if_pos (by omega),
          Option.isSome_map, hdview, if_neg (by omega)]
        exact h.live _ ⟨by omega, by omega⟩
      · intro hex
        obtain ⟨-, hhi⟩ := hex
        rw [eraseRange] at hhi
        dsimp only at hhi
        omega
  cases c with
  | insert pos v =>
      have hpos : pos ≤ a.size := hl
      have hne : pos ≠ a.size := hend
      refine Or.inl (Store.constructAt_faults_of_live ?_)
      obtain ⟨hview, -⟩ := shiftUp_spec s a hpos fun q hlo hhi => h.live q ⟨hlo, hhi⟩
      rw [Store.Live, hview, if_neg (by omega), if_pos ⟨rfl, by omega⟩, Option.isSome_map]
      exact h.live _ ⟨by omega, by omega⟩
  | erase pos =>
      have hpos : pos < a.size := hl
      have hne : pos + 1 ≠ a.size := hend
      exact herase pos (pos + 1) (Nat.le_succ pos) (by omega)
  | eraseRange first last =>
      obtain ⟨hle, hlast⟩ := hl
      have hne : last ≠ a.size := hend
      exact herase first last hle (by omega)
  | _ => exact absurd trivial hend

/-! ## The account of a memory -/

end

namespace World

variable {w w' : World T}

/-- Between two calls: no fault so far, and the live slots are the elements. -/
structure Tidy (w : World T) : Prop where
  placed : Placed w
  clean : w.store.Clean
  live_iff : ∀ q, w.store.Live q ↔ ∃ i a, w.arrays i = some a ∧ Elem a q

theorem tidy_initial : Tidy (initial : World T) where
  placed := placed_initial
  clean := Store.clean_fresh 1
  live_iff q := by
    refine ⟨fun hl => ?_, ?_⟩
    · cases hl
    · intro hex
      obtain ⟨i, a, ha, -⟩ := hex
      cases ha

theorem Tidy.spare_of (h : Tidy w) (i : Nat) : Spare w.store (w.current i) := by
  refine ⟨fun q hq hl => ?_, fun q hq hl => ?_⟩
  · obtain ⟨k, b, hb, hbq⟩ := (h.live_iff q).mp hl
    have hbo := (h.placed.fits k b hb).owns hbq
    by_cases hk : i = k
    · subst hk
      rw [current_of_some hb]
      exact hbq
    · exact absurd hq (h.placed.current_apart hk hb hbo)
  · obtain ⟨k, b, hb, hbq⟩ := (h.live_iff q).mp hl
    have := h.placed.lt_offset hb ((h.placed.fits k b hb).owns hbq)
    omega

theorem Tidy.put (h : Tidy w) {i n : Nat} {s' : Store T} {a a' : Arr}
    {l : List (Option T)} (ha : w.current i = a) (hr : Result w.store a n s' a' l)
    (hlv : Lives w.store a s' a') : Tidy (w.put i (s', a')) := by
  refine ⟨(h.placed.put ha hr).1, hlv.clean, fun q => ?_⟩
  subst ha
  show s'.Live q ↔ _
  rw [hlv.live_iff]
  constructor
  · intro hor
    rcases hor with ⟨hl, hne⟩ | hq
    · obtain ⟨k, b, hb, hbq⟩ := (h.live_iff q).mp hl
      have hk : k ≠ i := by
        intro heq
        subst heq
        rw [current_of_some hb] at hne
        exact hne hbq
      exact ⟨k, b, (put_arrays_ne hk _).trans hb, hbq⟩
    · exact ⟨i, a', put_arrays_self _, hq⟩
  · intro hex
    obtain ⟨k, b, hb, hbq⟩ := hex
    by_cases hk : k = i
    · subst hk
      rw [put_arrays_self, Option.some.injEq] at hb
      subst hb
      exact Or.inr hbq
    · rw [put_arrays_ne hk] at hb
      refine Or.inl ⟨(h.live_iff q).mpr ⟨k, b, hb, hbq⟩, fun hq => ?_⟩
      exact h.placed.current_apart (Ne.symm hk) hb ((h.placed.fits k b hb).owns hbq)
        ((h.placed.fits_current i).owns hq)

theorem not_elem_none (q : Nat) : ¬ Elem Arr.none q := fun h =>
  Nat.not_lt.mpr h.1 h.2

/-- A buffer that changes hands takes its elements along. The array that
receives it had none. -/
theorem Tidy.moved (h : Tidy w) {i j : Nat} (hij : i ≠ j) {b : Arr}
    (hb : w.arrays j = some b) (hi : w.current i = Arr.none) :
    Tidy ((w.release j).put i (w.store, b)) := by
  refine ⟨h.placed.moved hij hb, h.clean, fun q => (h.live_iff q).trans ?_⟩
  constructor
  · intro hex
    obtain ⟨k, c, hc, hcq⟩ := hex
    by_cases hkj : k = j
    · subst hkj
      rw [hb, Option.some.injEq] at hc
      subst hc
      exact ⟨i, b, put_arrays_self _, hcq⟩
    · have hki : k ≠ i := by
        intro heq
        subst heq
        rw [current_of_some hc] at hi
        exact not_elem_none q (hi ▸ hcq)
      refine ⟨k, c, ?_, hcq⟩
      rw [put_arrays_ne hki, release, put_arrays_ne hkj, hc]
  · intro hex
    obtain ⟨k, c, hc, hcq⟩ := hex
    by_cases hki : k = i
    · subst hki
      rw [put_arrays_self, Option.some.injEq] at hc
      subst hc
      exact ⟨j, b, hb, hcq⟩
    · rw [put_arrays_ne hki] at hc
      by_cases hkj : k = j
      · subst hkj
        rw [release, put_arrays_self, Option.some.injEq] at hc
        subst hc
        exact absurd hcq (not_elem_none q)
      · rw [release, put_arrays_ne hkj] at hc
        exact ⟨k, c, hc, hcq⟩

theorem Tidy.drop (h : Tidy w) {i : Nat} (hi : w.current i = Arr.none) :
    Tidy ⟨w.store, Function.update w.arrays i none⟩ := by
  refine ⟨h.placed.drop i, h.clean, fun q => (h.live_iff q).trans ?_⟩
  constructor
  · intro hex
    obtain ⟨k, c, hc, hcq⟩ := hex
    have hki : k ≠ i := by
      intro heq
      subst heq
      rw [current_of_some hc] at hi
      exact not_elem_none q (hi ▸ hcq)
    exact ⟨k, c, (Function.update_of_ne hki _ _).trans hc, hcq⟩
  · intro hex
    obtain ⟨k, c, hc, hcq⟩ := hex
    simp only [Function.update_apply] at hc
    split at hc
    · cases hc
    · exact ⟨k, c, hc, hcq⟩

/-! ## Runs -/

variable [Inhabited T]

abbrev dynamicStep (w : World T) (op : Op T) : Option (World T) :=
  step TypedDynamicMemory.allocate w op

/-- What a call is to do to the objects: no primitive meets a slot in the wrong
state, exactly the elements are alive afterwards, no object is destroyed twice,
and when no array is left every object has been destroyed. -/
def Disciplined (w : World T) (op : Op T) : Prop :=
  ∀ w', dynamicStep w op = some w' →
    w'.store.faults = [] ∧
      (∀ q, w'.store.Live q ↔ ∃ i a, w'.arrays i = some a ∧ Elem a q) ∧
      w'.store.destroyed.Nodup ∧
      ((∀ i, w'.arrays i = none) → ∀ o < w'.store.born, o ∈ w'.store.destroyed)

/-- An insert or erase that is made is made at the end of the array. -/
def EditsAtEnd (w : World T) (op : Op T) : Prop :=
  ∀ i c a, op = .call i c → w.arrays i = some a → c.Legal a → c.AtEnd a

theorem Tidy.call_lives (h : Tidy w) {i : Nat} {a : Arr} (ha : w.arrays i = some a)
    {c : Call T} (hl : c.Legal a) (hend : c.AtEnd a) :
    Lives w.store a (call TypedDynamicMemory.allocate w.store a c).1
      (call TypedDynamicMemory.allocate w.store a c).2 := by
  have hfit := h.placed.fits i a ha
  have hsp := h.spare_of i
  rw [current_of_some ha] at hsp
  obtain ⟨hres, hsize, hcap⟩ := reserve_result hfit fun _ =>
    granted_dynamic w.store (growTo a c)
  obtain ⟨hlv, hsp', hnew⟩ := reserve_lives hfit h.clean hsp fun _ =>
    granted_dynamic w.store (growTo a c)
  have hl' : c.Legal (reserve TypedDynamicMemory.allocate w.store a (growTo a c)).2 := by
    cases c <;> first | trivial | (rw [Call.Legal, hsize]; exact hl)
  have hend' : c.AtEnd (reserve TypedDynamicMemory.allocate w.store a (growTo a c)).2 := by
    cases c <;> first | trivial | (rw [Call.AtEnd, hsize]; exact hend)
  rw [call_eq c hl]
  exact hlv.trans (inPlaceCall_lives (hres.fits hfit h.placed.offset_pos) hlv.clean hsp'
    hl' (hasRoom_of_reserve hfit c hsize hcap) hend') hnew

/-- A call that edits at the end, if at all, keeps the account. -/
theorem Tidy.step (h : Tidy w) {op : Op T} (hend : EditsAtEnd w op)
    (hs : dynamicStep w op = some w') : Tidy w' := by
  have hfresh := (h.spare_of 0).fresh
  cases steps_of_step hs with
  | construct hi =>
      exact h.put (current_of_none hi) (construct_result _ (granted_dynamic _ _))
        (construct_lives h.clean hfresh _ (granted_dynamic _ _))
  | @copyConstruct i j b hi hj =>
      have hfit := h.placed.fits j b hj
      exact h.put (current_of_none hi) (ofCopy_result hfit (granted_dynamic _ _))
        (ofCopy_lives h.clean hfresh hfit (granted_dynamic _ _))
  | moveConstruct hi hj hij => exact h.moved hij hj (current_of_none hi)
  | selfAssign hi => exact h
  | @moveAssign i j a b hi hj hij =>
      have hfit := h.placed.fits i a hi
      have hcleared := h.put (current_of_some hi) (clearAndDeallocateBuffer_result hfit)
        (clearAndDeallocateBuffer_lives hfit h.clean)
      exact hcleared.moved hij ((put_arrays_ne (Ne.symm hij) _).trans hj)
        (current_of_some (put_arrays_self _))
  | @call i c a hi hl =>
      exact h.put (current_of_some hi)
        (call_result (h.placed.fits i a hi) h.placed.offset_pos hl (granted_dynamic _ _))
        (h.call_lives hi hl (hend i c a rfl hi hl))
  | @destroy i a hi =>
      have hfit := h.placed.fits i a hi
      have hcleared := h.put (current_of_some hi) (clearAndDeallocateBuffer_result hfit)
        (clearAndDeallocateBuffer_lives hfit h.clean)
      have hdrop := hcleared.drop (current_of_some (put_arrays_self _))
      rw [World.put, Function.update_idem] at hdrop
      exact hdrop

omit [Inhabited T] in
theorem Tidy.all_destroyed (h : Tidy w) (hnone : ∀ i, w.arrays i = none) :
    ∀ o < w.store.born, o ∈ w.store.destroyed := by
  intro o ho
  refine (h.clean.ledger.accounted o ho).resolve_right ?_
  intro hex
  obtain ⟨p, hp⟩ := hex
  obtain ⟨x, hx, -⟩ := Option.map_eq_some_iff.mp hp
  obtain ⟨i, a, ha, -⟩ := (h.live_iff p).mp (Store.live_iff.mpr ⟨x, hx⟩)
  rw [hnone i] at ha
  cases ha

/-- A call on tidy arrays is disciplined exactly if it edits at the end. -/
theorem disciplined_iff (h : Tidy w) (op : Op T) :
    Disciplined w op ↔ EditsAtEnd w op := by
  constructor
  · rintro hd i c a rfl ha hl
    by_contra hend
    have hs : dynamicStep w (.call i c) =
        some (w.put i (call TypedDynamicMemory.allocate w.store a c)) := by
      rw [dynamicStep, World.step, ha]
      exact if_pos hl
    obtain ⟨hfaults, hlive, -, -⟩ := hd _ hs
    have hfit := h.placed.fits i a ha
    obtain ⟨hres, hsize, -⟩ := reserve_result hfit fun _ =>
      granted_dynamic w.store (growTo a c)
    have hl' : c.Legal (reserve TypedDynamicMemory.allocate w.store a (growTo a c)).2 := by
      cases c <;> first | trivial | (rw [Call.Legal, hsize]; exact hl)
    have hend' : ¬ c.AtEnd (reserve TypedDynamicMemory.allocate w.store a (growTo a c)).2 := by
      cases c <;> first | exact absurd trivial hend | (rw [Call.AtEnd, hsize]; exact hend)
    have hput := (h.placed.put (current_of_some ha) hres).1
    have hbad := inPlaceCall_faulty (hres.fits hfit h.placed.offset_pos) hl' hend'
    rw [← call_eq c hl] at hbad
    rcases hbad with hf | ⟨q, hown, hq, hne⟩
    · exact hf hfaults
    · obtain ⟨k, b, hb, hbq⟩ := (hlive q).mp hq
      by_cases hk : k = i
      · subst hk
        rw [put_arrays_self, Option.some.injEq] at hb
        exact hne (hb ▸ hbq)
      · have hb' := (put_arrays_ne hk _).symm.trans hb
        refine hput.apart i k _ b (put_arrays_self _) ((put_arrays_ne hk _).trans hb')
          (Ne.symm hk) q hown ?_
        exact (h.placed.fits k b hb').owns hbq
  · intro hend w' hs
    have ht := h.step hend hs
    exact ⟨ht.clean.faults, ht.live_iff, ht.clean.ledger.gone_once, ht.all_destroyed⟩

/-- In every run of arrays, every call keeps the account of the objects if and
only if no call inserts or erases before the end of an array. -/
theorem array_lifetimes_disciplined_iff_edits_at_end (ops : List (Op T)) :
    Along dynamicStep Disciplined (initial : World T) ops ↔
      Along dynamicStep EditsAtEnd (initial : World T) ops :=
  along_iff Tidy (fun _ op h => disciplined_iff h op)
    (fun _ op _ h hd hs => h.step ((disciplined_iff h op).mp hd) hs) tidy_initial ops

/-- An insert before the first of two elements constructs the new element over
the moved-from one. -/
theorem array_insert_constructs_over_live :
    ¬ Along dynamicStep Disciplined (initial : World Nat)
        [.construct 0 (.filled 2 5), .call 0 (.insert 0 7)] := by
  intro hex
  obtain ⟨-, h⟩ := hex
  have hfaults := ((h _ rfl).1 _ rfl).1
  cases hfaults

end World

end Ycetl.Ref.DynamicArray
