import Mathlib.Data.List.InsertIdx
import Ycetl.Lib.Rings
import Ycetl.Proofs.DynamicArrayWorld
import Ycetl.Ref.DequeBuffer

/-!
# Arguments that refer to an element of the container

A call whose argument is `a[j]` is to do what it does with the value of `a[j]`.
The argument is read late: after the buffer has been replaced, where its slot
has been destroyed, and in `insert` after the gap has been opened, where its
slot may have been moved from or have taken the element before it. `readBack`
is what is read then, and everything else goes as it does with a value.
-/

namespace Ycetl.Ref

open Ycetl.Lib

variable {T : Type} {s s' : Store T}

namespace DynamicArray

variable {a : Arr}

/-- The same call with a value. -/
def OwnCall.withValue (v : T) : OwnCall → Call T
  | .pushBack => .pushBack v
  | .resize n => .resizeWith n v
  | .insert pos => .insert pos v

/-- A position inside the array, and a `resize` that reads its argument. -/
def OwnCall.Legal (a : Arr) : OwnCall → Prop
  | .pushBack => True
  | .resize n => a.size < n
  | .insert pos => pos ≤ a.size

/-- What the list becomes when the argument is read as `x`. -/
def OwnCall.onList (l : List (Option T)) (x : Option T) : OwnCall → List (Option T)
  | .pushBack => l ++ [x]
  | .resize n => l ++ List.replicate (n - l.length) x
  | .insert pos => l.insertIdx pos x

/-- The call does not replace the buffer. -/
def OwnCall.Room (a : Arr) : OwnCall → Prop
  | .pushBack | .insert _ => a.size < a.capacity
  | .resize n => n ≤ a.capacity

instance (a : Arr) (c : OwnCall) : Decidable (c.Room a) := by
  cases c <;> unfold OwnCall.Room <;> infer_instance

/-- What is read of element `j` of the list `l` in a buffer that is kept. -/
def OwnCall.readBack (l : List (Option T)) (j : Nat) : OwnCall → Option T
  | .pushBack | .resize _ => l[j]?.join
  | .insert pos => if j < pos then l[j]?.join else if pos < j then l[j - 1]?.join else none

/-- The call reads the value that the element had: there is room left, and an
insertion is behind the element or moves an equal one into its slot. -/
def OwnCall.ReadsOld (a : Arr) (l : List (Option T)) (j : Nat) (c : OwnCall) : Prop :=
  c.Room a ∧ ∀ pos, c = .insert pos → j < pos ∨ pos < j ∧ l[j - 1]? = l[j]?

/-! ## Reading late -/

theorem constructN_copy_view {p n r : Nat} (hr : r < p) : ∀ q,
    (constructN s p n (.copy r)).view q =
      if p ≤ q ∧ q < p + n then some (s.view r).join else s.view q := by
  have hloop := upLoop_inv (fun i (s : Store T) => s.constructAt (p + i) (.copy r))
    (fun i (s' : Store T) => ∀ q, s'.view q =
      if p ≤ q ∧ q < p + i then some (s.view r).join else s.view q) 0 n
    (fun q => by rw [if_neg (by omega)]) ?_
  · rwa [Nat.zero_add] at hloop
  · intro i s' _ _ hview q
    have hsrc : s'.view r = s.view r := (hview r).trans (if_neg (by omega))
    rw [view_construct_copy (.inl (by omega)), hsrc]
    by_cases hq : q = p + i
    · rw [if_pos hq, if_pos (by omega)]
    · rw [if_neg hq, hview q]
      by_cases hin : p ≤ q ∧ q < p + i
      · rw [if_pos hin, if_pos (by omega)]
      · rw [if_neg hin, if_neg (by omega)]

section

variable {alloc : Allocate}

/-- A buffer that is replaced takes the old elements with it. -/
theorem reserve_own (h : Fits s a) {n j : Nat} (hj : j < a.size)
    (hg : a.capacity < n → Granted alloc s n) :
    (a.capacity < n ∧ a.data + j < (reserve alloc s a n).2.data ∧
      (reserve alloc s a n).1.view (a.data + j) = none) ∨
    (n ≤ a.capacity ∧ reserve alloc s a n = (s, a)) := by
  rcases Nat.lt_or_ge a.capacity n with hlt | hge
  · obtain ⟨harr, -, hview, -⟩ := reserve_grown h hlt (hg hlt)
    have hsz := h.size_le
    have hbelow := h.below (by omega)
    refine .inl ⟨hlt, ?_, ?_⟩
    · rw [harr]
      show a.data + j < s.offset
      omega
    · rw [hview, if_pos ⟨Nat.le_add_right _ _, Nat.add_lt_add_left hj _⟩]
  · exact .inr ⟨hge, by rw [reserve, if_pos hge]⟩

/-- What is left of a call once it has its buffer. -/
def ownWork (s : Store T) (a : Arr) (p : Nat) : OwnCall → Store T × Arr
  | .pushBack => (s.constructAt (a.data + a.size) (.copy p), { a with size := a.size + 1 })
  | .resize n =>
      (constructN s (a.data + a.size) (n - a.size) (.copy p), { a with size := n })
  | .insert pos =>
      ((shiftUp s a pos).constructAt (a.data + pos) (.copy p), { a with size := a.size + 1 })

/-- The store in which the argument is read. -/
def readingStore (s : Store T) (a : Arr) : OwnCall → Store T
  | .pushBack | .resize _ => s
  | .insert pos => shiftUp s a pos

theorem ownCall_eq {j : Nat} {c : OwnCall} (hl : c.Legal a) (v : T)
    {r : Store T × Arr} (hr : reserve alloc s a (growTo a (c.withValue v)) = r)
    (hsize : r.2.size = a.size) :
    ownCall alloc s a j c = ownWork r.1 r.2 (a.data + j) c := by
  cases c with
  | pushBack =>
      rw [ownCall, emplaceBack, ensureRoom_eq v]
      rw [OwnCall.withValue] at hr
      rw [hr]
      rfl
  | resize n =>
      have hlt : a.size < n := hl
      rw [OwnCall.withValue, growTo] at hr
      rw [ownCall, resize_eq, hr]
      dsimp only
      rw [if_pos (by omega)]
      rfl
  | insert pos =>
      rw [ownCall, insert, ensureRoom_eq v]
      rw [OwnCall.withValue] at hr
      rw [show growTo a (.pushBack v) = growTo a (.insert pos v) from rfl, hr]
      rfl

theorem ownWork_contents {p : Nat} {c : OwnCall} (hl : c.Legal a)
    (hlive : ∀ q, Elem a q → s.Live q) (hp : p < a.data + a.size) :
    contents (ownWork s a p c).1 (ownWork s a p c).2 =
      c.onList (contents s a) ((readingStore s a c).view p).join := by
  cases c with
  | pushBack =>
      have hview : ∀ q, (s.constructAt (a.data + a.size) (.copy p)).view q =
          if a.data + a.size ≤ q ∧ q < a.data + a.size + (a.size + 1 - a.size) then
            some (s.view p).join
          else s.view q := by
        intro q
        rw [view_construct_copy (.inl (by omega))]
        by_cases hq : q = a.data + a.size
        · rw [if_pos hq, if_pos (by omega)]
        · rw [if_neg hq, if_neg (by omega)]
      have hfill := contents_fill (Nat.le_succ a.size) hview
      rw [Nat.succ_eq_add_one, Nat.add_sub_cancel_left] at hfill
      exact hfill
  | resize n =>
      rw [OwnCall.onList, length_contents]
      exact contents_fill (Nat.le_of_lt hl) (constructN_copy_view hp)
  | insert pos =>
      refine contents_gap hl hlive (view_construct_copy ?_)
      -- The slot that is constructed from itself has been moved from.
      by_cases hne : p = a.data + pos
      · obtain ⟨hup, -⟩ := shiftUp_spec s a hl fun q hlo hhi => hlive q ⟨hlo, hhi⟩
        rw [hup, if_neg (by omega), if_pos ⟨hne, by omega⟩]
        cases s.view p <;> exact .inr rfl
      · exact .inl hne

/-- The argument that is read in a buffer that has been kept. -/
theorem readingStore_view {j : Nat} {c : OwnCall} (hl : c.Legal a) (hj : j < a.size)
    (hlive : ∀ q, Elem a q → s.Live q) :
    ((readingStore s a c).view (a.data + j)).join = c.readBack (contents s a) j := by
  have hget : ∀ k, k < a.size → (s.view (a.data + k)).join = (contents s a)[k]?.join := by
    intro k hk
    rw [contents_get hk]
    rfl
  cases c with
  | pushBack => exact hget j hj
  | resize n => exact hget j hj
  | insert pos =>
      obtain ⟨hup, -⟩ := shiftUp_spec s a hl fun q hlo hhi => hlive q ⟨hlo, hhi⟩
      rw [readingStore, hup, OwnCall.readBack]
      rcases Nat.lt_trichotomy j pos with hlt | heq | hgt
      · rw [if_neg (by omega), if_neg (by omega), if_pos hlt]
        exact hget j hj
      · rw [if_neg (by omega), if_pos ⟨by omega, by omega⟩, if_neg (by omega),
          if_neg (by omega)]
        cases s.view (a.data + j) <;> rfl
      · rw [if_pos (by omega), if_neg (by omega), if_pos hgt,
          show a.data + j - 1 = a.data + (j - 1) by omega]
        exact hget (j - 1) (by omega)

/-- A buffer that has been replaced reads nothing. -/
theorem readingStore_view_grown {p : Nat} {c : OwnCall} (hl : c.Legal a)
    (hlive : ∀ q, Elem a q → s.Live q) (hp : p < a.data) (hraw : s.view p = none) :
    ((readingStore s a c).view p).join = none := by
  cases c with
  | insert pos =>
      obtain ⟨hup, -⟩ := shiftUp_spec s a hl fun q hlo hhi => hlive q ⟨hlo, hhi⟩
      rw [readingStore, hup, if_neg (by omega), if_neg (by omega), hraw]
      rfl
  | _ =>
      rw [readingStore, hraw]
      rfl

theorem room_iff (hsz : a.size ≤ a.capacity) (c : OwnCall) (v : T) :
    c.Room a ↔ growTo a (c.withValue v) ≤ a.capacity := by
  cases c with
  | resize n => rfl
  | _ =>
      rw [OwnCall.Room, OwnCall.withValue, growTo]
      by_cases hfull : a.size = a.capacity
      · rw [if_pos hfull]
        split <;> omega
      · rw [if_neg hfull]
        omega

/-- A call leaves the list with what it has read in the place of its argument. -/
theorem ownCall_contents (h : Fits s a) {j : Nat} (hj : j < a.size) {c : OwnCall}
    (hl : c.Legal a) (v : T) (hg : Granted alloc s (growthRequest a (c.withValue v))) :
    ∃ x, contents (ownCall alloc s a j c).1 (ownCall alloc s a j c).2 =
        c.onList (contents s a) x ∧
      (c.Room a → x = c.readBack (contents s a) j) ∧ (¬ c.Room a → x = none) := by
  have hgrant : a.capacity < growTo a (c.withValue v) →
      Granted alloc s (growTo a (c.withValue v)) := by
    intro hlt
    rwa [growthRequest, if_pos hlt] at hg
  obtain ⟨hres, hsize, -⟩ := reserve_result h hgrant
  have hroom := room_iff h.size_le c v
  have hown := reserve_own h hj hgrant
  generalize hr : reserve alloc s a (growTo a (c.withValue v)) = r at hres hsize hown
  have hl' : c.Legal r.2 := by
    cases c <;> first | trivial | (rw [OwnCall.Legal, hsize]; exact hl)
  rw [ownCall_eq hl v hr hsize, ← hres.contents_eq]
  rcases hown with ⟨hlt, hbelow, hraw⟩ | ⟨hge, hsame⟩
  · refine ⟨_, ownWork_contents hl' hres.live (by omega), fun hin => ?_, fun _ => ?_⟩
    · exact absurd (hroom.mp hin) (by omega)
    · exact readingStore_view_grown hl' hres.live hbelow hraw
  · subst hsame
    refine ⟨_, ownWork_contents hl' hres.live (Nat.add_lt_add_left hj _), fun _ => ?_,
      fun hout => ?_⟩
    · exact readingStore_view hl' hj hres.live
    · exact absurd (hroom.mpr hge) hout

theorem onList_withValue [Inhabited T] {l : List (Option T)} {c : OwnCall} (hl : c.Legal a)
    (hlen : l.length = a.size) (v : T) :
    DynamicArray.onList l (c.withValue v) = c.onList l (some v) := by
  cases c with
  | resize n =>
      have hlt : a.size < n := hl
      rw [OwnCall.withValue, DynamicArray.onList, List.take_of_length_le (by omega)]
      rfl
  | _ => rfl

/-- What was read can be told from the list. -/
theorem onList_inj {l : List (Option T)} {c : OwnCall} (hl : c.Legal a)
    (hlen : l.length = a.size) {x y : Option T} : c.onList l x = c.onList l y ↔ x = y := by
  refine ⟨fun h => ?_, fun h => by rw [h]⟩
  cases c with
  | pushBack => exact List.singleton_inj.mp (List.append_cancel_left h)
  | resize n =>
      have hlt : a.size < n := hl
      have hrep := List.append_cancel_left h
      exact (List.replicate_right_inj (by omega)).mp hrep
  | insert pos =>
      have hpos : pos ≤ l.length := hlen ▸ hl
      have hget := congrArg (fun m => m[pos]?) h
      dsimp only [OwnCall.onList] at hget
      rwa [List.getElem?_insertIdx_self, List.getElem?_insertIdx_self, if_pos hpos,
        if_pos hpos, Option.some.injEq] at hget

/-- An element with a value is read back exactly where its slot has kept it. -/
theorem readBack_eq_iff {l : List (Option T)} {j : Nat} {v : T} (hv : l[j]? = some (some v))
    (c : OwnCall) :
    c.readBack l j = some v ↔ ∀ pos, c = .insert pos → j < pos ∨ pos < j ∧ l[j - 1]? = l[j]? := by
  cases c with
  | insert pos =>
      rw [OwnCall.readBack]
      constructor
      · intro h pos' hpos
        rw [OwnCall.insert.injEq] at hpos
        subst hpos
        split at h
        · next hlt => exact .inl hlt
        · split at h
          · next hgt => exact .inr ⟨hgt, (Option.join_eq_some_iff.mp h).trans hv.symm⟩
          · cases h
      · intro h
        rcases h pos rfl with hlt | ⟨hgt, heq⟩
        · rw [if_pos hlt, hv]
          rfl
        · rw [if_neg (by omega), if_pos hgt, heq, hv]
          rfl
  | _ =>
      rw [OwnCall.readBack, hv]
      exact iff_of_true rfl fun _ h => by cases h

theorem ownCall_iff [Inhabited T] (h : Fits s a) {j : Nat} {v : T}
    (hv : (contents s a)[j]? = some (some v)) {c : OwnCall} (hl : c.Legal a)
    (hg : Granted alloc s (growthRequest a (c.withValue v))) :
    contents (ownCall alloc s a j c).1 (ownCall alloc s a j c).2 =
      DynamicArray.onList (contents s a) (c.withValue v) ↔
    c.ReadsOld a (contents s a) j := by
  have hj : j < a.size := by
    obtain ⟨hlt, -⟩ := List.getElem?_eq_some_iff.mp hv
    rwa [length_contents] at hlt
  obtain ⟨x, hx, hroom, hfull⟩ := ownCall_contents h hj hl v hg
  rw [hx, onList_withValue hl length_contents, onList_inj hl length_contents,
    OwnCall.ReadsOld]
  by_cases hc : c.Room a
  · rw [hroom hc, readBack_eq_iff hv]
    exact (and_iff_right hc).symm
  · rw [hfull hc]
    exact iff_of_false (by simp) fun hr => hc hr.1

end

end DynamicArray

namespace DequeBuffer

open DynamicArray

variable {d : DequeBuffer}

/-- The deque has its buffer, and its ring in it. -/
structure Sound (s : Store T) (d : DequeBuffer) : Prop where
  offset_pos : 0 < s.offset
  fits : Fits s d.buf
  size_le : d.size ≤ d.cap
  head_lt : 0 < d.cap → d.head < d.cap

theorem elements_get {i : Nat} (hi : i < d.size) :
    (elements s d)[i]? = some (s.view (d.slot i)).join := by
  rw [elements, List.getElem?_map, List.getElem?_range hi]
  rfl

@[simp] theorem length_elements : (elements s d).length = d.size := by
  rw [elements, List.length_map, List.length_range]

theorem Sound.ring (h : Sound s d) : Ring (contents s d.buf) d.head (elements s d) := by
  have hsize := h.size_le
  refine ⟨?_, ?_, fun i hi => ?_⟩
  · rw [length_elements, length_contents]
    exact hsize
  · rw [length_contents]
    exact h.head_lt
  · rw [length_elements] at hi
    have hpos : 0 < d.buf.size := Nat.lt_of_lt_of_le (Nat.lt_of_le_of_lt (Nat.zero_le i) hi) hsize
    rw [elements_get hi, length_contents, contents_get (Nat.mod_lt _ hpos)]
    rfl

theorem elements_of_ring {l : List (Option T)} (hsize : d.size = l.length)
    (h : Ring (contents s d.buf) d.head l) : elements s d = l := by
  have hfits := h.fits
  rw [length_contents] at hfits
  refine List.ext_getElem? fun i => ?_
  rcases Nat.lt_or_ge i l.length with hi | hi
  · have hread := h.read i hi
    rw [length_contents, contents_get (Nat.mod_lt _ (by omega))] at hread
    rw [elements_get (by omega), ← hread]
    rfl
  · rw [List.getElem?_eq_none (by rw [length_elements]; omega), List.getElem?_eq_none hi]

theorem Sound.slot_elem (h : Sound s d) {i : Nat} (hi : i < d.size) : Elem d.buf (d.slot i) := by
  have hsize := h.size_le
  exact ⟨Nat.le_add_right _ _, Nat.add_lt_add_left (Nat.mod_lt _ (by omega)) _⟩

theorem Sound.slot_inj (h : Sound s d) {i j : Nat} (hi : i < d.size) (hj : j < d.size)
    (heq : d.slot i = d.slot j) : i = j := by
  have hsize := h.size_le
  exact ring_slot_inj (by omega) (by omega) (Nat.add_left_cancel heq)

/-! ## Making room -/

/-- The loop of `grow`: slot `f + i` takes the value of slot `p i`. -/
theorem relayLoop_spec {f m : Nat} {p : Nat → Nat} (hlive : ∀ i, i < m → s.Live (f + i))
    (hinj : ∀ i j, i < m → j < m → p i = p j → i = j) (hlt : ∀ i, i < m → p i < f) :
    let s' := upLoop (fun i s => s.assign (f + i) (.move (p i))) 0 m s
    (∀ i, i < m → s'.view (f + i) = some (s.view (p i)).join) ∧
      (∀ q, s.Live q → s'.Live q) ∧ s'.offset = s.offset := by
  have hloop := upLoop_inv (fun i (s : Store T) => s.assign (f + i) (.move (p i)))
    (fun i (s' : Store T) => (∀ k, k < i → s'.view (f + k) = some (s.view (p k)).join) ∧
      (∀ q, (∀ k, k < i → q ≠ f + k ∧ q ≠ p k) → s'.view q = s.view q) ∧
      (∀ q, s.Live q → s'.Live q) ∧ s'.offset = s.offset) 0 m
    ⟨fun k hk => absurd hk (Nat.not_lt_zero k), fun _ _ => rfl, fun _ hq => hq, rfl⟩ ?_
  · rw [Nat.zero_add] at hloop
    exact ⟨hloop.1, hloop.2.2⟩
  · intro i s' _ hi hex
    obtain ⟨hdone, hkeep, hl, hoff⟩ := hex
    rw [Nat.zero_add] at hi
    have hsrc : s'.view (p i) = s.view (p i) := by
      refine hkeep _ fun k hk => ⟨?_, fun he => ?_⟩
      · have := hlt i hi
        omega
      · have := hinj i k hi (by omega) he
        omega
    have hview : ∀ q, (s'.assign (f + i) (.move (p i))).view q =
        if q = f + i then some (s.view (p i)).join
        else if p i = q then (s'.view q).map fun _ => none else s'.view q := by
      intro q
      have hne : p i ≠ f + i := Nat.ne_of_lt (Nat.lt_of_lt_of_le (hlt i hi) (Nat.le_add_right f i))
      rw [Store.view_assign _ (Src.moved_move_ne hne), Store.view_drain, Store.fetch, hsrc]
      simp only [hl _ (hlive i hi), and_true, Src.moved, Option.some.injEq]
    refine ⟨fun k hk => ?_, fun q hq => ?_, fun q hq => ?_,
      (Store.offset_assign _ _ _).trans hoff⟩
    · rw [hview]
      by_cases hki : k = i
      · rw [hki, if_pos rfl]
      · have := hlt i hi
        rw [if_neg (by omega), if_neg (by omega)]
        exact hdone k (by omega)
    · obtain ⟨hqf, hqp⟩ := hq i (Nat.lt_succ_self i)
      rw [hview, if_neg hqf, if_neg (Ne.symm hqp)]
      exact hkeep q fun k hk => hq k (by omega)
    · rw [Store.Live, hview]
      split
      · rfl
      · split
        · rw [Option.isSome_map]
          exact hl q hq
        · exact hl q hq

section

variable {alloc : Allocate} [Inhabited T]

/-- A deque that has grown has its elements, and the slots they were in are raw. -/
theorem grow_spec (h : Sound s d) {n : Nat} (hn : d.size < n) (hg : Granted alloc s n)
    {r : Store T × DequeBuffer} (hr : grow alloc s d n = r) :
    Sound r.1 r.2 ∧ r.2.cap = n ∧ elements r.1 r.2 = elements s d ∧
      ∀ i, i < d.size → r.1.view (d.slot i) = none := by
  have hpos : 0 < n := Nat.lt_of_le_of_lt (Nat.zero_le _) hn
  have hgrant : Granted alloc s (growthRequest Arr.none (.resize n : Call T)) := by
    rw [growthRequest, growTo, if_pos (show Arr.none.capacity < n from hpos)]
    exact hg
  have hres := call_result (fits_none s) h.offset_pos (c := .resize n) trivial hgrant
  rw [call] at hres
  rw [grow] at hr
  generalize resize alloc s Arr.none n (.value default) = t at hres hr
  obtain ⟨s₁, fresh⟩ := t
  dsimp only at hres hr
  have hsize : fresh.size = n := by
    rw [← length_contents (s := s₁), hres.contents_eq, contents]
    simp [DynamicArray.onList, Arr.none]
  have hcap : fresh.size ≤ fresh.capacity := hres.size_le
  obtain ⟨hdata, hbelow⟩ : fresh.data = s.offset ∧ fresh.data + fresh.capacity ≤ s₁.offset := by
    refine (hres.buffer (by omega)).resolve_left fun hold => ?_
    have hzero : fresh.capacity = 0 := hold.2
    omega
  have hold : ∀ q, Elem d.buf q → q < s.offset := fun q hq => h.fits.owns_lt (h.fits.owns hq)
  have hsame : ∀ q, q < s.offset → s₁.view q = s.view q := fun q hq =>
    hres.frame q hq (World.not_owns_none q)
  have hslot : ∀ i, i < d.size → d.slot i < fresh.data := fun i hi =>
    hdata ▸ hold _ (h.slot_elem hi)
  obtain ⟨hdone, hlive, hoff⟩ := relayLoop_spec (s := s₁) (f := fresh.data) (m := d.size)
    (p := d.slot) (fun i hi => hres.live _ ⟨by omega, by omega⟩)
    (fun i j hi hj => h.slot_inj hi hj) hslot
  generalize upLoop (fun i (s : Store T) => s.assign (fresh.data + i) (.move (d.slot i))) 0
    d.size s₁ = s₂ at hdone hlive hoff hr
  obtain ⟨hview, hoff', -⟩ := destroyRange_spec s₂ d.buf (Nat.zero_le d.buf.size)
  have hkeep : ∀ q, fresh.data ≤ q → (destroyRange s₂ d.buf 0 d.buf.size).view q = s₂.view q := by
    intro q hq
    rw [hview, if_neg]
    intro hq'
    have := hold q hq'
    omega
  have hone : r = (destroyRange s₂ d.buf 0 d.buf.size, ⟨fresh, 0, d.size⟩) := hr.symm
  subst hone
  refine ⟨⟨?_, ⟨hcap, fun _ => ?_, fun q hq => ?_⟩, ?_, id⟩, hsize, ?_, fun i hi => ?_⟩
  · show 0 < (destroyRange s₂ d.buf 0 d.buf.size).offset
    have := h.offset_pos
    omega
  · show 0 < fresh.data ∧
      fresh.data + fresh.capacity ≤ (destroyRange s₂ d.buf 0 d.buf.size).offset
    have := h.offset_pos
    omega
  · exact (Store.live_congr (hkeep q hq.1)).mpr (hlive q (hres.live q hq))
  · show d.size ≤ fresh.size
    omega
  · refine List.map_congr_left fun i hi => ?_
    have hi : i < d.size := List.mem_range.mp hi
    have hlin : slot ⟨fresh, 0, d.size⟩ i = fresh.data + i := by
      show fresh.data + (0 + i) % fresh.size = fresh.data + i
      rw [Nat.zero_add, Nat.mod_eq_of_lt (by omega)]
    rw [hlin, hkeep _ (Nat.le_add_right _ _), hdone i hi, hsame _ (hdata ▸ hslot i hi)]
    rfl
  · exact (hview _).trans (if_pos (h.slot_elem hi))

/-- The slots that a push asks the memory for. -/
def request (d : DequeBuffer) : Nat :=
  if d.size < d.cap then 0 else if d.cap = 0 then Deque.initialCapacity else d.cap * 2

/-- A push has room for its element, and finds the old elements where they were
unless it has grown. -/
theorem ensureRoom_spec (h : Sound s d) (hg : Granted alloc s (request d))
    {r : Store T × DequeBuffer} (hr : ensureRoom alloc s d = r) :
    Sound r.1 r.2 ∧ r.2.size < r.2.cap ∧ r.2.size = d.size ∧ elements r.1 r.2 = elements s d ∧
      ∀ i, i < d.size → r.1.view (d.slot i) =
        if d.size < d.cap then s.view (d.slot i) else none := by
  have hsize := h.size_le
  rw [ensureRoom] at hr
  rw [request] at hg
  by_cases hroom : d.size < d.cap
  · rw [if_neg (by omega)] at hr
    subst hr
    exact ⟨h, hroom, rfl, rfl, fun i _ => (if_pos hroom).symm⟩
  · rw [if_pos (by omega)] at hr
    rw [if_neg hroom] at hg
    have hlt : d.size < if d.cap = 0 then Deque.initialCapacity else d.cap * 2 := by
      rw [Deque.initialCapacity]
      split <;> omega
    obtain ⟨hs, hcap, hel, hraw⟩ := grow_spec h hlt hg hr
    have hlen : r.2.size = d.size := by
      rw [← length_elements (s := r.1), hel, length_elements]
    exact ⟨hs, by omega, hlen, hel, fun i hi => (hraw i hi).trans (if_neg hroom).symm⟩

omit [Inhabited T] in
/-- An element of the buffer is overwritten by one that is read elsewhere. -/
theorem view_assign_copy {k p : Nat} (h : Sound s d) (hk : k < d.cap) (q : Nat) :
    (s.assign (d.buf.data + k) (.copy p)).view q =
      if q = d.buf.data + k then some (s.view p).join else s.view q := by
  have hl : s.Live (d.buf.data + k) :=
    h.fits.live _ ⟨Nat.le_add_right _ _, Nat.add_lt_add_left hk _⟩
  rw [Store.view_assign _ (by simp [Src.moved]), Store.view_drain, Store.fetch]
  simp only [hl, and_true, Src.moved, reduceCtorEq, if_false]

/-- What a push reads of element `j`. -/
def readBack (s : Store T) (d : DequeBuffer) (j : Nat) : Option T :=
  if d.size < d.cap then (elements s d)[j]?.join else none

theorem ensureRoom_reads (h : Sound s d) (hg : Granted alloc s (request d)) {j : Nat}
    (hj : j < d.size) {r : Store T × DequeBuffer} (hr : ensureRoom alloc s d = r) :
    (r.1.view (d.slot j)).join = readBack s d j := by
  obtain ⟨-, -, -, -, hread⟩ := ensureRoom_spec h hg hr
  rw [hread j hj, readBack, elements_get hj]
  split <;> rfl

/-- `push_back` puts behind the elements what it has read. -/
theorem pushBack_elements (h : Sound s d) (hg : Granted alloc s (request d)) {j : Nat}
    (hj : j < d.size) :
    elements (pushBack alloc s d (.copy (d.slot j))).1 (pushBack alloc s d (.copy (d.slot j))).2 =
      elements s d ++ [readBack s d j] := by
  generalize hr : ensureRoom alloc s d = r
  obtain ⟨hs, hroom, hlen, hel, -⟩ := ensureRoom_spec h hg hr
  have htail : r.2.tailIndex = (r.2.head + (elements r.1 r.2).length) % r.2.cap := by
    rw [tailIndex, if_neg (by omega), length_elements]
  have hlt : r.2.tailIndex < r.2.cap := by
    rw [htail]
    exact Nat.mod_lt _ (by omega)
  have hring := hs.ring.pushBack (by rw [length_elements, length_contents]; exact hroom)
    (r.1.view (d.slot j)).join
  rw [length_contents, show r.2.buf.size = r.2.cap from rfl, ← htail,
    ← contents_set (view_assign_copy hs hlt), hel, ensureRoom_reads h hg hj hr] at hring
  rw [pushBack, hr]
  refine elements_of_ring ?_ hring
  rw [List.length_append, List.length_singleton, length_elements]
  exact congrArg (· + 1) hlen

/-- `push_front` puts before the elements what it has read. -/
theorem pushFront_elements (h : Sound s d) (hg : Granted alloc s (request d)) {j : Nat}
    (hj : j < d.size) :
    elements (pushFront alloc s d (.copy (d.slot j))).1
        (pushFront alloc s d (.copy (d.slot j))).2 =
      readBack s d j :: elements s d := by
  generalize hr : ensureRoom alloc s d = r
  obtain ⟨hs, hroom, hlen, hel, -⟩ := ensureRoom_spec h hg hr
  have hlt : (r.2.head + r.2.cap - 1) % r.2.cap < r.2.cap := Nat.mod_lt _ (by omega)
  have hring := hs.ring.pushFront (by rw [length_elements, length_contents]; exact hroom)
    (r.1.view (d.slot j)).join
  rw [length_contents, show r.2.buf.size = r.2.cap from rfl,
    ← contents_set (view_assign_copy hs hlt), hel, ensureRoom_reads h hg hj hr] at hring
  rw [pushFront, hr]
  refine elements_of_ring ?_ hring
  rw [List.length_cons, length_elements]
  exact congrArg (· + 1) hlen

omit [Inhabited T] in
theorem readBack_eq_iff {j : Nat} {v : T} (hv : (elements s d)[j]? = some (some v)) :
    readBack s d j = some v ↔ d.size < d.cap := by
  rw [readBack, hv]
  constructor
  · intro h
    split at h
    · assumption
    · cases h
  · intro h
    rw [if_pos h]
    rfl

end

end DequeBuffer

/-- A call with a reference to an element does what it does with the value of
that element if and only if the element is still in its slot when the call
reads it. A full `dynamic_array` or `deque` has destroyed it by then, a
`resize` over the capacity too, and an insertion at or before the element has
moved it. -/
theorem own_element_inserted_iff {T : Type} [Inhabited T] {alloc : Allocate} :
    (∀ (s : Store T) (a : Arr) (j : Nat) (v : T) (c : DynamicArray.OwnCall),
      DynamicArray.Fits s a → (DynamicArray.contents s a)[j]? = some (some v) → c.Legal a →
      DynamicArray.Granted alloc s (DynamicArray.growthRequest a (c.withValue v)) →
      (DynamicArray.contents (DynamicArray.ownCall alloc s a j c).1
          (DynamicArray.ownCall alloc s a j c).2 =
          DynamicArray.onList (DynamicArray.contents s a) (c.withValue v) ↔
        c.ReadsOld a (DynamicArray.contents s a) j)) ∧
    ∀ (s : Store T) (d : DequeBuffer) (j : Nat) (v : T),
      DequeBuffer.Sound s d → (DequeBuffer.elements s d)[j]? = some (some v) →
      DynamicArray.Granted alloc s (DequeBuffer.request d) →
      (DequeBuffer.elements (DequeBuffer.pushBack alloc s d (.copy (d.slot j))).1
          (DequeBuffer.pushBack alloc s d (.copy (d.slot j))).2 =
          DequeBuffer.elements s d ++ [some v] ↔ d.size < d.cap) ∧
      (DequeBuffer.elements (DequeBuffer.pushFront alloc s d (.copy (d.slot j))).1
          (DequeBuffer.pushFront alloc s d (.copy (d.slot j))).2 =
          some v :: DequeBuffer.elements s d ↔ d.size < d.cap) := by
  refine ⟨fun s a j v c h hv hl hg => DynamicArray.ownCall_iff h hv hl hg,
    fun s d j v h hv hg => ?_⟩
  have hj : j < d.size := by
    obtain ⟨hlt, -⟩ := List.getElem?_eq_some_iff.mp hv
    rwa [DequeBuffer.length_elements] at hlt
  rw [DequeBuffer.pushBack_elements h hg hj, DequeBuffer.pushFront_elements h hg hj,
    List.append_cancel_left_eq, List.singleton_inj, List.cons.injEq, and_iff_left rfl]
  exact ⟨DequeBuffer.readBack_eq_iff hv, DequeBuffer.readBack_eq_iff hv⟩

/-- With room left: `push_back(a[0])` on four elements in eight slots, and
`push_front(d[1])` on two elements in four. -/
theorem own_element_is_pushed_in_room :
    (let r := DynamicArray.ofRange TypedDynamicMemory.allocate (Store.fresh 1) [1, 2, 3, 4]
     let t := DynamicArray.reserve TypedDynamicMemory.allocate r.1 r.2 8
     let u := DynamicArray.ownCall TypedDynamicMemory.allocate t.1 t.2 0 .pushBack
     DynamicArray.contents u.1 u.2 =
       DynamicArray.onList (DynamicArray.contents t.1 t.2) (.pushBack 1)) ∧
    (let r := DynamicArray.ofRange TypedDynamicMemory.allocate (Store.fresh 1) [1, 2, 3, 4]
     let d : DequeBuffer := ⟨r.2, 0, 2⟩
     let u := DequeBuffer.pushFront TypedDynamicMemory.allocate r.1 d (.copy (d.slot 1))
     DequeBuffer.elements u.1 u.2 = some 2 :: DequeBuffer.elements r.1 d) := by
  have hfit : DynamicArray.Fits
      (DynamicArray.ofRange TypedDynamicMemory.allocate (Store.fresh 1) [1, 2, 3, 4]).1
      (DynamicArray.ofRange TypedDynamicMemory.allocate (Store.fresh 1) [1, 2, 3, 4]).2 :=
    (DynamicArray.ofRange_result (DynamicArray.granted_dynamic _ _)).fits
      (DynamicArray.fits_none _) Nat.one_pos
  have hgrown := (DynamicArray.reserve_result hfit (n := 8) fun _ =>
    DynamicArray.granted_dynamic _ _).1.fits hfit (by decide)
  constructor
  · exact (own_element_inserted_iff.1 _ _ 0 1 .pushBack hgrown (by decide) trivial
      (DynamicArray.granted_dynamic _ _)).mpr ⟨by decide, fun _ h => by cases h⟩
  · exact (own_element_inserted_iff.2 _ ⟨_, 0, 2⟩ 1 2
      ⟨by decide, hfit, by decide, fun _ => by decide⟩ (by decide)
      (DynamicArray.granted_dynamic _ _)).2.mpr (by decide)

/-- `push_back(a[0])` on a full array copies from a slot that is destroyed, and
`insert(begin(), a[0])` with room left from one that has been moved from. -/
theorem own_element_read_after_its_slot_is_gone :
    (let r := DynamicArray.ofRange TypedDynamicMemory.allocate (Store.fresh 1) [1, 2, 3, 4]
     let t := DynamicArray.ownCall TypedDynamicMemory.allocate r.1 r.2 0 .pushBack
     DynamicArray.contents r.1 r.2 = [some 1, some 2, some 3, some 4] ∧
       DynamicArray.contents t.1 t.2 = [some 1, some 2, some 3, some 4, none]) ∧
    (let r := DynamicArray.ofRange TypedDynamicMemory.allocate (Store.fresh 1) [1, 2, 3, 4]
     let t := DynamicArray.reserve TypedDynamicMemory.allocate r.1 r.2 8
     let u := DynamicArray.ownCall TypedDynamicMemory.allocate t.1 t.2 0 (.insert 0)
     DynamicArray.contents u.1 u.2 = [none, some 1, some 2, some 3, some 4]) := by
  decide

end Ycetl.Ref
