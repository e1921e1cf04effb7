import Mathlib.Algebra.BigOperators.Ring.Finset
import Mathlib.Algebra.Order.BigOperators.Group.Finset
import Ycetl.Lib.Doubling
import Ycetl.Proofs.StaticMemory

/-!
# How much of a static memory a program takes

A `typed_static_memory` takes no slot back, so that an array leaves the slots
of its old buffer behind when it grows, when its buffer is given up, and when
it is destroyed. What a program takes of the memory is a sum over all its
buffers. Which buffers there were can be said without looking at the memory:
`reserve`, `resize` and the constructors ask for as many slots as they are
told, and pushes and insertions double.

`Usage` is the account that is kept of sizes alone. A `Use` stands for the
buffers that took over from each other by doubling; it goes with the array
that is moved, and is closed where an array begins again with a buffer of a
size that is asked for.
-/

namespace Ycetl.Ref.DynamicArray

open Ycetl.Lib

variable {T : Type}

/-- The first of some buffers that doubled, the most that was to be held, and
the elements that are held now. -/
structure Use where
  first : Nat
  peak : Nat
  size : Nat
deriving DecidableEq

namespace Use

/-- No buffer at all. -/
def none : Use := ⟨0, 0, 0⟩

/-- The last of the buffers. -/
def room (x : Use) : Nat := doubled x.first x.peak

/-- All of them together. -/
def slots (x : Use) : Nat := 2 * x.room - x.first

def ofRoom (n size : Nat) : Use := ⟨n, n, size⟩

def resized (x : Use) (size : Nat) : Use := { x with size := size }

/-- Room for `n`, where there is that much. -/
def kept (x : Use) (n size : Nat) : Use := ⟨x.first, max x.peak n, size⟩

/-- One element more. -/
def grown (x : Use) : Use :=
  ⟨if x.first = 0 then 4 else x.first, max x.peak (x.size + 1), x.size + 1⟩

end Use

/-- The buffers that no array has any more, and those of each array. -/
structure Usage where
  closed : List Use
  uses : Nat → Use

namespace Usage

def initial : Usage := ⟨[], fun _ => Use.none⟩

def set (u : Usage) (i : Nat) (x : Use) : Usage := { u with uses := Function.update u.uses i x }

/-- Array `i` begins again. -/
def close (u : Usage) (i : Nat) (x : Use) : Usage :=
  ⟨u.uses i :: u.closed, Function.update u.uses i x⟩

/-- Array `i` is to have room for `n` elements, and then has `size` of them. -/
def need (u : Usage) (i n size : Nat) : Usage :=
  let x := u.uses i
  if n ≤ x.room then u.set i (x.kept n size) else u.close i (.ofRoom n size)

def call (u : Usage) (i : Nat) : Call T → Usage
  | .reserve n => u.need i n (u.uses i).size
  | .resize n | .resizeWith n _ => u.need i n n
  | .pushBack _ | .insert _ _ => u.set i (u.uses i).grown
  | .popBack | .erase _ => u.set i ((u.uses i).resized ((u.uses i).size - 1))
  | .eraseRange first last =>
      u.set i ((u.uses i).resized ((u.uses i).size - (last - first)))
  | .clear => u.set i ((u.uses i).resized 0)
  | .clearAndDeallocateBuffer => u.close i .none

def step (u : Usage) : Op T → Usage
  | .construct i c => u.set i (.ofRoom (requested c) (requested c))
  | .copyConstruct i j => u.set i (.ofRoom (u.uses j).room (u.uses j).size)
  | .moveConstruct i j => (u.set j .none).set i (u.uses j)
  | .moveAssign i j => if i = j then u else ((u.close i .none).set j .none).set i (u.uses j)
  | .call i c => u.call i c
  | .destroy i => u.close i .none

/-- The account of a whole program. -/
def ofRun (ops : List (Op T)) : Usage := ops.foldl step initial

/-- What all arrays below `n` and all closed buffers come to. -/
def total (u : Usage) (n : Nat) (f : Use → Nat) : Nat :=
  (u.closed.map f).sum + ∑ i ∈ Finset.range n, f (u.uses i)

end Usage

/-! ## The account -/

namespace Use

@[simp] theorem room_none : none.room = 0 := doubled_zero_unit 0

@[simp] theorem room_ofRoom (n size : Nat) : (ofRoom n size).room = n :=
  doubled_of_le (Nat.le_refl n)

theorem first_le_room (x : Use) : x.first ≤ x.room := unit_le_doubled x.first x.peak

@[simp] theorem slots_none : none.slots = 0 := by rw [slots, room_none]; rfl

@[simp] theorem slots_ofRoom (n size : Nat) : (ofRoom n size).slots = n := by
  rw [slots, room_ofRoom]
  show 2 * n - n = n
  omega

/-- What there is room for does not make a buffer. -/
theorem room_kept {x : Use} {n : Nat} (size : Nat) (hn : n ≤ x.room) :
    (x.kept n size).room = x.room := by
  rw [kept]
  rcases Nat.eq_zero_or_pos x.first with h0 | hpos
  · rw [room, room, h0, doubled_zero_unit, doubled_zero_unit]
  · have hle : n ≤ doubled x.first x.peak := hn
    have hgrow := doubled_max (n := x.peak) hpos (m := n) (by omega)
    rw [if_pos hle] at hgrow
    exact hgrow

theorem slots_kept {x : Use} {n : Nat} (size : Nat) (hn : n ≤ x.room) :
    (x.kept n size).slots = x.slots := by
  rw [slots, room_kept size hn]
  rfl

theorem first_ne_zero {x : Use} (h : 0 < x.room) : x.first ≠ 0 := by
  intro h0
  rw [room, h0, doubled_zero_unit] at h
  exact Nat.lt_irrefl 0 h

/-- An element that there is room for. -/
theorem room_grown_of_lt {x : Use} (h : x.size < x.room) : x.grown.room = x.room := by
  rw [grown, if_neg (first_ne_zero (Nat.zero_lt_of_lt h))]
  exact room_kept _ h

/-- An element that a full buffer is doubled for. -/
theorem room_grown_of_eq {x : Use} (h : x.size = x.room) (h0 : 0 < x.room) :
    x.grown.room = 2 * x.room := by
  have hfirst := first_ne_zero h0
  rw [room] at h h0
  have hgrow := doubled_max (n := x.peak) (Nat.pos_of_ne_zero hfirst) (m := x.size + 1) (by omega)
  rw [if_neg (by omega)] at hgrow
  rw [grown, if_neg hfirst]
  exact hgrow

/-- What holds of the buffers of an array. -/
structure Sound (x : Use) : Prop where
  peak_le : x.peak ≤ x.room
  first_le : x.first ≤ 4 * x.peak

/-- The first element of all. -/
theorem Sound.grown_of_none {x : Use} (h : x.Sound) (h0 : x.room = 0) (hsize : x.size = 0) :
    x.grown = ⟨4, 1, 1⟩ := by
  have hpeak : x.peak = 0 := by
    have := h.peak_le
    omega
  have hfirst : x.first = 0 := by
    have := h.first_le
    omega
  rw [grown, if_pos hfirst, hpeak, hsize]
  rfl

theorem sound_none : none.Sound := ⟨Nat.zero_le _, Nat.le_refl 0⟩

theorem sound_ofRoom (n size : Nat) : (ofRoom n size).Sound :=
  ⟨by rw [room_ofRoom]; exact Nat.le_refl n, by show n ≤ 4 * n; omega⟩

theorem Sound.resized {x : Use} (h : x.Sound) (size : Nat) : (x.resized size).Sound :=
  ⟨h.peak_le, h.first_le⟩

theorem Sound.kept {x : Use} (h : x.Sound) {n : Nat} (size : Nat) (hn : n ≤ x.room) :
    (x.kept n size).Sound := by
  refine ⟨?_, ?_⟩
  · rw [room_kept size hn]
    exact Nat.max_le.mpr ⟨h.peak_le, hn⟩
  · have := h.first_le
    show x.first ≤ 4 * max x.peak n
    omega

/-- What one element more makes of the buffers; `q` is what it asks for. -/
theorem Sound.grown {x : Use} (h : x.Sound) (hsize : x.size ≤ x.room) {q : Nat}
    (hq : q = if x.size = x.room then (if x.room ≠ 0 then x.room * 2 else 4) else 0) :
    x.grown.Sound ∧ x.grown.room = max x.room q ∧ x.grown.slots = x.slots + q := by
  rcases Nat.lt_or_ge x.size x.room with hlt | hge
  · -- There is room.
    have hroom := room_grown_of_lt hlt
    have hkept : x.grown = x.kept (x.size + 1) (x.size + 1) := by
      rw [Use.grown, if_neg (first_ne_zero (Nat.zero_lt_of_lt hlt))]
      rfl
    rw [if_neg (Nat.ne_of_lt hlt)] at hq
    rw [hq, Nat.max_zero, hkept]
    exact ⟨h.kept _ hlt, room_kept _ hlt, slots_kept _ hlt⟩
  have heq : x.size = x.room := Nat.le_antisymm hsize hge
  rw [if_pos heq] at hq
  rcases Nat.eq_zero_or_pos x.room with h0 | hpos
  · -- The first buffer.
    rw [if_neg (not_not.mpr h0)] at hq
    rw [h.grown_of_none h0 (heq.trans h0), hq, h0]
    have hroom : (⟨4, 1, 1⟩ : Use).room = 4 := doubled_of_le (by decide)
    have hslots : x.slots = 0 := by rw [slots, h0]; omega
    refine ⟨⟨by rw [hroom]; decide, by decide⟩, hroom, ?_⟩
    rw [slots, hroom, hslots]
    rfl
  · -- A buffer of twice the size.
    have hroom := room_grown_of_eq heq hpos
    have hgrown : x.grown = ⟨x.first, max x.peak (x.size + 1), x.size + 1⟩ := by
      rw [Use.grown, if_neg (first_ne_zero hpos)]
    have hfirst := x.first_le_room
    have hpeak := h.peak_le
    have hle := h.first_le
    rw [if_pos (Nat.pos_iff_ne_zero.mp hpos)] at hq
    rw [slots, slots, hroom, hgrown]
    refine ⟨⟨?_, ?_⟩, by omega, by dsimp only; omega⟩
    · rw [← hgrown, hroom, hgrown]
      dsimp only
      omega
    · dsimp only
      omega

/-- The buffers of an array take less than four slots for each element that was
to be held. -/
theorem Sound.slots_le {x : Use} (h : x.Sound) : x.slots ≤ 4 * x.peak := by
  have hfirst := h.first_le
  rw [slots]
  rcases Nat.lt_or_ge x.first x.peak with hlt | hge
  · rcases Nat.eq_zero_or_pos x.first with h0 | hpos
    · rw [room, h0, doubled_zero_unit]
      omega
    · have hroom : x.room < 2 * x.peak := doubled_lt hpos hlt
      omega
  · have hroom : x.room = x.first := doubled_of_le hge
    omega

end Use

namespace Usage

variable {u : Usage} {i n : Nat}

@[simp] theorem uses_set (u : Usage) (i : Nat) (x : Use) : (u.set i x).uses i = x :=
  Function.update_self ..

@[simp] theorem uses_close (u : Usage) (i : Nat) (x : Use) : (u.close i x).uses i = x :=
  Function.update_self ..

theorem uses_set_ne {k : Nat} (hk : k ≠ i) (u : Usage) (x : Use) :
    (u.set i x).uses k = u.uses k :=
  Function.update_of_ne hk ..

theorem uses_close_ne {k : Nat} (hk : k ≠ i) (u : Usage) (x : Use) :
    (u.close i x).uses k = u.uses k :=
  Function.update_of_ne hk ..

theorem total_set (u : Usage) (hi : i < n) (x : Use) (f : Use → Nat) :
    (u.set i x).total n f + f (u.uses i) = u.total n f + f x := by
  have hsum := sum_update hi (fun j => f (u.uses j)) (f x)
  have hupd : Function.update (fun j => f (u.uses j)) i (f x) =
      fun j => f ((u.set i x).uses j) := (Function.comp_update f u.uses i x).symm
  rw [hupd] at hsum
  rw [total, total, Nat.add_assoc, hsum, Nat.add_assoc]
  rfl

/-- A closed buffer goes on counting. -/
theorem total_close (u : Usage) (hi : i < n) (x : Use) (f : Use → Nat) :
    (u.close i x).total n f = u.total n f + f x := by
  have hset := total_set u hi x f
  have hcons : (u.close i x).total n f = f (u.uses i) + (u.set i x).total n f := by
    rw [total, total, ← Nat.add_assoc]
    rfl
  omega

end Usage

/-! ## One call -/

/-- The account of an array: its sizes are right. -/
structure Shaped (a : Arr) (x : Use) : Prop where
  size_eq : a.size = x.size
  capacity_eq : a.capacity = x.room
  size_le : a.size ≤ a.capacity
  sound : x.Sound

theorem shaped_none : Shaped Arr.none Use.none :=
  ⟨rfl, Use.room_none.symm, Nat.le_refl 0, Use.sound_none⟩

theorem shaped_ofRoom {a : Arr} (h : a.size ≤ a.capacity) :
    Shaped a (.ofRoom a.capacity a.size) :=
  ⟨rfl, (Use.room_ofRoom ..).symm, h, Use.sound_ofRoom ..⟩

theorem shaped_cleared (s : Store T) (a : Arr) :
    Shaped (clearAndDeallocateBuffer s a).2 .none :=
  ⟨rfl, Use.room_none.symm, Nat.le_refl 0, Use.sound_none⟩

theorem reserve_sizes (alloc : Allocate) (s : Store T) (a : Arr) (m : Nat) :
    (reserve alloc s a m).2.size = a.size ∧
      (reserve alloc s a m).2.capacity = max a.capacity m := by
  rw [reserve]
  split
  · next hle => exact ⟨rfl, (Nat.max_eq_left hle).symm⟩
  · next hlt => exact ⟨rfl, (Nat.max_eq_right (Nat.le_of_not_le hlt)).symm⟩

/-- Array `i` is `b` now, and has taken `r` slots on the way. -/
def Accounted (n : Nat) (u : Usage) (i : Nat) (b : Arr) (r : Nat) (u' : Usage) : Prop :=
  Shaped b (u'.uses i) ∧ u'.total n Use.slots = u.total n Use.slots + r

section

variable {u : Usage} {i n m : Nat} {a b : Arr}

theorem accounted_set (hi : i < n) {x : Use} {r : Nat} (h : Shaped b x)
    (hslots : x.slots = (u.uses i).slots + r) : Accounted n u i b r (u.set i x) := by
  have htotal := u.total_set hi x Use.slots
  exact ⟨by rwa [Usage.uses_set], by omega⟩

theorem accounted_close (hi : i < n) {x : Use} (h : Shaped b x) :
    Accounted n u i b x.slots (u.close i x) :=
  ⟨by rwa [Usage.uses_close], u.total_close hi x Use.slots⟩

/-- An array that gives its buffer up. -/
theorem close_accounted (hi : i < n) (h : Shaped b .none) :
    Accounted n u i b 0 (u.close i .none) := by
  have hclose := accounted_close (u := u) hi h
  rwa [Use.slots_none] at hclose

/-- A call that asks for room of its own. -/
theorem need_accounted (hi : i < n) (h : Shaped a (u.uses i))
    (hcap : b.capacity = max a.capacity m) (hle : b.size ≤ b.capacity) :
    Accounted n u i b (if a.capacity < m then m else 0) (u.need i m b.size) := by
  rw [Usage.need]
  rcases Nat.lt_or_ge a.capacity m with hlt | hge
  · have hroom : ¬ m ≤ (u.uses i).room := h.capacity_eq ▸ Nat.not_le.mpr hlt
    rw [Nat.max_eq_right (Nat.le_of_lt hlt)] at hcap
    have hclose := accounted_close (u := u) hi (shaped_ofRoom hle)
    rw [Use.slots_ofRoom, hcap] at hclose
    rwa [if_pos hlt, if_neg hroom]
  · have hroom : m ≤ (u.uses i).room := h.capacity_eq ▸ hge
    rw [Nat.max_eq_left hge] at hcap
    rw [if_neg (Nat.not_lt.mpr hge), if_pos hroom]
    refine accounted_set hi ⟨rfl, ?_, hle, h.sound.kept b.size hroom⟩
      (Use.slots_kept b.size hroom)
    rw [Use.room_kept b.size hroom, hcap, h.capacity_eq]

/-- A call that makes room for one more element. -/
theorem grown_accounted [Inhabited T] (hi : i < n) (h : Shaped a (u.uses i)) (v : T)
    (hcap : b.capacity = max a.capacity (growTo a (.pushBack v)))
    (hsize : b.size = a.size + 1) :
    Accounted n u i b (growthRequest a (.pushBack v)) (u.set i (u.uses i).grown) := by
  have hgrow : growTo a (.pushBack v) = if (u.uses i).size = (u.uses i).room then
      (if (u.uses i).room ≠ 0 then (u.uses i).room * 2 else 4) else 0 := by
    rw [growTo, h.size_eq, h.capacity_eq]
  have hle : (u.uses i).size ≤ (u.uses i).room := by
    rw [← h.size_eq, ← h.capacity_eq]
    exact h.size_le
  obtain ⟨hsound, hroom, hslots⟩ := h.sound.grown hle hgrow
  rw [h.capacity_eq, ← hroom] at hcap
  have hreq : growthRequest a (.pushBack v) = growTo a (.pushBack v) := by
    rw [growthRequest]
    split
    · rfl
    · next hlt =>
        rw [growTo] at hlt ⊢
        by_cases hfull : a.size = a.capacity
        · rw [if_pos hfull] at hlt
          by_cases h0 : a.capacity = 0
          · rw [if_neg (not_not.mpr h0)] at hlt
            omega
          · rw [if_pos h0] at hlt
            omega
        · rw [if_neg hfull]
  have hsize' : b.size = (u.uses i).grown.size := by
    rw [hsize, h.size_eq]
    rfl
  rw [hreq]
  refine accounted_set hi ⟨hsize', hcap, ?_, hsound⟩ hslots
  rw [hsize', hcap]
  exact Nat.le_trans (Nat.le_max_right _ _) hsound.peak_le

/-- A call that makes do with the room there is. -/
theorem resized_accounted (hi : i < n) (h : Shaped a (u.uses i))
    (hcap : b.capacity = a.capacity) {k : Nat} (hsize : b.size = k) (hk : k ≤ a.size) :
    Accounted n u i b 0 (u.set i ((u.uses i).resized k)) := by
  have hle := h.size_le
  exact accounted_set hi ⟨hsize, hcap.trans h.capacity_eq, by omega, h.sound.resized k⟩ rfl

/-- One case for each call of an array. -/
theorem call_accounted [Inhabited T] (alloc : Allocate) (s : Store T) (hi : i < n)
    (h : Shaped a (u.uses i)) {c : Call T} (hl : c.Legal a) :
    Accounted n u i (call alloc s a c).2 (growthRequest a c) (u.call i c) := by
  obtain ⟨hsize, hcap⟩ := reserve_sizes alloc s a (growTo a c)
  have hle := h.size_le
  have hx := h.size_eq
  rw [call_eq c hl]
  generalize reserve alloc s a (growTo a c) = r at hsize hcap
  have hfree : growTo a c = 0 → growthRequest a c = 0 ∧ r.2.capacity = a.capacity := by
    intro h0
    rw [h0, Nat.max_zero] at hcap
    rw [growthRequest, h0]
    exact ⟨if_neg (Nat.not_lt_zero _), hcap⟩
  cases c with
  | reserve m =>
      have hneed := need_accounted hi h hcap (by rw [hcap]; omega)
      rwa [hsize, hx] at hneed
  | resize m | resizeWith m v =>
      exact need_accounted (b := { r.2 with size := m }) hi h hcap
        (hcap ▸ Nat.le_max_right a.capacity m)
  | pushBack v | insert pos v =>
      exact grown_accounted (b := { r.2 with size := r.2.size + 1 }) hi h v hcap
        (congrArg (· + 1) hsize)
  | popBack =>
      obtain ⟨hreq, hkeep⟩ := hfree rfl
      rw [hreq, Usage.call, ← hx]
      exact resized_accounted (b := { r.2 with size := r.2.size - 1 }) hi h hkeep
        (congrArg (· - 1) hsize) (Nat.sub_le _ _)
  | erase pos =>
      obtain ⟨hreq, hkeep⟩ := hfree rfl
      rw [hreq, Usage.call, ← hx]
      refine resized_accounted (b := { r.2 with size := r.2.size - (pos + 1 - pos) }) hi h hkeep
        ?_ (Nat.sub_le _ _)
      show r.2.size - (pos + 1 - pos) = a.size - 1
      omega
  | eraseRange first last =>
      obtain ⟨hreq, hkeep⟩ := hfree rfl
      rw [hreq, Usage.call, ← hx]
      exact resized_accounted (b := { r.2 with size := r.2.size - (last - first) }) hi h hkeep
        (congrArg (· - (last - first)) hsize) (Nat.sub_le _ _)
  | clear =>
      obtain ⟨hreq, hkeep⟩ := hfree rfl
      rw [hreq]
      exact resized_accounted (b := { r.2 with size := 0 }) hi h hkeep rfl (Nat.zero_le _)
  | clearAndDeallocateBuffer =>
      obtain ⟨hreq, -⟩ := hfree rfl
      rw [hreq]
      exact close_accounted hi (shaped_cleared r.1 r.2)

end

/-! ## Programs -/

namespace World

variable {w w' : World T} {u u' : Usage} {n : Nat}

/-- The account of every array is right. -/
structure Tracks (w : World T) (u : Usage) : Prop where
  shaped : ∀ i a, w.arrays i = some a → Shaped a (u.uses i)
  absent : ∀ i, w.arrays i = none → u.uses i = Use.none
  closed : ∀ x ∈ u.closed, x.Sound

theorem tracks_initial : Tracks (initial : World T) Usage.initial :=
  ⟨fun _ _ h => (by cases h), fun _ _ => rfl, fun _ h => (by cases h)⟩

theorem Tracks.sound (h : Tracks w u) (i : Nat) : (u.uses i).Sound := by
  cases hi : w.arrays i with
  | none => exact h.absent i hi ▸ Use.sound_none
  | some a => exact (h.shaped i a hi).sound

/-- Only the account of array `i` changes, which may be closed. -/
structure Turns (u : Usage) (i : Nat) (u' : Usage) : Prop where
  uses_eq : ∀ k, k ≠ i → u'.uses k = u.uses k
  closed : ∀ x ∈ u'.closed, x ∈ u.closed ∨ x = u.uses i

theorem turns_set (u : Usage) (i : Nat) (x : Use) : Turns u i (u.set i x) :=
  ⟨fun _ hk => Usage.uses_set_ne hk .., fun _ hy => Or.inl hy⟩

theorem turns_close (u : Usage) (i : Nat) (x : Use) : Turns u i (u.close i x) :=
  ⟨fun _ hk => Usage.uses_close_ne hk .., fun _ hy => (List.mem_cons.mp hy).symm⟩

theorem turns_call (u : Usage) (i : Nat) (c : Call T) : Turns u i (u.call i c) := by
  have hneed : ∀ m size, Turns u i (u.need i m size) := by
    intro m size
    rw [Usage.need]
    split
    · exact turns_set ..
    · exact turns_close ..
  cases c with
  | reserve | resize | resizeWith => exact hneed ..
  | clearAndDeallocateBuffer => exact turns_close ..
  | _ => exact turns_set ..

theorem Tracks.closed_turns (h : Tracks w u) {i : Nat} (ht : Turns u i u') :
    ∀ x ∈ u'.closed, x.Sound := by
  intro x hx
  rcases ht.closed x hx with hold | rfl
  · exact h.closed x hold
  · exact h.sound i

theorem Tracks.put (h : Tracks w u) {i : Nat} {r : Store T × Arr} (hr : Shaped r.2 (u'.uses i))
    (ht : Turns u i u') : Tracks (w.put i r) u' := by
  have hne := ht.uses_eq
  refine ⟨fun k b hb => ?_, fun k hk => ?_, h.closed_turns ht⟩
  · by_cases hki : k = i
    · subst hki
      rw [put_arrays_self, Option.some.injEq] at hb
      exact hb ▸ hr
    · rw [put_arrays_ne hki] at hb
      exact hne k hki ▸ h.shaped k b hb
  · by_cases hki : k = i
    · subst hki
      rw [put_arrays_self] at hk
      cases hk
    · rw [put_arrays_ne hki] at hk
      exact (hne k hki).trans (h.absent k hk)

theorem construct_sizes [Inhabited T] (alloc : Allocate) (s : Store T) (c : Ctor T) :
    (construct alloc s c).2.size = requested c ∧
      (construct alloc s c).2.capacity = requested c := by
  cases c <;> exact ⟨rfl, rfl⟩

/-- A buffer changes hands, and its account with it. -/
theorem Tracks.moved (h : Tracks w u) {i j : Nat} (hij : i ≠ j) {b : Arr}
    (hb : w.arrays j = some b) (hi : u.uses i = Use.none) (hin : i < n) (hjn : j < n) :
    Tracks ((w.release j).put i (w.store, b)) ((u.set j .none).set i (u.uses j)) ∧
      ((u.set j .none).set i (u.uses j)).total n Use.slots = u.total n Use.slots := by
  have hrel : Tracks (w.release j) (u.set j .none) :=
    h.put (by rw [Usage.uses_set]; exact shaped_none) (turns_set ..)
  refine ⟨hrel.put (by rw [Usage.uses_set]; exact h.shaped j b hb)
    (turns_set ..), ?_⟩
  have htake := u.total_set hjn .none Use.slots
  have hgive := (u.set j .none).total_set hin (u.uses j) Use.slots
  rw [Usage.uses_set_ne hij, hi] at hgive
  rw [Use.slots_none] at htake hgive
  omega

/-- An array that is gone has no buffer. -/
theorem Tracks.drop (h : Tracks w u) (s : Store T) (i : Nat) :
    Tracks ⟨s, Function.update w.arrays i none⟩ (u.close i .none) := by
  have hdrop : ∀ k, k ≠ i → Function.update w.arrays i none k = w.arrays k := fun k hk =>
    Function.update_of_ne hk ..
  refine ⟨fun k b hb => ?_, fun k hk => ?_, h.closed_turns (turns_close ..)⟩
  · by_cases hki : k = i
    · subst hki
      have hself : Function.update w.arrays k none k = none := Function.update_self ..
      cases hself.symm.trans hb
    · rw [Usage.uses_close_ne hki]
      exact h.shaped k b ((hdrop k hki).symm.trans hb)
  · by_cases hki : k = i
    · rw [hki, Usage.uses_close]
    · rw [Usage.uses_close_ne hki]
      exact h.absent k ((hdrop k hki).symm.trans hk)

/-- A step takes from the memory what its account says. -/
theorem Tracks.step [Inhabited T] {alloc : Allocate} (h : Tracks w u) {op : Op T}
    (hn : ∀ i ∈ targets op, i < n) (hs : step alloc w op = some w') :
    Tracks w' (u.step op) ∧
      (u.step op).total n Use.slots = u.total n Use.slots + w.request op := by
  cases steps_of_step hs with
  | @construct i c hi =>
      have hin := hn i (List.mem_singleton.mpr rfl)
      obtain ⟨hsize, hcap⟩ := construct_sizes alloc w.store c
      have hset := u.total_set hin (.ofRoom (requested c) (requested c)) Use.slots
      rw [h.absent i hi, Use.slots_none, Use.slots_ofRoom] at hset
      refine ⟨h.put ?_ (turns_set ..), hset⟩
      have hshape := shaped_ofRoom (Nat.le_of_eq (hsize.trans hcap.symm))
      rw [hsize, hcap] at hshape
      rw [Usage.step, Usage.uses_set]
      exact hshape
  | @copyConstruct i j b hi hj =>
      have hin := hn i (List.mem_singleton.mpr rfl)
      have hb := h.shaped j b hj
      have hset := u.total_set hin (.ofRoom (u.uses j).room (u.uses j).size) Use.slots
      rw [h.absent i hi, Use.slots_none, Use.slots_ofRoom] at hset
      rw [request, current_of_some hj, hb.capacity_eq]
      refine ⟨h.put ?_ (turns_set ..), hset⟩
      rw [Usage.step, Usage.uses_set, ← hb.size_eq, ← hb.capacity_eq]
      exact shaped_ofRoom (a := (ofCopy alloc w.store b).2) hb.size_le
  | @moveConstruct i j b hi hj hij =>
      exact h.moved hij hj (h.absent i hi) (hn i List.mem_cons_self)
        (hn j (List.mem_cons_of_mem _ List.mem_cons_self))
  | selfAssign hi =>
      rw [Usage.step, if_pos rfl]
      exact ⟨h, rfl⟩
  | @moveAssign i j a b hi hj hij =>
      have hin := hn i List.mem_cons_self
      have hclear : Tracks (w.put i ((clearAndDeallocateBuffer w.store a).1, Arr.none))
          (u.close i .none) :=
        h.put (by rw [Usage.uses_close]; exact shaped_none) (turns_close ..)
      have hj' := (put_arrays_ne (Ne.symm hij) (w := w)
        ((clearAndDeallocateBuffer w.store a).1, Arr.none)).trans hj
      obtain ⟨htracks, htotal⟩ := hclear.moved hij hj' (Usage.uses_close ..) hin
        (hn j (List.mem_cons_of_mem _ List.mem_cons_self))
      have hclose := u.total_close hin .none Use.slots
      rw [Usage.uses_close_ne (Ne.symm hij)] at htracks htotal
      rw [Usage.step, if_neg hij]
      refine ⟨htracks, htotal.trans hclose⟩
  | @call i c a hi hl =>
      have hin := hn i (List.mem_singleton.mpr rfl)
      obtain ⟨hshape, htotal⟩ := call_accounted alloc w.store hin (h.shaped i a hi) hl
      rw [request, current_of_some hi]
      exact ⟨h.put hshape (turns_call ..), htotal⟩
  | @destroy i a hi =>
      have hin := hn i (List.mem_singleton.mpr rfl)
      exact ⟨h.drop _ i, u.total_close hin .none Use.slots⟩

/-- The account of a run, which takes nothing back. -/
theorem Tracks.run [Inhabited T] {alloc : Allocate} (h : Tracks w u) {ops : List (Op T)}
    (hn : ∀ op ∈ ops, ∀ i ∈ targets op, i < n) (hrun : runFrom (World.step alloc) w ops = some w') :
    Tracks w' (ops.foldl Usage.step u) ∧
      u.total n Use.slots ≤ (ops.foldl Usage.step u).total n Use.slots := by
  induction ops generalizing w u with
  | nil =>
      rw [runFrom_nil, Option.some.injEq] at hrun
      exact hrun ▸ ⟨h, Nat.le_refl _⟩
  | cons op ops ih =>
      obtain ⟨hop, hops⟩ := List.forall_mem_cons.mp hn
      obtain ⟨w₁, hs, hrest⟩ := runFrom_cons_some hrun
      obtain ⟨h₁, htotal⟩ := h.step hop hs
      obtain ⟨h', hle⟩ := ih h₁ hops hrest
      exact ⟨h', by rw [List.foldl_cons]; omega⟩

/-- What is known of the memory while every request has been granted. -/
structure Charged (n : Nat) (w : World T) (u : Usage) : Prop where
  inv : StaticInv w
  tracks : Tracks w u
  offset_eq : w.store.offset = 1 + u.total n Use.slots

theorem Charged.total_le (h : Charged n w u) : u.total n Use.slots ≤ typedStaticMemorySize := by
  have hoff := h.inv.offset_le
  rw [h.offset_eq, TypedStaticMemory.capacity] at hoff
  omega

theorem Charged.fits_iff (h : Charged n w u) {r : Nat} :
    r ≤ TypedStaticMemory.remainingSize w.store.offset ↔
      u.total n Use.slots + r ≤ typedStaticMemorySize := by
  have hle := h.total_le
  rw [TypedStaticMemory.remainingSize, h.offset_eq, TypedStaticMemory.capacity]
  omega

theorem Charged.step [Inhabited T] (h : Charged n w u) {op : Op T} (hn : ∀ i ∈ targets op, i < n)
    (hfit : w.request op ≤ TypedStaticMemory.remainingSize w.store.offset)
    (hs : staticStep w op = some w') : Charged n w' (u.step op) := by
  obtain ⟨htracks, htotal⟩ := h.tracks.step hn hs
  obtain ⟨-, -, hoff⟩ := step_placed h.inv.placed (granted_of_le hfit) hs
  refine ⟨(h.inv.step hfit hs).1, htracks, ?_⟩
  rw [hoff, htotal, h.offset_eq, Nat.add_assoc]

/-- The rest of a run fits exactly if the account it ends with does, and the
memory is then where the account says. -/
theorem Charged.run [Inhabited T] (h : Charged n w u) {ops : List (Op T)}
    (hn : ∀ op ∈ ops, ∀ i ∈ targets op, i < n) (hrun : runFrom staticStep w ops = some w') :
    (Along staticStep RequestFits w ops ↔
      (ops.foldl Usage.step u).total n Use.slots ≤ typedStaticMemorySize) ∧
    (Along staticStep RequestFits w ops → Charged n w' (ops.foldl Usage.step u)) := by
  induction ops generalizing w u with
  | nil =>
      rw [runFrom_nil, Option.some.injEq] at hrun
      exact ⟨⟨fun _ => h.total_le, fun _ => trivial⟩, fun _ => hrun ▸ h⟩
  | cons op ops ih =>
      obtain ⟨hop, hops⟩ := List.forall_mem_cons.mp hn
      obtain ⟨w₁, hs, hrest⟩ := runFrom_cons_some hrun
      obtain ⟨h₁, htotal⟩ := h.tracks.step hop hs
      have hsome : (staticStep w op).isSome := by rw [hs]; rfl
      rw [List.foldl_cons]
      refine ⟨⟨fun halong => ?_, fun hle => ?_⟩, fun halong => ?_⟩
      · have hc := h.step hop (halong.1 hsome) hs
        exact (ih hc hops hrest).1.mp (halong.2 w₁ hs)
      · -- What has been taken by now is no more than what is taken in the end.
        have hgrow := (h₁.run hops hrest).2
        have hfit := h.fits_iff.mpr (htotal ▸ Nat.le_trans hgrow hle)
        refine ⟨fun _ => hfit, fun w₂ hs₂ => ?_⟩
        rw [hs, Option.some.injEq] at hs₂
        subst hs₂
        exact (ih (h.step hop hfit hs) hops hrest).1.mpr hle
      · have hc := h.step hop (halong.1 hsome) hs
        exact (ih hc hops hrest).2 (halong.2 w₁ hs)

/-- No buffer takes more than four slots for each element it was to hold. -/
theorem Tracks.total_le (h : Tracks w u) (n : Nat) :
    u.total n Use.slots ≤ 4 * u.total n Use.peak := by
  have hclosed : ∀ xs : List Use, (∀ x ∈ xs, x.Sound) →
      (xs.map Use.slots).sum ≤ 4 * (xs.map Use.peak).sum := by
    intro xs hxs
    induction xs with
    | nil => exact Nat.le_refl 0
    | cons x xs ih =>
        obtain ⟨hx, hrest⟩ := List.forall_mem_cons.mp hxs
        have := hx.slots_le
        have := ih hrest
        rw [List.map_cons, List.map_cons, List.sum_cons, List.sum_cons]
        omega
  have hlive : ∑ i ∈ Finset.range n, (u.uses i).slots ≤
      4 * ∑ i ∈ Finset.range n, (u.uses i).peak := by
    rw [Finset.mul_sum]
    exact Finset.sum_le_sum fun i _ => (h.sound i).slots_le
  have := hclosed u.closed h.closed
  rw [Usage.total, Usage.total]
  omega

/-- Whether a static memory is enough for a program is a matter of the sizes
of its arrays: it is exactly if the account of them comes to at most 1024
slots, which is then what has been allocated, and the capacities are the least
doublings that were enough. 256 elements at most, over all buffers, always fit. -/
theorem static_memory_suffices_iff [Inhabited T] {ops : List (Op T)} {w : World T} {n : Nat}
    (hn : ∀ op ∈ ops, ∀ i ∈ targets op, i < n)
    (hrun : runFrom staticStep (initial : World T) ops = some w) :
    (Along staticStep RequestFits (initial : World T) ops ↔
      (Usage.ofRun ops).total n Use.slots ≤ typedStaticMemorySize) ∧
    (Along staticStep RequestFits (initial : World T) ops →
      TypedStaticMemory.allocatedSize w.store.offset = (Usage.ofRun ops).total n Use.slots ∧
      ∀ i a, w.arrays i = some a → a.capacity = ((Usage.ofRun ops).uses i).room) ∧
    (4 * (Usage.ofRun ops).total n Use.peak ≤ typedStaticMemorySize →
      Along staticStep RequestFits (initial : World T) ops) := by
  have hinit : Charged n (initial : World T) Usage.initial := by
    refine ⟨staticInv_initial, tracks_initial, ?_⟩
    have hzero : Usage.initial.total n Use.slots = 0 := by
      have hnone : ∀ i ∈ Finset.range n, (Usage.initial.uses i).slots = 0 := fun _ _ =>
        Use.slots_none
      rw [Usage.total, Finset.sum_eq_zero hnone]
      rfl
    rw [hzero]
    rfl
  obtain ⟨hiff, hcharged⟩ := hinit.run hn hrun
  obtain ⟨htracks, -⟩ := tracks_initial.run hn hrun
  refine ⟨hiff, fun halong => ⟨?_, fun i a ha => ?_⟩, fun hpeak => ?_⟩
  · rw [TypedStaticMemory.allocatedSize, (hcharged halong).offset_eq, Nat.add_sub_cancel_left]
    rfl
  · exact (htracks.shaped i a ha).capacity_eq
  · exact hiff.mpr (Nat.le_trans (htracks.total_le n) hpeak)

/-- An array that has outgrown a buffer is given up for another one. -/
theorem static_memory_suffices_small :
    ∃ w : World Nat, runFrom staticStep initial
        [.construct 0 .none, .call 0 (.pushBack 1), .call 0 (.insert 0 2), .call 0 (.resize 5),
          .construct 1 (.range [6, 7, 8]), .call 1 (.pushBack 9), .moveAssign 0 1] = some w ∧
      TypedStaticMemory.allocatedSize w.store.offset = 18 := by
  have hrun : runFrom staticStep initial
      [.construct 0 .none, .call 0 (.pushBack 1), .call 0 (.insert 0 2), .call 0 (.resize 5),
        .construct 1 (.range [6, 7, 8]), .call 1 (.pushBack 9), .moveAssign 0 1] = some _ := rfl
  obtain ⟨-, hexact, hfits⟩ := static_memory_suffices_iff (n := 2) (by decide) hrun
  exact ⟨_, rfl, (hexact (hfits (by decide))).1.trans (by decide)⟩

end World

end Ycetl.Ref.DynamicArray
