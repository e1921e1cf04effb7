import Ycetl.Lib.Runs
import Ycetl.Ref.Hive
import Mathlib.Data.List.Count

/-!
# The free stack of a hive, and its iterators

The stack and the states of the slots say the same thing twice: what is on the
stack, once each, is what is not filled. Every call keeps the two in step, and
each call changes one slot or none of those there are: an insertion one that
was not filled, an erasure its own. So an element keeps its slot and its value
through everything that is not done to itself.

The loop that erases what a predicate selects walks on from the slot it just
erased, so it decides each live slot once.
-/

namespace Ycetl.Ref

open Ycetl.Lib

namespace Hive

variable {T : Type}

def Slot.isFilled (s : Slot T) : Bool := s.state = .filled

/-- The free stack holds the slots that are not filled, each once, and the size
counts the others. -/
structure FreeExact (h : Hive T) : Prop where
  nodup : h.free.Nodup
  mem_iff : ∀ i, i ∈ h.free ↔ i < h.capacity ∧ h.filledAt i = false
  size_eq : h.size = h.slots.countP Slot.isFilled

theorem filledAt_of_getElem {h : Hive T} {i : Nat} {s : Slot T} (hs : h.slots[i]? = some s) :
    h.filledAt i = s.isFilled := by
  rw [filledAt, hs]
  rfl

theorem exists_slot {h : Hive T} {i : Nat} (hi : i < h.capacity) : ∃ s, h.slots[i]? = some s :=
  ⟨_, List.getElem?_eq_getElem hi⟩

theorem lt_of_filledAt {h : Hive T} {i : Nat} (hi : h.filledAt i = true) : i < h.capacity := by
  by_contra hge
  rw [filledAt, List.getElem?_eq_none (by rw [capacity] at hge; omega)] at hi
  cases hi

theorem filledAt_eq {h h' : Hive T} {i : Nat} (hi : h'.slots[i]? = h.slots[i]?) :
    h'.filledAt i = h.filledAt i := by
  rw [filledAt, filledAt, hi]

section

variable {slots : List (Slot T)} {free : List Nat} {size i : Nat}

theorem filledAt_mk {s : Slot T} (hs : slots[i]? = some s) :
    filledAt ⟨slots, free, size⟩ i = s.isFilled := filledAt_of_getElem hs

theorem filledAt_mk_eq {h : Hive T} (hi : slots[i]? = h.slots[i]?) :
    filledAt ⟨slots, free, size⟩ i = h.filledAt i := filledAt_eq hi

end

namespace FreeExact

variable {h : Hive T}

theorem empty : FreeExact (Hive.empty : Hive T) where
  nodup := List.nodup_nil
  mem_iff := fun i => by simp [Hive.empty, capacity]
  size_eq := rfl

/-- With no free slot the hive is full. -/
theorem size_of_no_free (hx : FreeExact h) (hf : h.free = []) : h.size = h.capacity := by
  rw [hx.size_eq, capacity, List.countP_eq_length]
  intro s hs
  obtain ⟨i, hi⟩ := List.getElem?_of_mem hs
  obtain ⟨hlt, -⟩ := List.getElem?_eq_some_iff.mp hi
  have hfree : ¬ (i < h.capacity ∧ h.filledAt i = false) := by
    rw [← hx.mem_iff, hf]
    exact List.not_mem_nil
  rw [filledAt_of_getElem hi] at hfree
  by_contra hs'
  exact hfree ⟨hlt, by simpa using hs'⟩

/-- With a free slot it is not. -/
theorem size_lt_of_free (hx : FreeExact h) {i : Nat} (hi : i ∈ h.free) :
    h.size < h.capacity := by
  obtain ⟨hlt, hemp⟩ := (hx.mem_iff i).mp hi
  obtain ⟨s, hs⟩ := exists_slot hlt
  rw [filledAt_of_getElem hs] at hemp
  rw [hx.size_eq, capacity]
  refine Nat.lt_of_le_of_ne List.countP_le_length fun he => ?_
  have := List.countP_eq_length.mp he s (List.mem_of_getElem? hs)
  rw [hemp] at this
  cases this

end FreeExact

/-! ## One call -/

/-- What an insertion does: the value stands in a slot that was not filled, a
free one when there is one and the next one when the hive is full, and every
other slot is as it was. -/
structure Inserted (h : Hive T) (v : T) (h' : Hive T) (i : Nat) : Prop where
  exact : h'.FreeExact
  was_free : h.filledAt i = false
  stored : h'.slots[i]? = some ⟨.filled, v⟩
  others : ∀ j, j ≠ i → h'.slots[j]? = h.slots[j]?
  reuses : h.size < h.capacity → i ∈ h.free ∧ h'.capacity = h.capacity
  grows : h.size = h.capacity → i = h.capacity ∧ h'.capacity = h.capacity + 1

theorem iterAt_of_filled {h : Hive T} {i : Nat} (hi : h.filledAt i = true) : h.iterAt i = i :=
  nextMarked_of_marked hi

theorem endIter_eq (h : Hive T) : h.endIter = h.capacity :=
  nextMarked_of_end (Nat.le_refl _)

theorem insert_spec {h : Hive T} (hx : h.FreeExact) (v : T) :
    ∃ h' i, h.insert v = some (h', i) ∧ Inserted h v h' i := by
  rcases List.eq_nil_or_concat h.free with hf | ⟨rest, idx, hf⟩
  · -- the hive is full: a new slot behind the last
    have hsize := hx.size_of_no_free hf
    have hlast : (h.slots ++ [⟨.filled, v⟩])[h.slots.length]? = some (⟨.filled, v⟩ : Slot T) := by
      simp
    have hold : ∀ j, j ≠ h.slots.length →
        (h.slots ++ [⟨.filled, v⟩])[j]? = h.slots[j]? := by
      intro j hj
      rcases Nat.lt_or_ge j h.slots.length with hlt | hge
      · exact List.getElem?_append_left hlt
      · rw [List.getElem?_eq_none (by simp; omega), List.getElem?_eq_none hge]
    refine ⟨⟨h.slots ++ [⟨.filled, v⟩], h.free, h.size + 1⟩, h.slots.length, ?_, ?_⟩
    · rw [insert, if_neg (by simp [hf])]
      simp only [Option.some.injEq, Prod.mk.injEq, true_and]
      exact iterAt_of_filled ((filledAt_mk hlast).trans rfl)
    · refine ⟨⟨hx.nodup, fun i => ?_, ?_⟩, ?_, hlast, hold, fun hlt => by omega, fun _ => ?_⟩
      · rw [hf, capacity, List.length_append, List.length_singleton]
        refine ⟨fun hi => absurd hi List.not_mem_nil, fun hi => ?_⟩
        exfalso
        rcases Nat.lt_or_ge i h.slots.length with hlt | hge
        · have hfree := (hx.mem_iff i).mpr ⟨hlt, by
            rw [filledAt_mk_eq (hold i (by omega))] at hi
            exact hi.2⟩
          rw [hf] at hfree
          cases hfree
        · have hi' : i = h.slots.length := by omega
          rw [hi', filledAt_mk hlast] at hi
          cases hi.2
      · show h.size + 1 = (h.slots ++ [(⟨.filled, v⟩ : Slot T)]).countP Slot.isFilled
        rw [List.countP_append, hx.size_eq]
        rfl
      · rw [filledAt, List.getElem?_eq_none (Nat.le_refl _)]
      · exact ⟨rfl, by rw [capacity, capacity]; simp⟩
  · -- the slot on top of the stack
    rw [List.concat_eq_append] at hf
    have hmem : idx ∈ h.free := by simp [hf]
    obtain ⟨hlt, hemp⟩ := (hx.mem_iff idx).mp hmem
    obtain ⟨s, hs⟩ := exists_slot hlt
    have hnd := hx.nodup
    rw [hf, List.nodup_append] at hnd
    have hself : (h.slots.set idx ⟨.filled, v⟩)[idx]? = some (⟨.filled, v⟩ : Slot T) :=
      List.getElem?_set_self hlt
    have hother : ∀ j, j ≠ idx → (h.slots.set idx ⟨.filled, v⟩)[j]? = h.slots[j]? :=
      fun j hj => List.getElem?_set_ne (Ne.symm hj)
    refine ⟨⟨h.slots.set idx ⟨.filled, v⟩, h.free.dropLast, h.size + 1⟩, idx, ?_, ?_⟩
    · have htop : h.free[h.free.length - 1]? = some idx := by simp [hf]
      rw [insert, if_pos (by simp [hf]), htop]
      simp only [Option.bind_eq_bind, Option.bind_some, hs, Option.some.injEq, Prod.mk.injEq,
        true_and]
      exact iterAt_of_filled ((filledAt_mk hself).trans rfl)
    · have hfree : h.free.dropLast = rest := by simp [hf]
      refine ⟨⟨?_, fun i => ?_, ?_⟩, hemp, hself, hother, fun _ => ⟨hmem, ?_⟩, fun hfull => ?_⟩
      · show h.free.dropLast.Nodup
        rw [hfree]
        exact hnd.1
      · show i ∈ h.free.dropLast ↔ _
        rw [hfree, capacity, List.length_set]
        by_cases hi : i = idx
        · have hnot : i ∉ rest := fun hr => hnd.2.2 i hr idx (by simp) hi
          rw [hi] at hnot ⊢
          rw [filledAt_mk hself]
          exact ⟨fun hr => absurd hr hnot, fun hr => by cases hr.2⟩
        · rw [filledAt_mk_eq (hother i hi), ← capacity, ← hx.mem_iff, hf]
          simp [hi]
      · show h.size + 1 = (h.slots.set idx ⟨.filled, v⟩).countP Slot.isFilled
        obtain ⟨hlt', hs'⟩ := List.getElem?_eq_some_iff.mp hs
        rw [filledAt_of_getElem hs] at hemp
        rw [List.countP_set hlt', hs', hemp, hx.size_eq]
        rfl
      · rw [capacity, capacity, List.length_set]
      · have := hx.size_lt_of_free hmem
        omega

/-- What an erasure does: its slot is not filled any more, every other slot is
as it was, and the iterator goes on to the next filled one. -/
structure Erased (h : Hive T) (idx : Nat) (h' : Hive T) (i : Nat) : Prop where
  exact : h'.FreeExact
  gone : ∀ s, h.slots[idx]? = some s → h'.slots[idx]? = some { s with state := .empty }
  others : ∀ j, j ≠ idx → h'.slots[j]? = h.slots[j]?
  capacity_eq : h'.capacity = h.capacity
  next_eq : i = h'.iterAt (idx + 1)

theorem erase_spec {h : Hive T} (hx : h.FreeExact) {idx : Nat} (hidx : h.filledAt idx = true) :
    ∃ h' i, h.erase idx = some (h', i) ∧ Erased h idx h' i := by
  have hlt := lt_of_filledAt hidx
  obtain ⟨s, hs⟩ := exists_slot hlt
  have hself : (h.slots.set idx { s with state := .empty })[idx]?
      = some { s with state := .empty } := List.getElem?_set_self hlt
  have hother : ∀ j, j ≠ idx → (h.slots.set idx { s with state := .empty })[j]? = h.slots[j]? :=
    fun j hj => List.getElem?_set_ne (Ne.symm hj)
  have hnot : idx ∉ h.free := by
    rw [hx.mem_iff, hidx]
    simp
  refine ⟨⟨h.slots.set idx { s with state := .empty }, h.free ++ [idx], h.size - 1⟩,
    iterAt ⟨h.slots.set idx { s with state := .empty }, h.free ++ [idx], h.size - 1⟩ (idx + 1),
    ?_, ?_⟩
  · rw [erase, hs]
    rfl
  · refine ⟨⟨?_, fun i => ?_, ?_⟩, ?_, hother, ?_, rfl⟩
    · show (h.free ++ [idx]).Nodup
      rw [List.nodup_append]
      refine ⟨hx.nodup, List.nodup_singleton _, fun a ha b hb he => ?_⟩
      rw [List.mem_singleton] at hb
      exact hnot (hb ▸ he ▸ ha)
    · show i ∈ h.free ++ [idx] ↔ _
      rw [capacity, List.length_set, List.mem_append, List.mem_singleton]
      by_cases hi : i = idx
      · rw [hi, filledAt_mk hself]
        exact ⟨fun _ => ⟨hlt, rfl⟩, fun _ => .inr rfl⟩
      · rw [filledAt_mk_eq (hother i hi), ← capacity, ← hx.mem_iff]
        simp [hi]
    · show h.size - 1 = (h.slots.set idx { s with state := .empty }).countP Slot.isFilled
      obtain ⟨hlt', hs'⟩ := List.getElem?_eq_some_iff.mp hs
      rw [filledAt_of_getElem hs] at hidx
      rw [List.countP_set hlt', hs', hidx, hx.size_eq]
      rfl
    · intro t ht
      rw [hs, Option.some.injEq] at ht
      rw [← ht]
      exact hself
    · rw [capacity, capacity, List.length_set]

/-- What a reservation does: the slots there were are as they were. -/
structure Reserved (h : Hive T) (n : Nat) (h' : Hive T) : Prop where
  exact : h'.FreeExact
  others : ∀ j, j < h.capacity → h'.slots[j]? = h.slots[j]?
  capacity_eq : h'.capacity = max h.capacity n

theorem reserve_spec [Inhabited T] {h : Hive T} (hx : h.FreeExact) (n : Nat) :
    Reserved h n (h.reserve n) := by
  rw [reserve]
  split
  next hn =>
    have hold : ∀ j, j < h.capacity →
        (h.slots ++ List.replicate (n - h.slots.length) (⟨.empty, default⟩ : Slot T))[j]?
          = h.slots[j]? := fun j hj => List.getElem?_append_left hj
    refine ⟨⟨?_, fun i => ?_, ?_⟩, hold, ?_⟩
    · show (h.free ++ List.range' h.slots.length (n - h.slots.length)).Nodup
      rw [List.nodup_append]
      refine ⟨hx.nodup, List.nodup_range', fun a ha b hb he => ?_⟩
      have hlt := ((hx.mem_iff a).mp ha).1
      rw [List.mem_range'_1, ← he] at hb
      rw [capacity] at hlt
      omega
    · show i ∈ h.free ++ List.range' h.slots.length (n - h.slots.length) ↔ _
      rw [List.mem_append, hx.mem_iff, List.mem_range'_1, capacity, capacity, List.length_append,
        List.length_replicate]
      rcases Nat.lt_or_ge i h.slots.length with hlt | hge
      · rw [filledAt_mk_eq (hold i hlt)]
        constructor
        · rintro (hi | hi)
          · exact ⟨by omega, hi.2⟩
          · omega
        · intro hi
          exact .inl ⟨hlt, hi.2⟩
      · constructor
        · rintro (hi | hi)
          · omega
          · refine ⟨by omega, ?_⟩
            rw [filledAt, List.getElem?_append_right hge, List.getElem?_replicate,
              if_pos (by omega)]
            rfl
        · intro hi
          exact .inr (by omega)
    · show h.size = (h.slots ++ List.replicate _ _).countP Slot.isFilled
      rw [List.countP_append, List.countP_replicate, hx.size_eq]
      rfl
    · rw [capacity, capacity, List.length_append, List.length_replicate]
      omega
  next hn => exact ⟨hx, fun _ _ => rfl, by rw [capacity] at *; omega⟩

/-- Writing through an iterator changes the value of its slot. -/
theorem FreeExact.assign {h : Hive T} (hx : h.FreeExact) {idx : Nat} {s : Slot T}
    (hs : h.slots[idx]? = some s) (v : T) :
    FreeExact { h with slots := h.slots.set idx { s with value := v } } := by
  obtain ⟨hlt, hs'⟩ := List.getElem?_eq_some_iff.mp hs
  refine ⟨hx.nodup, fun i => ?_, ?_⟩
  · show i ∈ h.free ↔ _
    rw [hx.mem_iff, capacity, capacity, List.length_set]
    by_cases hi : i = idx
    · rw [hi, filledAt_mk (List.getElem?_set_self hlt), filledAt_of_getElem hs]
      rfl
    · rw [filledAt_mk_eq (List.getElem?_set_ne (Ne.symm hi))]
  · show h.size = (h.slots.set idx { s with value := v }).countP Slot.isFilled
    have hle : s.isFilled = true → 0 < h.slots.countP Slot.isFilled := fun hf =>
      List.countP_pos_iff.mpr ⟨s, List.mem_of_getElem? hs, hf⟩
    rw [List.countP_set hlt, hs', hx.size_eq]
    show _ = _ - (if s.isFilled = true then 1 else 0) + if s.isFilled = true then 1 else 0
    split
    next hf =>
      have := hle hf
      omega
    next => rfl

/-- One call and the hive it leaves. -/
def next [Inhabited T] (h : Hive T) (c : Call T) : Option (Hive T) := (h.step c).map Prod.fst

/-- A call that is done to the element in slot `i`, or to every element. -/
def Call.Touches (i : Nat) : Call T → Prop
  | .erase j | .assign j _ => j = i
  | .clear => True
  | .insert _ | .emplace _ | .reserve _ | .deref _ | .incr _ => False

/-- Every call the interface allows is defined and keeps the free stack exact,
and a live element it is not done to keeps its slot and its value. -/
theorem call_spec [Inhabited T] {h : Hive T} (hx : h.FreeExact) {c : Call T}
    (hc : c.Legal h) :
    ∃ h' out, h.call c = some (h', out) ∧ h'.FreeExact ∧
      ∀ i, h.filledAt i = true → ¬ c.Touches i → h'.slots[i]? = h.slots[i]? := by
  cases c with
  | insert v =>
      obtain ⟨h', i, hi, hins⟩ := insert_spec hx v
      refine ⟨h', .iter i, by rw [call, hi]; rfl, hins.exact, fun j hj _ => ?_⟩
      exact hins.others j fun he => by rw [he, hins.was_free] at hj; cases hj
  | emplace v =>
      obtain ⟨h', i, hi, hins⟩ := insert_spec hx v
      refine ⟨h', .iter i, by rw [call, emplace, hi]; rfl, hins.exact, fun j hj _ => ?_⟩
      exact hins.others j fun he => by rw [he, hins.was_free] at hj; cases hj
  | erase idx =>
      obtain ⟨h', i, hi, her⟩ := erase_spec hx hc
      exact ⟨h', .iter i, by rw [call, hi]; rfl, her.exact, fun j _ hj =>
        her.others j fun he => hj he.symm⟩
  | reserve n =>
      have hres := reserve_spec hx n
      exact ⟨_, _, rfl, hres.exact, fun j hj _ => hres.others j (lt_of_filledAt hj)⟩
  | clear => exact ⟨_, _, rfl, .empty, fun j _ hj => absurd trivial hj⟩
  | deref idx =>
      obtain ⟨s, hs⟩ := exists_slot (lt_of_filledAt hc)
      exact ⟨h, .elem s.value, by rw [call, hs]; rfl, hx, fun _ _ _ => rfl⟩
  | assign idx v =>
      obtain ⟨s, hs⟩ := exists_slot (lt_of_filledAt hc)
      refine ⟨_, .done, by rw [call, hs]; rfl, hx.assign hs v, fun j _ hj => ?_⟩
      exact List.getElem?_set_ne hj
  | incr idx => exact ⟨_, _, rfl, hx, fun _ _ _ => rfl⟩

theorem next_spec [Inhabited T] {h h' : Hive T} (hx : h.FreeExact) {c : Call T}
    (hn : h.next c = some h') :
    h'.FreeExact ∧ ∀ i, h.filledAt i = true → ¬ c.Touches i → h'.slots[i]? = h.slots[i]? := by
  obtain ⟨r, hr, hh⟩ := Option.map_eq_some_iff.mp hn
  rw [step] at hr
  split at hr
  next hc =>
    obtain ⟨h'', out, hcall, hspec⟩ := call_spec hx hc
    rw [hcall, Option.some.injEq] at hr
    rw [← hh, ← hr]
    exact hspec
  next hc => cases hr

/-- What one call leaves alone, a run leaves alone. -/
theorem run_stable [Inhabited T] {h h' : Hive T} (hx : h.FreeExact) {cs : List (Call T)}
    (hrun : runFrom next h cs = some h') {i : Nat} (hi : h.filledAt i = true)
    (hcs : ∀ c ∈ cs, ¬ c.Touches i) : h'.slots[i]? = h.slots[i]? := by
  induction cs generalizing h with
  | nil =>
      rw [runFrom_nil, Option.some.injEq] at hrun
      rw [hrun]
  | cons c cs ih =>
      obtain ⟨m, hm, hrest⟩ := runFrom_cons_some hrun
      obtain ⟨hmx, hstable⟩ := next_spec hx hm
      have hmi := hstable i hi (hcs c List.mem_cons_self)
      rw [ih hmx hrest ((filledAt_eq hmi).trans hi)
        fun d hd => hcs d (List.mem_cons_of_mem c hd), hmi]

/-! ## Iterating -/

/-- A range-for stops at the live slots, in order and once each. -/
theorem stops_eq (h : Hive T) : h.stops = (List.range h.capacity).filter h.filledAt :=
  sweep_begin

theorem iterAt_of_not_filled {h : Hive T} {i : Nat} (hi : i < h.capacity)
    (hf : h.filledAt i = false) : h.iterAt i = h.iterAt (i + 1) :=
  nextMarked_of_not_marked hi hf

theorem iterAt_of_end {h : Hive T} {i : Nat} (hi : h.capacity ≤ i) : h.iterAt i = i :=
  nextMarked_of_end hi

/-- A slot after the loop has decided it. -/
def Slot.decided (pred : T → Bool) (s : Slot T) : Slot T :=
  if s.isFilled = true ∧ pred s.value = true then { s with state := .empty } else s

/-- From any place on, the loop decides each slot once; it needs a round for
each slot and one to see the end. -/
theorem eraseIf_spec (pred : T → Bool) {h : Hive T} (hx : h.FreeExact) (i rounds : Nat)
    (hi : i ≤ h.capacity) (hrounds : h.capacity - i < rounds) :
    ∃ h', eraseIf pred rounds h (h.iterAt i) = some h' ∧ h'.FreeExact ∧
      ∀ j, h'.slots[j]? =
        if i ≤ j then (h.slots[j]?).map (Slot.decided pred) else h.slots[j]? := by
  obtain ⟨k, hk⟩ : ∃ k, h.capacity - i = k := ⟨_, rfl⟩
  induction k generalizing h i rounds with
  | zero =>
      obtain ⟨rounds, rfl⟩ : ∃ r, rounds = r + 1 := ⟨rounds - 1, by omega⟩
      have hend : i = h.capacity := by omega
      refine ⟨h, ?_, hx, fun j => ?_⟩
      · rw [eraseIf, hend, iterAt_of_end (Nat.le_refl _), endIter_eq, if_pos rfl]
      · split
        next hj =>
          rw [List.getElem?_eq_none (by rw [capacity] at hend; omega)]
          rfl
        next hj => rfl
  | succ k ih =>
      have hlt : i < h.capacity := by omega
      obtain ⟨s, hs⟩ := exists_slot hlt
      have hsf := filledAt_of_getElem hs
      -- the slots behind `i` are decided by the rounds that follow
      have hglue : ∀ {h₁ h' : Hive T}, h₁.slots[i]? = some (s.decided pred) →
          (∀ j, j ≠ i → h₁.slots[j]? = h.slots[j]?) →
          (∀ j, h'.slots[j]? =
            if i + 1 ≤ j then (h₁.slots[j]?).map (Slot.decided pred) else h₁.slots[j]?) →
          ∀ j, h'.slots[j]? =
            if i ≤ j then (h.slots[j]?).map (Slot.decided pred) else h.slots[j]? := by
        intro h₁ h' hself hother hrest j
        rw [hrest j]
        rcases Nat.lt_trichotomy j i with hj | hj | hj
        · rw [if_neg (by omega), if_neg (by omega), hother j (by omega)]
        · rw [if_neg (by omega), if_pos (by omega), hj, hself, hs]
          rfl
        · rw [if_pos (by omega), if_pos (by omega), hother j (by omega)]
      cases hf : h.filledAt i with
      | false =>
          have hdec : s.decided pred = s := by
            rw [Slot.decided, if_neg (by rw [← hsf, hf]; simp)]
          rw [iterAt_of_not_filled hlt hf]
          obtain ⟨h', hrun, hx', hrest⟩ := ih hx (i + 1) rounds hlt (by omega) (by omega)
          exact ⟨h', hrun, hx', hglue (hs.trans (by rw [hdec])) (fun _ _ => rfl) hrest⟩
      | true =>
          obtain ⟨rounds, rfl⟩ : ∃ r, rounds = r + 1 := ⟨rounds - 1, by omega⟩
          have hne : ¬ i = h.endIter := by
            rw [endIter_eq]
            omega
          rw [iterAt_of_filled hf, eraseIf, if_neg hne, hs, Option.bind_eq_bind,
            Option.bind_some]
          split
          next hp =>
            have hdec : s.decided pred = { s with state := .empty } := by
              rw [Slot.decided, if_pos ⟨by rw [← hsf, hf], hp⟩]
            obtain ⟨h₁, it, her, hspec⟩ := erase_spec hx hf
            have hcap := hspec.capacity_eq
            rw [her, hspec.next_eq]
            obtain ⟨h', hrun, hx', hrest⟩ :=
              ih hspec.exact (i + 1) rounds (by omega) (by omega) (by omega)
            exact ⟨h', hrun, hx', hglue (by rw [hdec]; exact hspec.gone s hs) hspec.others hrest⟩
          next hp =>
            have hdec : s.decided pred = s := by
              rw [Slot.decided, if_neg fun hd => hp hd.2]
            obtain ⟨h', hrun, hx', hrest⟩ := ih hx (i + 1) rounds hlt (by omega) (by omega)
            exact ⟨h', hrun, hx', hglue (hs.trans (by rw [hdec])) (fun _ _ => rfl) hrest⟩

end Hive

theorem hive_free_stack_exact_and_elements_stable {T : Type} [Inhabited T]
    (calls : List (Hive.Call T)) (h : Hive T)
    (hrun : runFrom Hive.next Hive.empty calls = some h) :
    -- the free stack and the size, and every allowed call is defined
    (h.FreeExact ∧ ∀ c : Hive.Call T, c.Legal h → (h.step c).isSome) ∧
    -- an insertion overwrites nothing live, reuses a free slot if there is one, and
    -- grows only where every slot is filled
    (∀ v, ∃ h' i, h.insert v = some (h', i) ∧ h.emplace v = some (h', i) ∧
      Hive.Inserted h v h' i) ∧
    -- erasing takes one element off, and reserving adds free slots
    (∀ i, h.filledAt i = true → ∃ h' j, h.erase i = some (h', j) ∧ Hive.Erased h i h' j) ∧
    (∀ n, Hive.Reserved h n (h.reserve n)) ∧
    -- through any further run, an element keeps its slot and value until it is touched
    (∀ (more : List (Hive.Call T)) (h' : Hive T) (i : Nat),
      runFrom Hive.next h more = some h' → h.filledAt i = true →
      (∀ c ∈ more, ¬ c.Touches i) → h'.slots[i]? = h.slots[i]?) ∧
    -- an iteration visits each live element once
    (h.stops.Nodup ∧ ∀ i, i ∈ h.stops ↔ h.filledAt i = true) ∧
    -- and the erasing loop ends, having erased what the predicate selects
    ∀ (pred : T → Bool) (rounds : Nat), h.capacity < rounds →
      ∃ h', Hive.eraseIf pred rounds h h.begin = some h' ∧ h'.FreeExact ∧
        ∀ j : Nat, h'.slots[j]? = (h.slots[j]?).map (Hive.Slot.decided pred) := by
  have hx : h.FreeExact :=
    runFrom_inv (fun _ _ _ hs hn => (Hive.next_spec hs hn).1) Hive.FreeExact.empty hrun
  refine ⟨⟨hx, fun c hc => ?_⟩, fun v => ?_, fun i hi => Hive.erase_spec hx hi,
    fun n => Hive.reserve_spec hx n, fun more h' i hmore hi hcs => ?_, ⟨?_, fun i => ?_⟩,
    fun pred rounds hrounds => ?_⟩
  · obtain ⟨h', out, hcall, -⟩ := Hive.call_spec hx hc
    rw [Hive.step, if_pos hc, hcall]
    rfl
  · obtain ⟨h', i, hi, hins⟩ := Hive.insert_spec hx v
    exact ⟨h', i, hi, hi, hins⟩
  · exact Hive.run_stable hx hmore hi hcs
  · rw [Hive.stops_eq]
    exact List.nodup_range.filter _
  · rw [Hive.stops_eq, List.mem_filter, List.mem_range]
    exact ⟨And.right, fun hi => ⟨Hive.lt_of_filledAt hi, hi⟩⟩
  · obtain ⟨h', hloop, hx', hspec⟩ :=
      Hive.eraseIf_spec pred hx 0 rounds (Nat.zero_le _) (by omega)
    refine ⟨h', hloop, hx', fun j => ?_⟩
    rw [hspec, if_pos (Nat.zero_le j)]

/-- Three values inserted, the second erased, and another put in its place. -/
theorem hive_reuses_erased_slot :
    runFrom Hive.next (Hive.empty : Hive Nat)
        [.insert 1, .insert 2, .insert 3, .erase 1, .insert 4]
      = some ⟨[⟨.filled, 1⟩, ⟨.filled, 4⟩, ⟨.filled, 3⟩], [], 3⟩ ∧
    ∃ h', Hive.eraseIf (fun v => v % 2 = 1) 4
        (⟨[⟨.filled, 1⟩, ⟨.filled, 4⟩, ⟨.filled, 3⟩], [], 3⟩ : Hive Nat) 0 = some h' ∧
      h'.FreeExact ∧ ∀ j : Nat, h'.slots[j]? =
        ([⟨.filled, 1⟩, ⟨.filled, 4⟩, ⟨.filled, 3⟩] : List (Hive.Slot Nat))[j]?.map
          (Hive.Slot.decided fun v => v % 2 = 1) :=
  have hrun : runFrom Hive.next (Hive.empty : Hive Nat)
      [.insert 1, .insert 2, .insert 3, .erase 1, .insert 4]
      = some ⟨[⟨.filled, 1⟩, ⟨.filled, 4⟩, ⟨.filled, 3⟩], [], 3⟩ := by decide
  ⟨hrun, (hive_free_stack_exact_and_elements_stable _ _ hrun).2.2.2.2.2.2 _ 4 (by decide)⟩

end Ycetl.Ref
