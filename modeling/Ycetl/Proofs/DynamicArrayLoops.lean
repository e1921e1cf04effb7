import Ycetl.Ref.DynamicArray

/-!
# What the loops of `dynamic_array` do to the slots

One lemma a loop, in two halves. The first says what can be seen of every slot
after the loop, in terms of what could be seen before it; it needs nothing of
the slots but that the ranges a loop reads and writes do not overlap. The
second says when the loop commits no fault. The invariant of each induction
is the statement itself at the slots done so far.
-/

namespace Ycetl.Ref.DynamicArray

open Ycetl.Lib

variable {T : Type}

/-- A slot that is constructed from another one, or from one without a value. -/
theorem view_construct_copy {s : Store T} {p r : Nat} (hne : r ≠ p ∨ (s.view r).join = none)
    (q : Nat) :
    (s.constructAt p (.copy r)).view q = if q = p then some (s.view r).join else s.view q := by
  by_cases hrp : r = p
  · rw [Store.view_constructAt, if_pos (show (Src.copy r : Src T).cell = some p from hrp ▸ rfl),
      hne.resolve_left fun h => h hrp, Store.view_drain]
    rfl
  · rw [Store.view_constructAt_of_ne _ (Src.cell_copy_ne hrp), Store.view_drain]
    rfl

theorem constructN_spec (s : Store T) (p n : Nat) (v : T) :
    (∀ q, (constructN s p n (.value v)).view q =
      if p ≤ q ∧ q < p + n then some (some v) else s.view q) ∧
      (constructN s p n (.value v)).offset = s.offset ∧
      (s.Clean → (∀ q, p ≤ q → q < p + n → ¬ s.Live q) →
        (constructN s p n (.value v)).Clean) := by
  have hloop := upLoop_inv (fun i (s : Store T) => s.constructAt (p + i) (.value v))
    (fun i (s' : Store T) => (∀ q, s'.view q =
        if p ≤ q ∧ q < p + i then some (some v) else s.view q) ∧
      s'.offset = s.offset ∧
      (s.Clean → (∀ q, p ≤ q → q < p + n → ¬ s.Live q) → s'.Clean)) 0 n
    ⟨fun q => by rw [if_neg (by omega)], rfl, fun h _ => h⟩ ?_
  · rwa [Nat.zero_add] at hloop
  · rintro i s' - hi ⟨hview, hoff, hclean⟩
    refine ⟨fun q => ?_, hoff, fun h hraw => ?_⟩
    · rw [Store.view_constructAt_of_ne _ (by simp [Src.cell])]
      by_cases hq : q = p + i
      · rw [if_pos hq, if_pos (by omega)]
        rfl
      · rw [if_neg hq]
        refine (hview q).trans ?_
        by_cases hin : p ≤ q ∧ q < p + i
        · rw [if_pos hin, if_pos (by omega)]
        · rw [if_neg hin, if_neg (by omega)]
    · refine (hclean h hraw).constructAt ?_ (by intro q hq; cases hq)
      rw [Store.live_congr ((hview (p + i)).trans (if_neg (by omega)))]
      exact hraw (p + i) (by omega) (by omega)

theorem copyConstructN_spec (s : Store T) (p n dest : Nat)
    (hdis : p + n ≤ dest ∨ dest + n ≤ p) :
    (∀ q, (copyConstructN s p n dest).view q =
      if dest ≤ q ∧ q < dest + n then some (s.view (p + (q - dest))).join
      else s.view q) ∧
      (copyConstructN s p n dest).offset = s.offset ∧
      (s.Clean → (∀ q, dest ≤ q → q < dest + n → ¬ s.Live q) →
        (∀ q, p ≤ q → q < p + n → s.Live q) →
        (copyConstructN s p n dest).Clean) := by
  have hloop := upLoop_inv (fun i (s : Store T) => s.constructAt (dest + i) (.copy (p + i)))
    (fun i (s' : Store T) => (∀ q, s'.view q =
        if dest ≤ q ∧ q < dest + i then some (s.view (p + (q - dest))).join
        else s.view q) ∧
      s'.offset = s.offset ∧
      (s.Clean → (∀ q, dest ≤ q → q < dest + n → ¬ s.Live q) →
        (∀ q, p ≤ q → q < p + n → s.Live q) → s'.Clean)) 0 n
    ⟨fun q => by rw [if_neg (by omega)], rfl, fun h _ _ => h⟩ ?_
  · rwa [Nat.zero_add] at hloop
  · rintro i s' - hi ⟨hview, hoff, hclean⟩
    have hsrc : s'.view (p + i) = s.view (p + i) :=
      (hview (p + i)).trans (if_neg (by omega))
    refine ⟨fun q => ?_, (Store.offset_constructAt _ _ _).trans hoff,
      fun h hraw hlive => ?_⟩
    · rw [Store.view_constructAt_of_ne _ (Src.cell_copy_ne (by omega))]
      by_cases hq : q = dest + i
      · rw [if_pos hq, if_pos (by omega), Store.fetch, hsrc, hq,
          Nat.add_sub_cancel_left]
      · rw [if_neg hq, Store.view_drain, if_neg (by simp [Src.moved]), hview q]
        by_cases hin : dest ≤ q ∧ q < dest + i
        · rw [if_pos hin, if_pos (by omega)]
        · rw [if_neg hin, if_neg (by omega)]
    · refine (hclean h hraw hlive).constructAt ?_ ?_
      · rw [Store.live_congr ((hview (dest + i)).trans (if_neg (by omega)))]
        exact hraw (dest + i) (by omega) (by omega)
      · intro q hq
        cases hq
        rw [Store.live_congr hsrc]
        exact hlive (p + i) (by omega) (by omega)

theorem copyConstructList_spec (vs : List T) (s : Store T) (dest : Nat) :
    (∀ q, (copyConstructList s vs dest).view q =
      if dest ≤ q ∧ q < dest + vs.length then some vs[q - dest]?
      else s.view q) ∧
      (copyConstructList s vs dest).offset = s.offset ∧
      (s.Clean → (∀ q, dest ≤ q → q < dest + vs.length → ¬ s.Live q) →
        (copyConstructList s vs dest).Clean) := by
  induction vs generalizing s dest with
  | nil =>
      refine ⟨fun q => ?_, rfl, fun h _ => h⟩
      rw [List.length_nil, if_neg (by omega)]
      rfl
  | cons v rest ih =>
      obtain ⟨hview, hoff, hclean⟩ := ih (s.constructAt dest (.value v)) (dest + 1)
      rw [copyConstructList]
      refine ⟨fun q => ?_, hoff, fun h hraw => ?_⟩
      · rw [hview q, Store.view_constructAt_of_ne _ (by simp [Src.cell]), List.length_cons]
        by_cases hq : q = dest
        · rw [if_neg (by omega), if_pos hq, if_pos (by omega), hq, Nat.sub_self]
          rfl
        · rw [if_neg hq]
          by_cases hin : dest + 1 ≤ q ∧ q < dest + 1 + rest.length
          · rw [if_pos hin, if_pos (by omega),
              show q - dest = q - (dest + 1) + 1 by omega, List.getElem?_cons_succ]
          · rw [if_neg hin, if_neg (by omega)]
            rfl
      · rw [List.length_cons] at hraw
        refine hclean (h.constructAt (hraw dest (Nat.le_refl dest) (by omega))
          (by intro q hq; cases hq)) fun q hlo hhi hl => ?_
        rcases Store.live_constructAt.mp hl with hq | hl
        · omega
        · exact hraw q (by omega) (by omega) hl

theorem destroyRange_spec (s : Store T) (a : Arr) {first last : Nat}
    (hle : first ≤ last) :
    (∀ q, (destroyRange s a first last).view q =
      if a.data + first ≤ q ∧ q < a.data + last then none else s.view q) ∧
      (destroyRange s a first last).offset = s.offset ∧
      (s.Clean → (∀ q, a.data + first ≤ q → q < a.data + last → s.Live q) →
        (destroyRange s a first last).Clean) := by
  have hloop := upLoop_inv (fun i (s : Store T) => s.destroyAt (a.data + i))
    (fun i (s' : Store T) => (∀ q, s'.view q =
        if a.data + first ≤ q ∧ q < a.data + i then none else s.view q) ∧
      s'.offset = s.offset ∧
      (s.Clean → (∀ q, a.data + first ≤ q → q < a.data + last → s.Live q) →
        s'.Clean)) first (last - first)
    ⟨fun q => by rw [if_neg (by omega)], rfl, fun h _ => h⟩ ?_
  · rwa [Nat.add_sub_cancel' hle] at hloop
  · intro i s' hlo hi hex
    obtain ⟨hview, hoff, hclean⟩ := hex
    refine ⟨fun q => ?_, (Store.offset_destroyAt _ _).trans hoff,
      fun h hlive => ?_⟩
    · rw [Store.view_destroyAt]
      by_cases hq : q = a.data + i
      · rw [if_pos hq, if_pos (by omega)]
      · rw [if_neg hq, hview q]
        by_cases hin : a.data + first ≤ q ∧ q < a.data + i
        · rw [if_pos hin, if_pos (by omega)]
        · rw [if_neg hin, if_neg (by omega)]
    · refine (hclean h hlive).destroyAt ?_
      rw [Store.live_congr ((hview (a.data + i)).trans (if_neg (by omega)))]
      exact hlive (a.data + i) (by omega) (by omega)

/-- The loop of `reserve` that moves the elements over. -/
theorem moveLoop_spec (s : Store T) (p n dest : Nat)
    (hdis : p + n ≤ dest ∨ dest + n ≤ p) :
    let s' := upLoop (fun i s => s.constructAt (dest + i) (.move (p + i))) 0 n s
    (∀ q, s'.view q =
      if dest ≤ q ∧ q < dest + n then some (s.view (p + (q - dest))).join
      else if p ≤ q ∧ q < p + n then (s.view q).map fun _ => none
      else s.view q) ∧
      s'.offset = s.offset ∧
      (s.Clean → (∀ q, dest ≤ q → q < dest + n → ¬ s.Live q) →
        (∀ q, p ≤ q → q < p + n → s.Live q) → s'.Clean) := by
  have hloop := upLoop_inv (fun i (s : Store T) => s.constructAt (dest + i) (.move (p + i)))
    (fun i (s' : Store T) => (∀ q, s'.view q =
        if dest ≤ q ∧ q < dest + i then some (s.view (p + (q - dest))).join
        else if p ≤ q ∧ q < p + i then (s.view q).map fun _ => none
        else s.view q) ∧
      s'.offset = s.offset ∧
      (s.Clean → (∀ q, dest ≤ q → q < dest + n → ¬ s.Live q) →
        (∀ q, p ≤ q → q < p + n → s.Live q) → s'.Clean)) 0 n
    ⟨fun q => by rw [if_neg (by omega), if_neg (by omega)], rfl, fun h _ _ => h⟩ ?_
  · rwa [Nat.zero_add] at hloop
  · rintro i s' - hi ⟨hview, hoff, hclean⟩
    have hsrc : s'.view (p + i) = s.view (p + i) := by
      rw [hview, if_neg (by omega), if_neg (by omega)]
    refine ⟨fun q => ?_, (Store.offset_constructAt _ _ _).trans hoff,
      fun h hraw hlive => ?_⟩
    · rw [Store.view_constructAt_of_ne _ (Src.cell_move_ne (by omega))]
      by_cases hq : q = dest + i
      · rw [if_pos hq, if_pos (by omega), Store.fetch, hsrc, hq,
          Nat.add_sub_cancel_left]
      · rw [if_neg hq, Store.view_drain, Src.moved]
        by_cases hp : q = p + i
        · rw [if_pos (by rw [hp]), hp, hsrc, if_neg (by omega), if_pos (by omega)]
        · rw [if_neg (by rw [Option.some.injEq]; omega), hview q]
          by_cases hin : dest ≤ q ∧ q < dest + i
          · rw [if_pos hin, if_pos (by omega)]
          · have hin₁ : ¬ (dest ≤ q ∧ q < dest + (i + 1)) := by omega
            rw [if_neg hin, if_neg hin₁]
            by_cases hin' : p ≤ q ∧ q < p + i
            · rw [if_pos hin', if_pos (by omega)]
            · rw [if_neg hin', if_neg (by omega)]
    · refine (hclean h hraw hlive).constructAt ?_ ?_
      · rw [Store.live_congr (s := s) (by rw [hview, if_neg (by omega), if_neg (by omega)])]
        exact hraw (dest + i) (by omega) (by omega)
      · intro q hq
        cases hq
        rw [Store.live_congr hsrc]
        exact hlive (p + i) (by omega) (by omega)

/-- The loop of `insert`: every element from `idx` on moves up one slot, and
slot `idx` is left alive without a value. -/
theorem shiftUp_spec (s : Store T) (a : Arr) {idx : Nat} (hidx : idx ≤ a.size)
    (hlive : ∀ q, a.data ≤ q → q < a.data + a.size → s.Live q) :
    (∀ q, (shiftUp s a idx).view q =
      if a.data + idx < q ∧ q ≤ a.data + a.size then some (s.view (q - 1)).join
      else if q = a.data + idx ∧ idx < a.size then (s.view q).map fun _ => none
      else s.view q) ∧
      (shiftUp s a idx).offset = s.offset := by
  have hloop := downLoop_inv
    (fun i (s : Store T) =>
      if i < a.size then s.assign (a.data + i) (.move (a.data + (i - 1)))
      else s.constructAt (a.data + i) (.move (a.data + (i - 1))))
    (fun i (s' : Store T) => (∀ q, s'.view q =
        if a.data + i < q ∧ q ≤ a.data + a.size then some (s.view (q - 1)).join
        else if q = a.data + i ∧ i < a.size then (s.view q).map fun _ => none
        else s.view q) ∧
      s'.offset = s.offset) (Nat.sub_le a.size idx) (s := s)
    ⟨fun q => by rw [if_neg (by omega), if_neg (by omega)], rfl⟩ ?_
  · rwa [Nat.sub_sub_self hidx] at hloop
  · intro i s' hlo hi hex
    obtain ⟨hview, hoff⟩ := hex
    -- A round writes slot `i` and drains slot `i - 1`, by whichever primitive.
    have hsrc : s'.view (a.data + (i - 1)) = s.view (a.data + (i - 1)) := by
      rw [hview, if_neg (by omega), if_neg (by omega)]
    have hround : ∀ t : Store T, (∀ q, t.view q =
          if q = a.data + i then some (s'.fetch (.move (a.data + (i - 1))))
          else (s'.drain (.move (a.data + (i - 1)))).view q) →
        ∀ q, t.view q =
          if a.data + (i - 1) < q ∧ q ≤ a.data + a.size then some (s.view (q - 1)).join
          else if q = a.data + (i - 1) ∧ i - 1 < a.size then
            (s.view q).map fun _ => none
          else s.view q := by
      intro t ht q
      rw [ht q]
      by_cases hq : q = a.data + i
      · rw [if_pos hq, if_pos (by omega), Store.fetch, hsrc, hq,
          show a.data + i - 1 = a.data + (i - 1) by omega]
      · rw [if_neg hq, Store.view_drain, Src.moved]
        by_cases hp : q = a.data + (i - 1)
        · rw [if_pos (by rw [hp]), hp, hsrc, if_neg (by omega), if_pos (by omega)]
        · have hp₁ : ¬ (q = a.data + (i - 1) ∧ i - 1 < a.size) := fun h => hp h.1
          have hq₁ : ¬ (q = a.data + i ∧ i < a.size) := fun h => hq h.1
          rw [if_neg (by rw [Option.some.injEq]; omega), hview q, if_neg hp₁, if_neg hq₁]
          by_cases hin : a.data + i < q ∧ q ≤ a.data + a.size
          · rw [if_pos hin, if_pos (by omega)]
          · rw [if_neg hin, if_neg (by omega)]
    by_cases his : i < a.size
    · have hl : s'.Live (a.data + i) := by
        rw [Store.Live, hview, if_neg (by omega), if_pos ⟨rfl, his⟩, Option.isSome_map]
        exact hlive _ (by omega) (by omega)
      rw [if_pos his]
      refine ⟨hround _ fun q => ?_, (Store.offset_assign _ _ _).trans hoff⟩
      rw [Store.view_assign _ (Src.moved_move_ne (by omega))]
      simp only [hl, and_true]
    · rw [if_neg his]
      exact ⟨hround _ fun q =>
          Store.view_constructAt_of_ne _ (Src.cell_move_ne (by omega)) q,
        (Store.offset_constructAt _ _ _).trans hoff⟩

/-- A loop that moves the elements behind a gap of `n` slots down, by whichever
primitive: what counts is that a round writes one slot and drains the other.
The old slots of the elements stay alive. -/
theorem shiftLoop_spec (s : Store T) (a : Arr) {idx n : Nat} (hn : idx + n ≤ a.size)
    (body : Nat → Store T → Store T)
    (hbody : ∀ i (s' : Store T), idx ≤ i → i + n < a.size →
      (∀ q, s.Live q → s'.Live q) → (body i s').offset = s'.offset ∧
      ∀ q, (body i s').view q =
        if q = a.data + i then some (s'.view (a.data + (i + n))).join
        else (s'.drain (.move (a.data + (i + n)))).view q) :
    (∀ q, (upLoop body idx (a.size - n - idx) s).view q =
      if a.data + idx ≤ q ∧ q + n < a.data + a.size then some (s.view (q + n)).join
      else if a.data + idx + n ≤ q ∧ q < a.data + a.size then
        (s.view q).map fun _ => none
      else s.view q) ∧
      (upLoop body idx (a.size - n - idx) s).offset = s.offset := by
  have hloop := upLoop_inv body
    (fun i (s' : Store T) => (∀ q, s'.view q =
        if a.data + idx ≤ q ∧ q < a.data + i then some (s.view (q + n)).join
        else if a.data + idx + n ≤ q ∧ q < a.data + i + n then
          (s.view q).map fun _ => none
        else s.view q) ∧
      s'.offset = s.offset) idx (a.size - n - idx) (s := s)
    ⟨fun q => by rw [if_neg (by omega), if_neg (by omega)], rfl⟩ ?_
  · rw [show idx + (a.size - n - idx) = a.size - n by omega] at hloop
    refine ⟨fun q => ?_, hloop.2⟩
    rw [hloop.1 q]
    by_cases hin : a.data + idx ≤ q ∧ q + n < a.data + a.size
    · rw [if_pos hin, if_pos (by omega)]
    · have hin₁ : ¬ (a.data + idx ≤ q ∧ q < a.data + (a.size - n)) := by omega
      rw [if_neg hin, if_neg hin₁]
      by_cases hin' : a.data + idx + n ≤ q ∧ q < a.data + a.size
      · rw [if_pos hin', if_pos (by omega)]
      · rw [if_neg hin', if_neg (by omega)]
  · intro i s' hlo hi hex
    obtain ⟨hview, hoff⟩ := hex
    have hsrc : s'.view (a.data + (i + n)) = s.view (a.data + (i + n)) := by
      rw [hview, if_neg (by omega), if_neg (by omega)]
    have hlive : ∀ q, s.Live q → s'.Live q := fun q hl => by
      rw [Store.Live, hview]
      split
      · rfl
      · split
        · rw [Option.isSome_map]
          exact hl
        · exact hl
    obtain ⟨hboff, hbview⟩ := hbody i s' hlo (by omega) hlive
    refine ⟨fun q => ?_, hboff.trans hoff⟩
    rw [hbview]
    by_cases hq : q = a.data + i
    · rw [if_pos hq, if_pos (by omega), hsrc, hq,
        show a.data + (i + n) = a.data + i + n by omega]
    · rw [if_neg hq, Store.view_drain, Src.moved]
      by_cases hp : q = a.data + (i + n)
      · rw [if_pos (by rw [hp]), hp, hsrc, if_neg (by omega), if_pos (by omega)]
      · rw [if_neg (by rw [Option.some.injEq]; omega), hview q]
        by_cases hin : a.data + idx ≤ q ∧ q < a.data + i
        · rw [if_pos hin, if_pos (by omega)]
        · have hin₁ : ¬ (a.data + idx ≤ q ∧ q < a.data + (i + 1)) := by omega
          rw [if_neg hin, if_neg hin₁]
          by_cases hin' : a.data + idx + n ≤ q ∧ q < a.data + i + n
          · rw [if_pos hin', if_pos (by omega)]
          · rw [if_neg hin', if_neg (by omega)]

/-- The loop of `erase`, over a gap. -/
theorem shiftDown_spec (s : Store T) (a : Arr) {idx n : Nat} (h0 : 0 < n)
    (hn : idx + n ≤ a.size) :
    (∀ q, (shiftDown s a idx n).view q =
      if a.data + idx ≤ q ∧ q + n < a.data + a.size then some (s.view (q + n)).join
      else if a.data + idx + n ≤ q ∧ q < a.data + a.size then
        (s.view q).map fun _ => none
      else s.view q) ∧
      (shiftDown s a idx n).offset = s.offset :=
  shiftLoop_spec s a hn _ fun _ _ _ _ _ => ⟨Store.offset_constructAt _ _ _,
    Store.view_constructAt_of_ne _ (Src.cell_move_ne (by omega))⟩

/-- The same loop where there is no gap: every element from `idx` on is
constructed from itself, and is left without a value. -/
theorem shiftDown_zero_spec (s : Store T) (a : Arr) {idx : Nat} (hidx : idx ≤ a.size) :
    (∀ q, (shiftDown s a idx 0).view q =
      if a.data + idx ≤ q ∧ q < a.data + a.size then some none else s.view q) ∧
      (shiftDown s a idx 0).offset = s.offset := by
  have hloop := upLoop_inv
    (fun i (s : Store T) => s.constructAt (a.data + i) (.move (a.data + (i + 0))))
    (fun i (s' : Store T) => (∀ q, s'.view q =
        if a.data + idx ≤ q ∧ q < a.data + i then some none else s.view q) ∧
      s'.offset = s.offset) idx (a.size - 0 - idx) (s := s)
    ⟨fun q => by rw [if_neg (by omega)], rfl⟩ ?_
  · rwa [show idx + (a.size - 0 - idx) = a.size by omega] at hloop
  · intro i s' hlo hi hex
    obtain ⟨hview, hoff⟩ := hex
    refine ⟨fun q => ?_, (Store.offset_constructAt _ _ _).trans hoff⟩
    rw [Store.view_constructAt, Nat.add_zero]
    by_cases hq : q = a.data + i
    · rw [if_pos hq, if_pos (show (Src.move (a.data + i)).cell = some (a.data + i) from rfl),
        if_pos (by omega)]
    · rw [if_neg hq, Store.view_drain, if_neg (Src.moved_move_ne (Ne.symm hq)), hview q]
      by_cases hin : a.data + idx ≤ q ∧ q < a.data + i
      · rw [if_pos hin, if_pos (by omega)]
      · rw [if_neg hin, if_neg (by omega)]

/-- A round over an empty gap constructs an object over itself. -/
theorem shiftDown_zero_faults {s : Store T} {a : Arr} {idx : Nat}
    (hidx : idx < a.size) (hlive : s.Live (a.data + idx)) :
    (shiftDown s a idx 0).faults ≠ [] := by
  rw [shiftDown, show a.size - 0 - idx = (a.size - idx - 1) + 1 by omega, upLoop]
  exact upLoop_inv _ (fun _ (s : Store T) => s.faults ≠ []) (idx + 1) _
    (Store.constructAt_faults_of_live hlive)
    fun i s _ _ h => Store.constructAt_faults_ne h _ _

end Ycetl.Ref.DynamicArray
