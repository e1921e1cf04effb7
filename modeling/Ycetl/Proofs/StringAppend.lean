import Ycetl.Lib.Runs
import Ycetl.Proofs.DynamicArrayWorld
import Ycetl.Ref.BasicString

/-!
# `basic_string::append`

One string appended to another pushes the characters of the second back one by
one. Each of them is read through a reference into the second buffer, after
the first string may have replaced its own; the two buffers do not meet, so
that what is pushed is the character that was there before the call, and after
as many rounds as there are characters the loop has ended.

A string appended to itself grows in every round by the character that the
bound of the loop would have to lose: the loop ends only if it does not start.
-/

namespace Ycetl.Ref.BasicString

open Ycetl.Lib DynamicArray DynamicArray.World

variable {CharT : Type} {w : Strings CharT} {i j : Nat}

/-! ## One character -/

/-- A push of a reference into another buffer puts behind the elements what it
refers to, also when the string has to grow. -/
theorem emplaceBack_foreign [Inhabited CharT] {s : Store CharT} {a : Arr} (h : Fits s a)
    (h0 : 0 < s.offset) {q : Nat} (hq : q < s.offset) (hown : ¬ Owns a q) :
    ∃ n, Result s a n (emplaceBack TypedDynamicMemory.allocate s a (.copy q)).1
      (emplaceBack TypedDynamicMemory.allocate s a (.copy q)).2
      (contents s a ++ [(s.view q).join]) := by
  have heq : ensureRoom TypedDynamicMemory.allocate s a =
      reserve TypedDynamicMemory.allocate s a (growTo a (.pushBack default)) :=
    ensureRoom_eq default
  obtain ⟨hres, hfit, -, hroom, -⟩ := reserve_ready (c := .pushBack default) h h0 trivial
    (granted_dynamic _ _) heq.symm
  rw [emplaceBack]
  generalize ensureRoom TypedDynamicMemory.allocate s a = r at hres hfit hroom
  obtain ⟨s₁, a₁⟩ := r
  dsimp only at hres hfit
  have hcap : a₁.size < a₁.capacity := hroom
  have hne : q ≠ a₁.data + a₁.size := by
    intro heq
    have howns : Owns a₁ q := ⟨by omega, by omega⟩
    rcases hres.owned howns with hold | hfresh
    · exact hown hold
    · exact Nat.not_lt.mpr hfresh hq
  have hlast := filled_inPlace hfit (Nat.le_succ a₁.size) hcap
    (Store.offset_constructAt s₁ (a₁.data + a₁.size) (.copy q)) fun r => by
      rw [view_construct_copy (.inl hne), hres.frame q hq hown]
      by_cases hr : r = a₁.data + a₁.size
      · rw [if_pos hr, if_pos (by omega)]
      · rw [if_neg hr, if_neg (by omega)]
  rw [Nat.succ_eq_add_one, Nat.add_sub_cancel_left, hres.contents_eq] at hlast
  exact ⟨_, hres.trans_inPlace hlast⟩

/-- String `i` after a push of character `k` of string `j`. -/
theorem push_spec [Inhabited CharT] (hp : Placed w) {a b : Arr} (hi : w.arrays i = some a)
    (hj : w.arrays j = some b) (hij : i ≠ j) {k : Nat} (hk : k < b.size) :
    ∃ w' a', w.put i (emplaceBack TypedDynamicMemory.allocate w.store a
        (.copy (b.data + k))) = w' ∧ Placed w' ∧ w'.arrays i = some a' ∧
      contents w'.store a' = contents w.store a ++ [(w.store.view (b.data + k)).join] ∧
      w'.arrays j = some b ∧ contents w'.store b = contents w.store b := by
  have howns : Owns b (b.data + k) :=
    (hp.fits j b hj).owns ⟨Nat.le_add_right _ _, Nat.add_lt_add_left hk _⟩
  obtain ⟨n, hr⟩ := emplaceBack_foreign (hp.fits i a hi) hp.offset_pos (hp.lt_offset hj howns)
    fun ho => hp.apart i j a b hi hj hij _ ho howns
  obtain ⟨hp', hkept⟩ := hp.put (current_of_some hi) hr
  have hji : j ∉ [i] := by simpa using hij.symm
  exact ⟨_, _, rfl, hp', put_arrays_self _, hr.contents_eq, (hkept j hji b hj).1,
    hkept.contents_eq hp hji hj⟩

/-! ## Two strings -/

/-- The loop from character `k` of another string on. -/
theorem appendLoop_spec [Inhabited CharT] (hij : i ≠ j) (fuel : Nat) {k : Nat} {a b : Arr}
    (hp : Placed w) (hi : w.arrays i = some a) (hj : w.arrays j = some b) (hk : k ≤ b.size)
    (hfuel : b.size - k < fuel) :
    ∃ w' a', appendLoop TypedDynamicMemory.allocate fuel w i j k = some w' ∧ Placed w' ∧
      w'.arrays i = some a' ∧
      contents w'.store a' = contents w.store a ++ (contents w.store b).drop k ∧
      w'.arrays j = some b ∧ contents w'.store b = contents w.store b := by
  induction fuel generalizing w k a with
  | zero => exact absurd hfuel (Nat.not_lt_zero _)
  | succ fuel ih =>
      rw [appendLoop, hj, Option.bind_eq_bind, Option.bind_some]
      split
      · next hlt =>
        obtain ⟨w₁, a₁, hw₁, hp₁, hi₁, hca₁, hj₁, hcb₁⟩ := push_spec hp hi hj hij hlt
        obtain ⟨w', a', hw', hp', hi', hca', hj', hcb'⟩ := ih hp₁ hi₁ hj₁ hlt (by omega)
        rw [hi, Option.bind_some, hw₁]
        refine ⟨w', a', hw', hp', hi', ?_, hj', hcb'.trans hcb₁⟩
        have hget := contents_get (s := w.store) hlt
        obtain ⟨_, hx⟩ := List.getElem?_eq_some_iff.mp hget
        rw [hca', hca₁, hcb₁, List.append_assoc, List.singleton_append, ← hx,
          List.getElem_cons_drop]
      · next hge =>
        refine ⟨w, a, rfl, hp, hi, ?_, hj, rfl⟩
        rw [List.drop_eq_nil_of_le (by rw [length_contents]; omega), List.append_nil]

/-! ## One string -/

theorem size_reserve (alloc : Allocate) (s : Store CharT) (a : Arr) (n : Nat) :
    (reserve alloc s a n).2.size = a.size := by
  rw [reserve]
  split
  · rfl
  · rfl

theorem size_emplaceBack (alloc : Allocate) (s : Store CharT) (a : Arr) (src : Src CharT) :
    (emplaceBack alloc s a src).2.size = a.size + 1 := by
  have hroom : (ensureRoom alloc s a).2.size = a.size := by
    rw [ensureRoom]
    split
    · exact size_reserve alloc s a _
    · rfl
  rw [← hroom]
  rfl

/-- A loop over a string that it appends to has a character left in every
round. -/
theorem appendLoop_self (alloc : Allocate) (fuel : Nat) {k : Nat} {a : Arr}
    (ha : w.arrays i = some a) (hk : k < a.size) : appendLoop alloc fuel w i i k = none := by
  induction fuel generalizing w k a with
  | zero => rfl
  | succ fuel ih =>
      rw [appendLoop, ha, Option.bind_eq_bind, Option.bind_some, if_pos hk]
      refine ih (put_arrays_self _) ?_
      rw [size_emplaceBack]
      omega

/-! ## Programs -/

/-- The call ends; string `i` then has its old characters and after them those
that string `j` had, and another string is as it was. -/
def AppendsExactly (f : Nat → Strings CharT → Nat → Nat → Option (Strings CharT))
    (w : Strings CharT) (i j : Nat) : Prop :=
  ∀ a b, w.arrays i = some a → w.arrays j = some b →
    ∃ fuel w' a', f fuel w i j = some w' ∧ w'.arrays i = some a' ∧
      contents w'.store a' = contents w.store a ++ contents w.store b ∧
      (i ≠ j → ∃ b', w'.arrays j = some b' ∧ contents w'.store b' = contents w.store b)

/-- The two strings of an `append` that ended. -/
theorem append_spec [Inhabited CharT] (hp : Placed w) (hij : i ≠ j) {a b : Arr}
    (hi : w.arrays i = some a) (hj : w.arrays j = some b) {fuel : Nat} (hfuel : b.size < fuel) :
    ∃ w' a', append TypedDynamicMemory.allocate fuel w i j = some w' ∧ Placed w' ∧
      w'.arrays i = some a' ∧ contents w'.store a' = contents w.store a ++ contents w.store b ∧
      w'.arrays j = some b ∧ contents w'.store b = contents w.store b := by
  rw [append, hi, Option.bind_eq_bind, Option.bind_some]
  exact appendLoop_spec hij fuel hp hi hj (Nat.zero_le _) hfuel

theorem append_self_empty (alloc : Allocate) {a : Arr} (ha : w.arrays i = some a)
    (h0 : a.size = 0) : append alloc 1 w i i = some w := by
  rw [append, ha, Option.bind_eq_bind, Option.bind_some, appendLoop, ha, Option.bind_eq_bind,
    Option.bind_some, if_neg (by omega)]
  rfl

theorem append_self_none (alloc : Allocate) (fuel : Nat) {a : Arr} (ha : w.arrays i = some a)
    (h0 : 0 < a.size) : append alloc fuel w i i = none := by
  rw [append, ha, Option.bind_eq_bind, Option.bind_some, appendLoop_self alloc fuel ha h0]

/-- A call of a string program leaves its strings placed. -/
theorem step_keeps_placed [Inhabited CharT] (hp : Placed w) {op : Op CharT} {w' : Strings CharT}
    (hstep : step TypedDynamicMemory.allocate w op = some w') : Placed w' := by
  have happend {i j : Nat}
      (ha : append TypedDynamicMemory.allocate (rounds w j) w i j = some w') : Placed w' := by
    have hi : ∃ a, w.arrays i = some a := by
      rw [append, Option.bind_eq_bind] at ha
      obtain ⟨a, hi, -⟩ := Option.bind_eq_some_iff.mp ha
      exact ⟨a, hi⟩
    obtain ⟨a, hi⟩ := hi
    cases hj : w.arrays j with
    | none =>
        rw [append, hi, rounds, hj] at ha
        cases ha
    | some b =>
        have hrounds : rounds w j = b.size + 1 := by rw [rounds, hj]
        by_cases hij : i = j
        · subst hij
          rcases Nat.eq_zero_or_pos b.size with h0 | hpos
          · rw [hrounds, h0, append_self_empty _ hj h0, Option.some.injEq] at ha
            exact ha ▸ hp
          · rw [append_self_none _ _ hj hpos] at ha
            cases ha
        · obtain ⟨w₁, -, hw₁, hp₁, -⟩ := append_spec hp hij hi hj
            (hrounds.symm ▸ Nat.lt_succ_self b.size : b.size < rounds w j)
          rw [hw₁, Option.some.injEq] at ha
          exact ha ▸ hp₁
  cases op with
  | array op => exact (step_placed hp (granted_dynamic _ _) hstep).1
  | append i j => exact happend hstep
  | plusAssign i j => exact happend hstep

theorem contents_of_empty {s : Store CharT} {a : Arr} (h0 : a.size = 0) : contents s a = [] :=
  List.length_eq_zero_iff.mp (by rw [length_contents, h0])

theorem appendsExactly_iff [Inhabited CharT] (hp : Placed w) {a b : Arr} (hi : w.arrays i = some a)
    (hj : w.arrays j = some b) :
    AppendsExactly (append TypedDynamicMemory.allocate) w i j ↔ i ≠ j ∨ a.size = 0 := by
  constructor
  · intro hexact
    by_contra hcond
    obtain ⟨hij, hpos⟩ := not_or.mp hcond
    have hij := not_not.mp hij
    subst hij
    obtain ⟨fuel, w', a', hrun, -⟩ := hexact a b hi hj
    rw [append_self_none _ fuel hi (by omega)] at hrun
    cases hrun
  · intro hcond a₁ b₁ hi₁ hj₁
    rw [hi, Option.some.injEq] at hi₁
    rw [hj, Option.some.injEq] at hj₁
    subst hi₁
    subst hj₁
    by_cases hij : i = j
    · subst hij
      have h0 : a.size = 0 := hcond.resolve_left (not_not.mpr rfl)
      rw [hi, Option.some.injEq] at hj
      subst hj
      refine ⟨1, w, a, append_self_empty _ hi h0, hi, ?_, fun hne => absurd rfl hne⟩
      rw [contents_of_empty h0]
      rfl
    · obtain ⟨w', a', hrun, -, ha', hca, hb', hcb⟩ :=
        append_spec hp hij hi hj (Nat.lt_succ_self b.size)
      exact ⟨b.size.succ, w', a', hrun, ha', hca, fun _ => ⟨b, hb', hcb⟩⟩

/-- In every state of every string program, `append` and `+=` end with the two
contents side by side exactly if the strings are two or the string is empty. -/
theorem append_exact_iff [Inhabited CharT] {ops : List (Op CharT)} {w : Strings CharT}
    (hrun : runFrom (step TypedDynamicMemory.allocate) DynamicArray.World.initial ops = some w)
    {i j : Nat} {a b : Arr} (hi : w.arrays i = some a) (hj : w.arrays j = some b) :
    (AppendsExactly (append TypedDynamicMemory.allocate) w i j ↔ i ≠ j ∨ a.size = 0) ∧
      (AppendsExactly (plusAssign TypedDynamicMemory.allocate) w i j ↔ i ≠ j ∨ a.size = 0) := by
  have hp := runFrom_inv (fun _ _ _ hp hstep => step_keeps_placed hp hstep) placed_initial hrun
  exact ⟨appendsExactly_iff hp hi hj, appendsExactly_iff hp hi hj⟩

/-- Two strings of which the first has been appended to and has grown. -/
theorem append_exact_two_strings :
    ∃ (w : Strings Nat) (a b : Arr),
      runFrom (step TypedDynamicMemory.allocate) DynamicArray.World.initial
        [.array (.construct 0 (.range [97, 98])), .array (.construct 1 (.range [99])),
          .append 0 1, .plusAssign 0 1] = some w ∧
      w.arrays 0 = some a ∧ w.arrays 1 = some b ∧
      (AppendsExactly (append TypedDynamicMemory.allocate) w 0 1 ↔ 0 ≠ 1 ∨ a.size = 0) ∧
      (AppendsExactly (plusAssign TypedDynamicMemory.allocate) w 0 1 ↔ 0 ≠ 1 ∨ a.size = 0) :=
  have hrun : runFrom (step TypedDynamicMemory.allocate) DynamicArray.World.initial
      [.array (.construct 0 (.range [97, 98])), .array (.construct 1 (.range [99])),
        .append 0 1, .plusAssign 0 1] = some _ := rfl
  ⟨_, _, _, rfl, rfl, rfl, append_exact_iff (i := 0) (j := 1) hrun rfl rfl⟩

/-- `s.append(s)` on a string of one character: no number of rounds is
enough. -/
theorem append_self_diverges :
    ∃ w : Strings Nat,
      runFrom (step TypedDynamicMemory.allocate) DynamicArray.World.initial
        [.array (.construct 0 (.range [97]))] = some w ∧
      (∀ fuel, append TypedDynamicMemory.allocate fuel w 0 0 = none) ∧
      ¬ AppendsExactly (append TypedDynamicMemory.allocate) w 0 0 ∧
      ¬ AppendsExactly (plusAssign TypedDynamicMemory.allocate) w 0 0 := by
  refine ⟨_, rfl, fun fuel => append_self_none _ fuel rfl (by decide), fun hexact => ?_,
    fun hexact => ?_⟩
  · obtain ⟨fuel, w', a', hrun, -⟩ := hexact _ _ rfl rfl
    rw [append_self_none _ fuel rfl (by decide)] at hrun
    cases hrun
  · obtain ⟨fuel, w', a', hrun, -⟩ := hexact _ _ rfl rfl
    rw [plusAssign, append_self_none _ fuel rfl (by decide)] at hrun
    cases hrun

end Ycetl.Ref.BasicString
