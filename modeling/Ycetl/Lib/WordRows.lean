import Mathlib.Data.Nat.Count
import Mathlib.Data.Finset.Card

/-!
# Bits in rows of words

A row of `w`-bit words is a long bit vector: bit `i` is bit `i % w` of word
`i / w`. Here are the facts a program that keeps such a row needs: what the
one-bit mask, the low mask and the shift select, that `x & (x - 1)` removes the
lowest bit that is set and nothing else, and that the bits of a row are counted
word by word.
-/

namespace Ycetl.Lib

variable {w : Nat}

/-- Bit `i` of the row; there is none past its end. -/
def rowBit (ws : List (BitVec w)) (i : Nat) : Bool :=
  match ws[i / w]? with
  | some x => x.getLsbD (i % w)
  | none => false

/-- How many bits of a word are set. -/
def popcount (x : BitVec w) : Nat := Nat.count (fun j => x.getLsbD j = true) w

/-! ## Masks -/

theorem getLsbD_bitMask {k j : Nat} (hk : k < w) :
    (1#w <<< k).getLsbD j = decide (j = k) := by
  rw [← BitVec.twoPow_eq, BitVec.getLsbD_twoPow]
  simp only [hk, decide_true, Bool.true_and]
  exact decide_eq_decide.mpr eq_comm

theorem getLsbD_lowMask {k j : Nat} (hk : k < w) :
    ((1#w <<< k) - 1#w).getLsbD j = decide (j < k) := by
  have hpow : 2 ^ k < 2 ^ w := Nat.pow_lt_pow_right (by omega) hk
  have hone : (1#w).toNat = 1 := by
    rw [BitVec.toNat_ofNat, Nat.mod_eq_of_lt (Nat.one_lt_two_pow (by omega))]
  have hmask : (1#w <<< k).toNat = 2 ^ k := by
    rw [← BitVec.twoPow_eq, BitVec.toNat_twoPow, Nat.mod_eq_of_lt hpow]
  have hle : (1#w).toNat ≤ (1#w <<< k).toNat := by
    rw [hone, hmask]
    exact Nat.one_le_two_pow
  rw [BitVec.getLsbD, BitVec.toNat_sub_of_le (BitVec.le_def.mpr hle), hmask, hone,
    Nat.testBit_two_pow_sub_one]

/-- `(x >> k) & 1` is bit `k`. -/
theorem shift_and_one (x : BitVec w) (k : Nat) :
    ((x >>> k &&& 1#w) != 0#w) = x.getLsbD k := by
  have hbit (j : Nat) : (x >>> k &&& 1#w).getLsbD j =
      (x.getLsbD (k + j) && (decide (0 < w) && decide (j = 0))) := by
    rw [BitVec.getLsbD_and, BitVec.getLsbD_ushiftRight, BitVec.getLsbD_one]
  cases hx : x.getLsbD k with
  | false =>
      rw [bne_eq_false_iff_eq]
      refine BitVec.eq_of_getLsbD_eq fun j _ => ?_
      rw [hbit, BitVec.getLsbD_zero]
      cases j with
      | zero => rw [Nat.add_zero, hx, Bool.false_and]
      | succ j => simp
  | true =>
      rw [bne_iff_ne]
      intro h
      have hw : 0 < w := by
        by_contra hw
        rw [BitVec.getLsbD_of_ge x k (by omega)] at hx
        cases hx
      have h₀ := hbit 0
      rw [h, BitVec.getLsbD_zero, Nat.add_zero, hx] at h₀
      simp [hw] at h₀

/-! ## The lowest bit that is set -/

theorem testBit_clear_lowest {n : Nat} (hn : n ≠ 0) :
    ∃ k, n.testBit k = true ∧
      ∀ j, (n &&& (n - 1)).testBit j = (n.testBit j && decide (j ≠ k)) := by
  induction n using Nat.strongRecOn with
  | _ n ih =>
  by_cases hodd : n % 2 = 1
  · -- An odd number loses its bit 0, and the rest is that of its half.
    refine ⟨0, by simp [Nat.testBit_zero, hodd], fun j => ?_⟩
    rw [Nat.testBit_and]
    cases j with
    | zero => simp [Nat.testBit_zero]; omega
    | succ j =>
        rw [Nat.testBit_succ, Nat.testBit_succ, show (n - 1) / 2 = n / 2 by omega]
        simp
  · obtain ⟨k, hk, hclear⟩ := ih (n / 2) (by omega) (by omega)
    refine ⟨k + 1, by rw [Nat.testBit_succ]; exact hk, fun j => ?_⟩
    rw [Nat.testBit_and]
    cases j with
    | zero => simp [Nat.testBit_zero, hodd]
    | succ j =>
        have := hclear j
        rw [Nat.testBit_and] at this
        rw [Nat.testBit_succ, Nat.testBit_succ, show (n - 1) / 2 = n / 2 - 1 by omega, this]
        simp

theorem clear_lowest {x : BitVec w} (hx : x ≠ 0) :
    ∃ k, k < w ∧ x.getLsbD k = true ∧
      ∀ j, (x &&& (x - 1)).getLsbD j = (x.getLsbD j && decide (j ≠ k)) := by
  have hpos : x.toNat ≠ 0 := fun h => hx (BitVec.eq_of_toNat_eq (by simpa using h))
  obtain ⟨k, hk, hclear⟩ := testBit_clear_lowest hpos
  have hkw : k < w := by
    by_contra hge
    have : x.getLsbD k = false := BitVec.getLsbD_of_ge x k (by omega)
    rw [BitVec.getLsbD, hk] at this
    cases this
  have hone : (1 : BitVec w).toNat = 1 := by
    change (1#w).toNat = 1
    rw [BitVec.toNat_ofNat, Nat.mod_eq_of_lt (Nat.one_lt_two_pow (by omega))]
  have hsub : (x - 1).toNat = x.toNat - 1 := by
    rw [BitVec.toNat_sub_of_le (BitVec.le_def.mpr (by rw [hone]; omega)), hone]
  refine ⟨k, hkw, hk, fun j => ?_⟩
  rw [BitVec.getLsbD, BitVec.toNat_and, hsub]
  exact hclear j

theorem clear_lowest_lt {x : BitVec w} (hx : x ≠ 0) : (x &&& (x - 1)).toNat < x.toNat := by
  obtain ⟨k, -, hk, hclear⟩ := clear_lowest hx
  have hle : (x &&& (x - 1)).toNat ≤ x.toNat := by
    rw [BitVec.toNat_and]
    exact Nat.and_le_left
  refine lt_of_le_of_ne hle fun heq => ?_
  have := hclear k
  rw [BitVec.eq_of_toNat_eq heq, hk] at this
  simp at this

/-- Removing the lowest set bit of a word takes one from its count. -/
theorem popcount_clear_lowest {x : BitVec w} (hx : x ≠ 0) :
    popcount x = popcount (x &&& (x - 1)) + 1 := by
  obtain ⟨k, hk, hset, hclear⟩ := clear_lowest hx
  rw [popcount, popcount, Nat.count_eq_card_filter_range, Nat.count_eq_card_filter_range]
  have herase : (Finset.range w).filter (fun j => (x &&& (x - 1)).getLsbD j = true) =
      ((Finset.range w).filter (fun j => x.getLsbD j = true)).erase k := by
    ext j
    simp only [Finset.mem_filter, Finset.mem_erase, hclear, Bool.and_eq_true,
      decide_eq_true_eq]
    tauto
  rw [herase, Finset.card_erase_add_one (Finset.mem_filter.mpr ⟨Finset.mem_range.mpr hk, hset⟩)]

theorem popcount_zero : popcount (0 : BitVec w) = 0 := by
  rw [popcount, Nat.count_eq_card_filter_range, Finset.card_eq_zero, Finset.filter_eq_empty_iff]
  intro j _
  simp

/-! ## Rows -/

theorem rowBit_eq {ws : List (BitVec w)} {i : Nat} {x : BitVec w} (h : ws[i / w]? = some x) :
    rowBit ws i = x.getLsbD (i % w) := by
  rw [rowBit, h]

theorem rowBit_of_ge {ws : List (BitVec w)} {i : Nat} (h : ws.length ≤ i / w) :
    rowBit ws i = false := by
  rw [rowBit, List.getElem?_eq_none h]

/-- Two positions of a row are one if their words and their places agree. -/
theorem position_eq {i j : Nat} (hdiv : i / w = j / w) (hmod : i % w = j % w) : i = j := by
  rw [← Nat.div_add_mod i w, ← Nat.div_add_mod j w, hdiv, hmod]

theorem foldl_popcount (ws : List (BitVec w)) (hw : 0 < w) (c : Nat) :
    ws.foldl (fun c x => c + popcount x) c =
      c + Nat.count (fun i => rowBit ws i = true) (w * ws.length) := by
  induction ws generalizing c with
  | nil => simp
  | cons x ws ih =>
      have hfirst : Nat.count (fun i => rowBit (x :: ws) i = true) w = popcount x := by
        rw [popcount, Nat.count_eq_card_filter_range, Nat.count_eq_card_filter_range]
        congr 1
        refine Finset.filter_congr fun j hj => ?_
        have hj := Finset.mem_range.mp hj
        rw [rowBit_eq (x := x) (by rw [Nat.div_eq_of_lt hj]; rfl), Nat.mod_eq_of_lt hj]
      have hrest : (fun i => rowBit (x :: ws) (w + i) = true) =
          fun i => rowBit ws i = true := by
        funext i
        rw [rowBit, rowBit, Nat.add_div_left i hw, Nat.add_mod_left]
        rfl
      rw [List.foldl_cons, ih, List.length_cons, Nat.mul_succ, Nat.add_comm (w * _) w,
        Nat.count_add, hfirst]
      simp only [hrest]
      omega

end Ycetl.Lib
