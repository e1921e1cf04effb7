import Ycetl.Ref.Bitset

/-!
# The bits of a `bitset`

Every operation is described by what it does to each bit of the storage, legal
or not. The bits from `N` on are don't-care bits; `clear_tail` is what removes
them, and it does so whenever the number of words was computed without a wrap
and there is a last word.
-/

namespace Ycetl.Ref.Bitset

open Ycetl.Lib

variable {N : UInt64}

/-- Rounding `N` up to whole words stays inside `size_type`. -/
def Sized (N : UInt64) : Prop := N.toNat + 63 < 2 ^ 64

theorem toNat_wordCount (N : UInt64) :
    (wordCount N).toNat = (N.toNat + 63) % 2 ^ 64 / 64 := by
  rw [wordCount, UInt64.toNat_div, UInt64.toNat_sub, UInt64.toNat_add]
  change (2 ^ 64 - 1 + (N.toNat + 64) % 2 ^ 64) % 2 ^ 64 / 64 = _
  omega

theorem Sized.toNat_wordCount (h : Sized N) : (wordCount N).toNat = (N.toNat + 63) / 64 := by
  rw [Bitset.toNat_wordCount, Nat.mod_eq_of_lt h]

theorem wordCount_eq_zero_iff : wordCount N = 0 ↔ (wordCount N).toNat = 0 := by
  rw [← UInt64.toNat_inj, UInt64.toNat_zero]

theorem Sized.storageCount (h : Sized N) :
    storageCount N = if N.toNat = 0 then 1 else (N.toNat + 63) / 64 := by
  rw [Bitset.storageCount, h.toNat_wordCount]
  refine if_congr ?_ rfl rfl
  rw [wordCount_eq_zero_iff, h.toNat_wordCount]
  omega

/-- A size that wraps has one word of storage. -/
theorem storageCount_of_wrap (h : ¬ Sized N) : storageCount N = 1 := by
  have hlt := N.toNat_lt
  rw [Bitset.storageCount, if_pos]
  rw [wordCount_eq_zero_iff, toNat_wordCount]
  rw [Sized] at h
  omega

/-- A legal bit is in the storage. -/
theorem Sized.div_lt (h : Sized N) {i : Nat} (hi : i < N.toNat) :
    i / 64 < Bitset.storageCount N := by
  rw [h.storageCount, if_neg (by omega)]
  omega

/-! ## Bits of the storage -/

/-- Bit `i` of the storage. -/
def bit (b : Bitset N) (i : Nat) : Bool := rowBit b.words i

theorem bit_of_word {b : Bitset N} {i : Nat} {x : BitVec 64} (h : b.words[i / 64]? = some x) :
    b.bit i = x.getLsbD (i % 64) :=
  rowBit_eq h

theorem bit_of_ge (b : Bitset N) {i : Nat} (h : storageCount N ≤ i / 64) : b.bit i = false :=
  rowBit_of_ge (by rw [b.length_words]; exact h)

theorem word_of_lt (b : Bitset N) {k : Nat} (h : k < storageCount N) :
    ∃ x, b.words[k]? = some x :=
  ⟨_, List.getElem?_eq_getElem (by rw [b.length_words]; exact h)⟩

theorem test_of_lt (b : Bitset N) {i : Nat} (h : i / 64 < storageCount N) :
    b.test i = some (b.bit i) := by
  obtain ⟨x, hx⟩ := b.word_of_lt h
  rw [test, hx, Option.map_some, shift_and_one, bit_of_word hx]

theorem test_of_ge (b : Bitset N) {i : Nat} (h : storageCount N ≤ i / 64) : b.test i = none := by
  rw [test, List.getElem?_eq_none (by rw [b.length_words]; exact h), Option.map_none]

/-! ## One word, every word, two words -/

/-- A change of one word that acts on its bits one by one. -/
theorem bit_modify {b b' : Bitset N} {k : Nat} {f : BitVec 64 → BitVec 64}
    {g : Nat → Bool → Bool} (hf : ∀ x j, j < 64 → (f x).getLsbD j = g j (x.getLsbD j))
    (h : b'.words = b.words.modify k f) {i : Nat} (hi : i / 64 < storageCount N) :
    b'.bit i = if i / 64 = k then g (i % 64) (b.bit i) else b.bit i := by
  obtain ⟨x, hx⟩ := b.word_of_lt hi
  have hx' : b'.words[i / 64]? = some (if k = i / 64 then f x else x) := by
    rw [h, List.getElem?_modify, hx]
    rfl
  rw [bit_of_word hx', bit_of_word hx]
  by_cases hk : i / 64 = k
  · rw [if_pos hk, if_pos hk.symm, hf _ _ (Nat.mod_lt _ (by omega))]
  · rw [if_neg hk, if_neg fun h => hk h.symm]

theorem bit_mapWords (b : Bitset N) {f : BitVec 64 → BitVec 64} {g : Bool → Bool}
    (hf : ∀ x j, j < 64 → (f x).getLsbD j = g (x.getLsbD j)) {i : Nat}
    (hi : i / 64 < storageCount N) : (b.mapWords f).bit i = g (b.bit i) := by
  obtain ⟨x, hx⟩ := b.word_of_lt hi
  have hx' : (b.mapWords f).words[i / 64]? = some (f x) := by
    rw [mapWords, List.getElem?_map, hx, Option.map_some]
  rw [bit_of_word hx', bit_of_word hx, hf _ _ (Nat.mod_lt _ (by omega))]

theorem bit_zipWords (a b : Bitset N) {f : BitVec 64 → BitVec 64 → BitVec 64}
    {g : Bool → Bool → Bool} (hg : g false false = false)
    (hf : ∀ x y j, (f x y).getLsbD j = g (x.getLsbD j) (y.getLsbD j)) (i : Nat) :
    (a.zipWords b f).bit i = g (a.bit i) (b.bit i) := by
  by_cases hi : i / 64 < storageCount N
  · obtain ⟨x, hx⟩ := a.word_of_lt hi
    obtain ⟨y, hy⟩ := b.word_of_lt hi
    have hxy : (a.zipWords b f).words[i / 64]? = some (f x y) := by
      rw [zipWords, List.getElem?_zipWith, hx, hy]
    rw [bit_of_word hxy, bit_of_word hx, bit_of_word hy, hf]
  · rw [bit_of_ge _ (by omega), bit_of_ge _ (by omega), bit_of_ge _ (by omega), hg]

/-- A change of one bit, made in its word. -/
theorem bit_modifyBit {b b' : Bitset N} {j : Nat} {f : BitVec 64 → BitVec 64} {g : Bool → Bool}
    (hf : ∀ x p, p < 64 → (f x).getLsbD p =
      if p = j % 64 then g (x.getLsbD p) else x.getLsbD p)
    (h : modifyWord b (j / 64) f = some b') (i : Nat) :
    b'.bit i = if i = j then g (b.bit i) else b.bit i := by
  rw [modifyWord] at h
  split at h
  case isFalse => cases h
  next hj =>
  cases h
  by_cases hi : storageCount N ≤ i / 64
  · rw [bit_of_ge _ hi, bit_of_ge _ hi, if_neg (by rintro rfl; omega)]
  rw [bit_modify (g := fun p old => if p = j % 64 then g old else old) hf rfl (by omega)]
  by_cases hij : i = j
  · rw [if_pos (by rw [hij]), if_pos (by rw [hij]), if_pos hij]
  · rw [if_neg hij]
    split
    · next hdiv => rw [if_neg fun hmod => hij (position_eq hdiv hmod)]
    · rfl

theorem modifyWord_isSome (b : Bitset N) {k : Nat} (hk : k < storageCount N)
    (f : BitVec 64 → BitVec 64) : ∃ b', modifyWord b k f = some b' := by
  exact ⟨_, by rw [modifyWord, if_pos hk]⟩

/-! ## The tail -/

theorem getLsbD_tailMask (h : Sized N) (hN : N ≠ 0) {i : Nat}
    (hi : i / 64 = (wordCount N).toNat - 1) :
    (tailMask N).getLsbD (i % 64) = decide (i < N.toNat) := by
  have hpos : N.toNat ≠ 0 := fun h₀ => hN (UInt64.toNat_inj.mp h₀)
  have hmod : N % bitsPerWord = 0 ↔ N.toNat % 64 = 0 := by
    rw [← UInt64.toNat_inj, UInt64.toNat_mod]
    rfl
  rw [h.toNat_wordCount] at hi
  rw [tailMask]
  split
  · next hfull =>
    have hfull := hmod.mp (hfull.resolve_left hN)
    rw [BitVec.getLsbD_not, BitVec.getLsbD_zero, decide_eq_true (by omega : i % 64 < 64),
      decide_eq_true (by omega : i < N.toNat)]
    rfl
  · next hpart =>
    rw [not_or, hmod] at hpart
    rw [getLsbD_lowMask (by omega)]
    exact decide_eq_decide.mpr (by omega)

/-- `clear_tail` keeps the legal bits and removes the others. -/
theorem bit_clearTail (h : Sized N) (hN : N ≠ 0) (b : Bitset N) (i : Nat) :
    b.clearTail.bit i = (b.bit i && decide (i < N.toNat)) := by
  have hpos : N.toNat ≠ 0 := fun h₀ => hN (UInt64.toNat_inj.mp h₀)
  have hwc := h.toNat_wordCount
  have hne : wordCount N ≠ 0 := by
    rw [Ne, wordCount_eq_zero_iff]
    omega
  have hstore : storageCount N = (wordCount N).toNat := by rw [storageCount, if_neg hne]
  by_cases hi : storageCount N ≤ i / 64
  · rw [bit_of_ge _ hi, bit_of_ge _ hi, Bool.false_and]
  have hwords : b.clearTail.words =
      b.words.modify ((wordCount N).toNat - 1) (· &&& tailMask N) := by
    rw [clearTail, if_pos hne]
  rw [bit_modify (g := fun p old => old && (tailMask N).getLsbD p)
    (fun _ _ _ => BitVec.getLsbD_and) hwords (by omega)]
  split
  · next hlast => rw [getLsbD_tailMask h hN hlast]
  · rw [decide_eq_true (by omega : i < N.toNat), Bool.and_true]

theorem bit_clearTail_of_lt (h : Sized N) (b : Bitset N) {i : Nat} (hi : i < N.toNat) :
    b.clearTail.bit i = b.bit i := by
  have hN : N ≠ 0 := by
    rintro rfl
    simp at hi
  rw [bit_clearTail h hN, decide_eq_true hi, Bool.and_true]

theorem clearTail_zero (b : Bitset N) (hN : N = 0) : b.clearTail = b := by
  subst hN
  rfl

/-! ## The operations -/

theorem bit_empty (i : Nat) : (empty : Bitset N).bit i = false := by
  by_cases hi : i / 64 < storageCount N
  · have hx : (empty : Bitset N).words[i / 64]? = some 0#64 := by
      rw [empty, List.getElem?_replicate, if_pos hi]
    rw [bit_of_word hx, BitVec.getLsbD_zero]
  · exact bit_of_ge _ (by omega)

theorem bit_set {b b' : Bitset N} {j : Nat} {v : Bool} (h : b.set j v = some b') (i : Nat) :
    b'.bit i = if i = j then v else b.bit i := by
  rw [Bitset.set] at h
  refine bit_modifyBit (g := fun _ => v) (fun x p _ => ?_) h i
  have hj : j % 64 < 64 := Nat.mod_lt _ (by omega)
  cases v with
  | true =>
      rw [if_pos rfl, BitVec.getLsbD_or, getLsbD_bitMask hj]
      split <;> simp [*]
  | false =>
      rw [if_neg Bool.false_ne_true, BitVec.getLsbD_and, BitVec.getLsbD_not, getLsbD_bitMask hj]
      split <;> simp [*]

theorem bit_flip {b b' : Bitset N} {j : Nat} (h : b.flip j = some b') (i : Nat) :
    b'.bit i = if i = j then !b.bit i else b.bit i := by
  rw [Bitset.flip] at h
  refine bit_modifyBit (g := Bool.not) (fun x p _ => ?_) h i
  rw [BitVec.getLsbD_xor, getLsbD_bitMask (Nat.mod_lt _ (by omega))]
  split <;> simp [*]

theorem bit_resetAll (b : Bitset N) (i : Nat) : b.resetAll.bit i = false := by
  by_cases hi : i / 64 < storageCount N
  · exact bit_mapWords b (g := fun _ => false) (fun _ _ _ => BitVec.getLsbD_zero) hi
  · exact bit_of_ge _ (by omega)

/-- Every bit of the storage is set, before the tail is cleared. -/
theorem bit_mapWords_ones (b : Bitset N) {i : Nat} (hi : i / 64 < storageCount N) :
    (b.mapWords fun _ => ~~~0#64).bit i = true :=
  bit_mapWords b (g := fun _ => true) (fun _ j hj => by
    rw [BitVec.getLsbD_not, BitVec.getLsbD_zero, decide_eq_true hj]
    rfl) hi

theorem bit_mapWords_not (b : Bitset N) {i : Nat} (hi : i / 64 < storageCount N) :
    (b.mapWords fun w => ~~~w).bit i = !b.bit i :=
  bit_mapWords b (g := Bool.not) (fun _ j hj => by
    rw [BitVec.getLsbD_not, decide_eq_true hj, Bool.true_and]) hi

theorem bit_zipWords_xor (a b : Bitset N) (i : Nat) :
    (a.zipWords b (· ^^^ ·)).bit i = (a.bit i ^^ b.bit i) :=
  bit_zipWords a b rfl (fun _ _ _ => BitVec.getLsbD_xor) i

/-- The word of `bitset(v)` before the tail is cleared. -/
theorem bit_set_zero {b : Bitset N} {v : BitVec 64}
    (h : b.words = (empty : Bitset N).words.set 0 v) (i : Nat) : b.bit i = v.getLsbD i := by
  by_cases hi : i / 64 < storageCount N
  · have hx : b.words[i / 64]? = some (if 0 = i / 64 then v else 0#64) := by
      rw [h, List.getElem?_set, empty, List.length_replicate, List.getElem?_replicate, if_pos hi]
      split
      · rw [if_pos (by omega)]
      · rfl
    rw [bit_of_word hx]
    split
    · rw [Nat.mod_eq_of_lt (by omega)]
    · rw [BitVec.getLsbD_zero, BitVec.getLsbD_of_ge v i (by omega)]
  · have := storageCount_pos N
    rw [bit_of_ge _ (by omega), BitVec.getLsbD_of_ge v i (by omega)]

theorem bit_andAssign (a b : Bitset N) (i : Nat) :
    (a.andAssign b).bit i = (a.bit i && b.bit i) :=
  bit_zipWords a b rfl (fun _ _ _ => BitVec.getLsbD_and) i

theorem bit_orAssign (a b : Bitset N) (i : Nat) :
    (a.orAssign b).bit i = (a.bit i || b.bit i) :=
  bit_zipWords a b rfl (fun _ _ _ => BitVec.getLsbD_or) i

/-! ## Legal bits -/

section

variable (h : Sized N) {i : Nat} (hi : i < N.toNat)

include h hi

theorem test_eq (b : Bitset N) : b.test i = some (b.bit i) := test_of_lt b (h.div_lt hi)

theorem bit_setAll (b : Bitset N) : b.setAll.bit i = true := by
  rw [setAll, bit_clearTail_of_lt h _ hi, bit_mapWords_ones b (h.div_lt hi)]

theorem bit_flipAll (b : Bitset N) : b.flipAll.bit i = !b.bit i := by
  rw [flipAll, bit_clearTail_of_lt h _ hi, bit_mapWords_not b (h.div_lt hi)]

theorem bit_xorAssign (a b : Bitset N) : (a.xorAssign b).bit i = (a.bit i ^^ b.bit i) := by
  rw [xorAssign, bit_clearTail_of_lt h _ hi, bit_zipWords_xor]

theorem bit_ofWord (v : BitVec 64) : (ofWord v : Bitset N).bit i = v.getLsbD i := by
  have hne : wordCount N ≠ 0 := by
    rw [Ne, wordCount_eq_zero_iff, h.toNat_wordCount]
    omega
  rw [ofWord, bit_clearTail_of_lt h _ hi, if_pos hne]
  exact bit_set_zero rfl i

end

theorem set_isSome (h : Sized N) {j : Nat} (hj : j < N.toNat) (b : Bitset N) (v : Bool) :
    ∃ b', b.set j v = some b' := by
  rw [Bitset.set]
  exact modifyWord_isSome b (h.div_lt hj) _

theorem flip_isSome (h : Sized N) {j : Nat} (hj : j < N.toNat) (b : Bitset N) :
    ∃ b', b.flip j = some b' := by
  rw [Bitset.flip]
  exact modifyWord_isSome b (h.div_lt hj) _

end Ycetl.Ref.Bitset
