import Mathlib.Data.BitVec
import Mathlib.Data.Fintype.EquivFin
import Mathlib.Data.Nat.ModEq
import Mathlib.Data.Nat.Prime.Basic
import Mathlib.Tactic.Ring

/-!
# Mixing steps of a machine word

An integer hash is a chain of steps on a `w`-bit word, and it loses nothing
when each of its steps can be undone. Two kinds of step are enough for the
hashes in use. One is `x ↦ x * c + d` with an odd `c`, which is what a sum of
a word and some of its left shifts comes to; it can be undone because an odd
number is coprime to `2 ^ w`. The other is `x ↦ x ^ (x >> k)` with a positive
`k`. Done twice it is the same step with twice the shift, and a shift by `w`
or more leaves nothing to add, so enough doublings lead back to the start.
-/

namespace Ycetl.Lib

variable {w : Nat}

/-! ## The step that multiplies -/

theorem coprime_two_pow_of_odd {c : Nat} (hc : c % 2 = 1) : Nat.gcd (2 ^ w) c = 1 := by
  have htwo : Nat.Coprime 2 c := Nat.coprime_two_left.mpr (Nat.odd_iff.mpr hc)
  exact htwo.pow_left w

theorem injective_mul_odd {c : BitVec w} (hc : c.toNat % 2 = 1) :
    Function.Injective fun x : BitVec w => x * c := by
  intro x y h
  have hmod : x.toNat * c.toNat ≡ y.toNat * c.toNat [MOD 2 ^ w] := by
    have heq := congrArg BitVec.toNat h
    rw [BitVec.toNat_mul, BitVec.toNat_mul] at heq
    exact heq
  have hxy : x.toNat ≡ y.toNat [MOD 2 ^ w] :=
    Nat.ModEq.cancel_right_of_coprime (coprime_two_pow_of_odd hc) hmod
  exact BitVec.eq_of_toNat_eq (hxy.eq_of_lt_of_lt x.isLt y.isLt)

instance finiteWord : Finite (BitVec w) := Finite.of_equiv _ BitVec.equivFin.toEquiv.symm

/-- There are finitely many words, so a step that keeps them apart reaches all. -/
theorem bijective_affine {c : BitVec w} (hc : c.toNat % 2 = 1) (d : BitVec w) :
    Function.Bijective fun x : BitVec w => x * c + d := by
  refine Finite.injective_iff_bijective.mp fun x y h => ?_
  exact injective_mul_odd hc ((BitVec.add_left_inj d).mp h)

/-! ### Shifted sums as products -/

theorem add_shiftLeft (x : BitVec w) (k : Nat) :
    x + x <<< k = x * (1#w + BitVec.twoPow w k) := by
  rw [BitVec.shiftLeft_eq_mul_twoPow, BitVec.mul_add, BitVec.mul_one]

theorem add_shiftLeft_add_shiftLeft (x : BitVec w) (j k : Nat) :
    x + x <<< j + x <<< k = x * (1#w + BitVec.twoPow w j + BitVec.twoPow w k) := by
  rw [add_shiftLeft, BitVec.shiftLeft_eq_mul_twoPow, ← BitVec.mul_add]

/-- The complement subtracts the word once and one more. -/
theorem not_add_shiftLeft (x : BitVec w) (k : Nat) :
    ~~~x + x <<< k = x * (BitVec.twoPow w k - 1#w) + -1#w := by
  have hone : (1#w : BitVec w) = 1 := rfl
  rw [BitVec.not_eq_neg_add, BitVec.shiftLeft_eq_mul_twoPow, hone]
  ring

/-! ## The step that shifts right -/

def xorShift (k : Nat) (x : BitVec w) : BitVec w := x ^^^ x >>> k

theorem xorShift_xorShift (k : Nat) (x : BitVec w) :
    xorShift k (xorShift k x) = xorShift (k + k) x := by
  calc xorShift k (xorShift k x)
      = x ^^^ x >>> k ^^^ (x >>> k ^^^ x >>> (k + k)) := by
        rw [xorShift, xorShift, BitVec.ushiftRight_xor_distrib, BitVec.shiftRight_add]
    _ = x ^^^ (x >>> k ^^^ x >>> k) ^^^ x >>> (k + k) := by
        simp only [BitVec.xor_assoc]
    _ = xorShift (k + k) x := by
        rw [BitVec.xor_self, BitVec.xor_zero, xorShift]

theorem xorShift_of_le {k : Nat} (hk : w ≤ k) (x : BitVec w) : xorShift k x = x := by
  rw [xorShift, BitVec.ushiftRight_eq_zero hk, BitVec.xor_zero]

/-- The induction is on how far the shift is from the width: the step with
twice the shift is this step done twice. -/
theorem bijective_xorShift {k : Nat} (hk : 0 < k) :
    Function.Bijective (xorShift k : BitVec w → BitVec w) := by
  induction hd : w - k using Nat.strongRecOn generalizing k with
  | _ d ih =>
  by_cases hw : w ≤ k
  · have hid : (xorShift k : BitVec w → BitVec w) = id :=
      funext fun x => xorShift_of_le hw x
    rw [hid]
    exact Function.bijective_id
  · have htwice : Function.Bijective (xorShift (k + k) : BitVec w → BitVec w) :=
      ih (w - (k + k)) (by omega) (by omega) rfl
    have hcomp : (xorShift k : BitVec w → BitVec w) ∘ xorShift k = xorShift (k + k) :=
      funext fun x => xorShift_xorShift k x
    rw [← hcomp] at htwice
    exact ⟨htwice.injective.of_comp, htwice.surjective.of_comp⟩

/-! ## Chains of steps -/

/-- A step that can be undone. -/
inductive Mixer (w : Nat) where
  | affine (c d : BitVec w) (odd : c.toNat % 2 = 1)
  | xorShift (k : Nat) (pos : 0 < k)

def Mixer.apply : Mixer w → BitVec w → BitVec w
  | .affine c d _, x => x * c + d
  | .xorShift k _, x => Lib.xorShift k x

/-- The steps of a hash, one after the other. -/
def mix (ms : List (Mixer w)) (x : BitVec w) : BitVec w :=
  ms.foldl (fun x m => m.apply x) x

@[simp] theorem mix_nil (x : BitVec w) : mix [] x = x := rfl

@[simp] theorem mix_cons (m : Mixer w) (ms : List (Mixer w)) (x : BitVec w) :
    mix (m :: ms) x = mix ms (m.apply x) := rfl

theorem Mixer.bijective (m : Mixer w) : Function.Bijective m.apply := by
  cases m with
  | affine c d odd => exact bijective_affine odd d
  | xorShift k pos => exact bijective_xorShift pos

theorem bijective_mix (ms : List (Mixer w)) : Function.Bijective (mix ms) := by
  induction ms with
  | nil => exact Function.bijective_id
  | cons m ms ih => exact ih.comp m.bijective

/-! ## Hashes of sequences -/

/-- What a step for each element keeps apart, all of them keep apart. -/
theorem injective_foldl {σ α : Type*} {step : σ → α → σ}
    (hstep : ∀ a, Function.Injective fun h => step h a) (l : List α) :
    Function.Injective fun h => l.foldl step h := by
  induction l with
  | nil => exact fun _ _ h => h
  | cons a l ih => exact ih.comp (hstep a)

end Ycetl.Lib
