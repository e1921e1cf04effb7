import Ycetl.Lib.Mixers
import Ycetl.Ref.Hash

/-!
# Integer hashes do not collide

Each of the seven assignments of `mix64` is a step that can be undone, so the
mix is a bijection of the words. The conversion in front of it keeps keys
apart, and so does the hash. What is left to bring two keys to the same slot
is the reduction by the number of slots.
-/

namespace Ycetl.Ref

open Ycetl.Lib

namespace HashDetail

/-- The assignments of `mix64`: three multiplications by odd numbers and one
with a subtraction, and the shifts between them. -/
def wangSteps : List (Mixer 64) :=
  [.affine (BitVec.twoPow 64 21 - 1#64) (-1#64) (by decide),
   .xorShift 24 (by decide),
   .affine (1#64 + BitVec.twoPow 64 3 + BitVec.twoPow 64 8) 0#64 (by decide),
   .xorShift 14 (by decide),
   .affine (1#64 + BitVec.twoPow 64 2 + BitVec.twoPow 64 4) 0#64 (by decide),
   .xorShift 28 (by decide),
   .affine (1#64 + BitVec.twoPow 64 31) 0#64 (by decide)]

theorem shift_amount {k : Nat} (hk : k < 64) : k % 18446744073709551616 % 64 = k := by omega

theorem toBitVec_shiftLeft {k : Nat} (hk : k < 64) (x : UInt64) :
    (x <<< UInt64.ofNat k).toBitVec = x.toBitVec <<< k := by
  rw [UInt64.toBitVec_shiftLeft]
  simp [shift_amount hk]

theorem toBitVec_xorShift {k : Nat} (hk : k < 64) (x : UInt64) :
    (x ^^^ x >>> UInt64.ofNat k).toBitVec = xorShift k x.toBitVec := by
  rw [UInt64.toBitVec_xor, UInt64.toBitVec_shiftRight, xorShift]
  simp [shift_amount hk]

theorem toBitVec_not_add {k : Nat} (hk : k < 64) (x : UInt64) :
    (~~~x + x <<< UInt64.ofNat k).toBitVec =
      x.toBitVec * (BitVec.twoPow 64 k - 1#64) + -1#64 := by
  rw [UInt64.toBitVec_add, UInt64.toBitVec_not, toBitVec_shiftLeft hk, not_add_shiftLeft]

theorem toBitVec_add {k : Nat} (hk : k < 64) (x : UInt64) :
    (x + x <<< UInt64.ofNat k).toBitVec =
      x.toBitVec * (1#64 + BitVec.twoPow 64 k) + 0#64 := by
  rw [UInt64.toBitVec_add, toBitVec_shiftLeft hk, add_shiftLeft, BitVec.add_zero]

theorem toBitVec_add_add {j k : Nat} (hj : j < 64) (hk : k < 64) (x : UInt64) :
    (x + x <<< UInt64.ofNat j + x <<< UInt64.ofNat k).toBitVec =
      x.toBitVec * (1#64 + BitVec.twoPow 64 j + BitVec.twoPow 64 k) + 0#64 := by
  rw [UInt64.toBitVec_add, UInt64.toBitVec_add, toBitVec_shiftLeft hj, toBitVec_shiftLeft hk,
    add_shiftLeft_add_shiftLeft, BitVec.add_zero]

/-- One assignment at a time. -/
theorem toBitVec_mix64 (x : UInt64) : (mix64 x).toBitVec = mix wangSteps x.toBitVec := by
  let x₁ := ~~~x + x <<< 21
  let x₂ := x₁ ^^^ x₁ >>> 24
  let x₃ := x₂ + x₂ <<< 3 + x₂ <<< 8
  let x₄ := x₃ ^^^ x₃ >>> 14
  let x₅ := x₄ + x₄ <<< 2 + x₄ <<< 4
  let x₆ := x₅ ^^^ x₅ >>> 28
  let x₇ := x₆ + x₆ <<< 31
  have h₁ : x₁.toBitVec = _ := toBitVec_not_add (by decide) x
  have h₂ : x₂.toBitVec = _ := toBitVec_xorShift (by decide) x₁
  have h₃ : x₃.toBitVec = _ := toBitVec_add_add (by decide) (by decide) x₂
  have h₄ : x₄.toBitVec = _ := toBitVec_xorShift (by decide) x₃
  have h₅ : x₅.toBitVec = _ := toBitVec_add_add (by decide) (by decide) x₄
  have h₆ : x₆.toBitVec = _ := toBitVec_xorShift (by decide) x₅
  have h₇ : x₇.toBitVec = _ := toBitVec_add (by decide) x₆
  calc (mix64 x).toBitVec = x₇.toBitVec := rfl
    _ = mix wangSteps x.toBitVec := by
        simp only [h₇, h₆, h₅, h₄, h₃, h₂, h₁, wangSteps, mix_cons, mix_nil, Mixer.apply]

theorem bijective_mix64 : Function.Bijective mix64 := by
  have hmix : mix64 = UInt64.ofBitVec ∘ mix wangSteps ∘ UInt64.toBitVec :=
    funext fun x => UInt64.toBitVec_inj.mp (toBitVec_mix64 x)
  have hof : Function.Bijective UInt64.ofBitVec :=
    Function.bijective_iff_has_inverse.mpr ⟨UInt64.toBitVec, fun _ => rfl, fun _ => rfl⟩
  have hto : Function.Bijective UInt64.toBitVec :=
    Function.bijective_iff_has_inverse.mpr ⟨UInt64.ofBitVec, fun _ => rfl, fun _ => rfl⟩
  rw [hmix]
  exact hof.comp ((bijective_mix wangSteps).comp hto)

end HashDetail

namespace DataModel

variable (m : DataModel) (t : IntType)

/-- Extending a key to the word, by its sign or by zeros, keeps its value. -/
theorem injective_toUInt64 : Function.Injective (m.toUInt64 t) := by
  intro v w h
  have hbits := congrArg UInt64.toBitVec h
  have hle := m.width_le t
  by_cases hs : m.signed t = true
  · simp only [toUInt64, if_pos hs] at hbits
    have hint := congrArg BitVec.toInt hbits
    rw [BitVec.toInt_signExtend_of_le hle, BitVec.toInt_signExtend_of_le hle] at hint
    exact BitVec.eq_of_toInt_eq hint
  · simp only [toUInt64, if_neg hs] at hbits
    have hnat := congrArg BitVec.toNat hbits
    rw [BitVec.toNat_setWidth_of_le hle, BitVec.toNat_setWidth_of_le hle] at hnat
    exact BitVec.eq_of_toNat_eq hnat

theorem injective_hash : Function.Injective (m.hash t) :=
  HashDetail.bijective_mix64.injective.comp (m.injective_toUInt64 t)

end DataModel

/-! ## The probe start -/

namespace Table

variable {K V : Type} (H : Hashing K)

theorem path_cap (s : Table V) (k : K) :
    path H k s.cap = probes (bucketOf H s k) s.cap := rfl

/-- A probe sequence starts at the key's bucket. -/
theorem head?_path {s : Table V} (hs : 0 < s.cap) (k : K) :
    (path H k s.cap).head? = some (bucketOf H s k) := by
  have hlt : bucketOf H s k < s.cap := Nat.mod_lt _ hs
  rw [path_cap, probes, List.head?_map, List.head?_range, if_neg (by omega), Option.map_some,
    Nat.add_zero, Nat.mod_eq_of_lt hlt]

end Table

/-- Two integer keys are probed for from one slot only when the reduction by
the number of slots brings two different hashes together. -/
theorem DataModel.bucketOf_eq_iff (m : DataModel) (t : IntType) {V : Type} (s : Table V)
    (j k : m.Value t) :
    Table.bucketOf (m.hashing t) s j = Table.bucketOf (m.hashing t) s k ↔
      j = k ∨ m.hash t j ≠ m.hash t k ∧
        (m.hash t j).toNat ≡ (m.hash t k).toNat [MOD s.cap] := by
  refine ⟨fun h => ?_, fun h => ?_⟩
  · by_cases hjk : j = k
    · exact .inl hjk
    · exact .inr ⟨fun heq => hjk (m.injective_hash t heq), h⟩
  · rcases h with rfl | ⟨-, hmod⟩
    · rfl
    · exact hmod

/-- `mix64` loses nothing, the hash of every integer type keeps the keys apart,
and whatever container has them, two keys that start at the same slot have
different hashes that agree modulo the number of slots. -/
theorem integer_hashes_keep_apart :
    Function.Bijective HashDetail.mix64 ∧
    ∀ (m : DataModel) (t : IntType),
      Function.Injective (m.hash t) ∧
      ∀ {V : Type} (s : Table V), 0 < s.cap → ∀ j k : m.Value t,
        ((Table.path (m.hashing t) j s.cap).head? =
            (Table.path (m.hashing t) k s.cap).head? ↔
          j = k ∨ m.hash t j ≠ m.hash t k ∧
            (m.hash t j).toNat ≡ (m.hash t k).toNat [MOD s.cap]) := by
  refine ⟨HashDetail.bijective_mix64, fun m t => ⟨m.injective_hash t, fun s hs j k => ?_⟩⟩
  rw [Table.head?_path _ hs, Table.head?_path _ hs, Option.some_inj]
  exact m.bucketOf_eq_iff t s j k

/-- In a table of eight slots `-1` and `2` start at one slot, and their hashes
differ. -/
theorem minus_one_meets_two :
    DataModel.lp64.hash .int (-1#32) ≠ DataModel.lp64.hash .int 2#32 ∧
    (Table.path (DataModel.lp64.hashing .int) (-1#32) 8).head? =
      (Table.path (DataModel.lp64.hashing .int) 2#32 8).head? := by
  have hne : DataModel.lp64.hash .int (-1#32) ≠ DataModel.lp64.hash .int 2#32 := fun h =>
    absurd ((integer_hashes_keep_apart.2 DataModel.lp64 .int).1 h)
      (by decide : (-1#32) ≠ 2#32)
  have hmod : (DataModel.lp64.hash .int (-1#32)).toNat ≡
      (DataModel.lp64.hash .int 2#32).toNat [MOD 8] := by
    decide
  exact ⟨hne, ((integer_hashes_keep_apart.2 DataModel.lp64 .int).2
    (⟨Table.freshSlots 8, 0⟩ : Table Nat) (by decide) (-1#32) 2#32).mpr (.inr ⟨hne, hmod⟩)⟩

end Ycetl.Ref
