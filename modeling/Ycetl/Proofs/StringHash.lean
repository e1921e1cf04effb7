import Ycetl.Proofs.IntegerHash

/-!
# String hashes and random numbers

A step of the hash can be undone, and it keeps the bytes apart. So a byte that
is changed changes the hash, whatever is before and behind it, and a common end
neither makes a collision nor resolves one. The random numbers are hashes of
eight bytes and have this from there.
-/

namespace Ycetl.Ref

open Ycetl.Lib

namespace Fnv1a

theorem injective_mul_prime : Function.Injective fun h : UInt64 => h * prime := by
  intro g h heq
  have hbits : g.toBitVec * prime.toBitVec = h.toBitVec * prime.toBitVec := by
    rw [← UInt64.toBitVec_mul, ← UInt64.toBitVec_mul]
    exact congrArg UInt64.toBitVec heq
  exact UInt64.toBitVec_inj.mp (injective_mul_odd (by decide) hbits)

/-- A step can be undone. -/
theorem injective_step (byte : UInt8) : Function.Injective fun h => step h byte := by
  intro g h heq
  exact (UInt64.xor_left_inj _).mp (injective_mul_prime heq)

/-- It keeps the bytes apart. -/
theorem injective_step_byte (h : UInt64) : Function.Injective (step h) := by
  intro a b heq
  have hbytes := (UInt64.xor_right_inj h).mp (injective_mul_prime heq)
  exact UInt8.toUInt64_inj.mp hbytes

theorem hash_append_inj_right (s t u : List UInt8) :
    hash (s ++ u) = hash (t ++ u) ↔ hash s = hash t := by
  rw [hash, hash, List.foldl_append, List.foldl_append]
  exact (injective_foldl injective_step u).eq_iff

theorem hash_concat_inj (s : List UInt8) {a b : UInt8} :
    hash (s ++ [a]) = hash (s ++ [b]) ↔ a = b := by
  rw [hash, hash, List.foldl_append, List.foldl_append]
  exact (injective_step_byte (hash s)).eq_iff

/-- A byte that is changed changes the hash. -/
theorem hash_change_inj (s u : List UInt8) {a b : UInt8} :
    hash (s ++ a :: u) = hash (s ++ b :: u) ↔ a = b := by
  rw [List.append_cons, List.append_cons s b, hash_append_inj_right, hash_concat_inj]

end Fnv1a

namespace Random

/-- The bytes of a word, the least first. -/
def bytes (x : UInt64) : List UInt8 := (List.range 8).map (byte x)

/-- A random number is the hash of the bytes of the one before. -/
theorem distribute_eq (x : UInt64) : distribute x = Fnv1a.hash (bytes x) := by
  rw [Fnv1a.hash, bytes, List.foldl_map]
  rfl

/-- States that differ in one byte. -/
def OneByte (i : Nat) (x y : UInt64) : Prop := ∀ j < 8, byte x j = byte y j ↔ j ≠ i

/-- What is before the byte and what is behind it is the same. -/
theorem bytes_split {i : Nat} (hi : i < 8) {x y : UInt64} (h : OneByte i x y) :
    ∃ s u, bytes x = s ++ byte x i :: u ∧ bytes y = s ++ byte y i :: u := by
  have hrange : List.range 8 = List.range i ++ i :: List.range' (i + 1) (8 - (i + 1)) := by
    obtain ⟨k, hk⟩ := Nat.exists_eq_add_of_lt hi
    have hrest : 8 - (i + 1) = k := by omega
    rw [hrest, ← List.range'_succ, List.range_eq_range', List.range_eq_range', hk, Nat.add_assoc]
    simpa using (List.range'_append_1 (s := 0) (m := i) (n := k + 1)).symm
  refine ⟨(List.range i).map (byte x), (List.range' (i + 1) (8 - (i + 1))).map (byte x), ?_, ?_⟩
  · rw [bytes, hrange, List.map_append, List.map_cons]
  · rw [bytes, hrange, List.map_append, List.map_cons]
    congr 1
    · refine List.map_congr_left fun j hj => ((h j ?_).mpr ?_).symm <;>
      · have := List.mem_range.mp hj
        omega
    · congr 1
      refine List.map_congr_left fun j hj => ((h j ?_).mpr ?_).symm <;>
      · have := List.mem_range'_1.mp hj
        omega

theorem next_ne {i : Nat} (hi : i < 8) {r r' : Random} (h : OneByte i r.state r'.state) :
    r.next.1 ≠ r'.next.1 := by
  intro heq
  have hhash : Fnv1a.hash (bytes r.state) = Fnv1a.hash (bytes r'.state) := by
    rw [← distribute_eq, ← distribute_eq]
    exact heq
  obtain ⟨s, u, hx, hy⟩ := bytes_split hi h
  rw [hx, hy, Fnv1a.hash_change_inj] at hhash
  exact (h i hi).mp hhash rfl

end Random

/-- Two strings that differ in one byte have different hashes, and start at the
same slot of a table only where these agree modulo the number of slots. A
common end neither makes a collision nor resolves one. And random numbers are
hashes of the bytes of their states, different for states that differ in one
byte. -/
theorem string_hashes_keep_apart :
    (∀ (s u : List UInt8) (a b : UInt8),
      (Fnv1a.hash (s ++ a :: u) = Fnv1a.hash (s ++ b :: u) ↔ a = b) ∧
      ∀ {V : Type} (t : Table V), 0 < t.cap →
        ((Table.path stringHashing (s ++ a :: u) t.cap).head? =
            (Table.path stringHashing (s ++ b :: u) t.cap).head? ↔
          a = b ∨ Fnv1a.hash (s ++ a :: u) ≠ Fnv1a.hash (s ++ b :: u) ∧
            (Fnv1a.hash (s ++ a :: u)).toNat ≡
              (Fnv1a.hash (s ++ b :: u)).toNat [MOD t.cap])) ∧
    (∀ s t u : List UInt8,
      Fnv1a.hash (s ++ u) = Fnv1a.hash (t ++ u) ↔ Fnv1a.hash s = Fnv1a.hash t) ∧
    (∀ r : Random, r.next.1 = Fnv1a.hash (Random.bytes r.state)) ∧
    ∀ (i : Nat) (r r' : Random), i < 8 → Random.OneByte i r.state r'.state →
      r.next.1 ≠ r'.next.1 := by
  refine ⟨fun s u a b => ⟨Fnv1a.hash_change_inj s u, fun t ht => ?_⟩,
    Fnv1a.hash_append_inj_right, fun r => Random.distribute_eq r.state,
    fun i r r' hi h => Random.next_ne hi h⟩
  rw [Table.head?_path _ ht, Table.head?_path _ ht, Option.some_inj]
  constructor
  · intro h
    by_cases hab : a = b
    · exact .inl hab
    · exact .inr ⟨fun heq => hab ((Fnv1a.hash_change_inj s u).mp heq), h⟩
  · rintro (rfl | ⟨-, hmod⟩)
    · rfl
    · exact hmod

/-- `"ab"` and `"ac"` start at different slots of eight, and the seeds 1 and 2
go on with different numbers. -/
theorem string_hashes_keep_apart_small :
    (Table.path stringHashing [97, 98] 8).head? ≠ (Table.path stringHashing [97, 99] 8).head? ∧
      (Random.seeded 1).next.1 ≠ (Random.seeded 2).next.1 := by
  have hone : Random.OneByte 0 (Random.seeded 1).state (Random.seeded 2).state := by
    rw [Random.OneByte]
    decide
  refine ⟨fun h => ?_, string_hashes_keep_apart.2.2.2 0 _ _ (by decide) hone⟩
  rcases ((string_hashes_keep_apart.1 [97] [] 98 99).2
    (⟨Table.freshSlots 8, 0⟩ : Table Nat) (by decide)).mp h with hab | ⟨-, hmod⟩
  · exact absurd hab (by decide)
  · exact absurd hmod (by decide)

end Ycetl.Ref
