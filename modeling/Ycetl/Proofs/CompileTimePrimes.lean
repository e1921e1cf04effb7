import Mathlib.Data.Nat.Sqrt
import Ycetl.Lib.Sieves
import Ycetl.Ref.CompileTime

/-!
# The sieve of the compile-time examples

What a loop leaves is said of the loop that ends, and that it ends is said
apart: it does as long as the numbers it needs fit into an `int`. The last
number that is squared is the one behind the square root of `N`, so that `N`
may not be as large as an `int` can be.
-/

namespace Ycetl.Ref.CompileTime

open Ycetl.Lib

variable {n i j fuel : Nat} {sieve sieve' : Buffer Bool}

/-! ## `int` -/

theorem int_of_lt (h : n < 2 ^ 31) : int n = some n := if_pos h

theorem int_eq_some_iff {m : Nat} : int n = some m ↔ n < 2 ^ 31 ∧ m = n := by
  rw [int]
  split
  · next h =>
      exact ⟨fun heq => ⟨h, (Option.some.inj heq).symm⟩, fun heq => congrArg some heq.2.symm⟩
  · next h =>
      refine ⟨fun heq => ?_, fun heq => absurd heq.1 h⟩
      cases heq

/-! ## The loops of the sieve -/

/-- What the first loop leaves: everything is marked. -/
theorem fillLoop_spec (hfit : n + 1 < 2 ^ 31) (hsize : sieve.size = n + 1) (hi : i ≤ n + 1)
    (hfuel : n + 1 - i < fuel) (hmarked : ∀ k < i, sieve.read k = some true) :
    ∃ sieve', fillLoop n fuel i sieve = some sieve' ∧ sieve'.size = n + 1 ∧
      ∀ k ≤ n, sieve'.read k = some true := by
  induction fuel generalizing i sieve with
  | zero => exact absurd hfuel (Nat.not_lt_zero _)
  | succ fuel ih =>
      rw [fillLoop]
      split
      · next hle =>
          have hlt : i < sieve.size := by omega
          have hwrite := Buffer.write_of_lt hlt true
          rw [hwrite]
          simp only [Option.bind_eq_bind, Option.bind_some, int_of_lt (by omega : i + 1 < 2 ^ 31)]
          refine ih ((Buffer.size_write hwrite).trans hsize) (by omega) (by omega) fun k hk => ?_
          by_cases hik : i = k
          · subst hik
            exact Buffer.read_write_self hwrite
          · rw [Buffer.read_write_ne hwrite hik]
            exact hmarked k (by omega)
      · next hgt => exact ⟨sieve, rfl, hsize, fun k hk => hmarked k (by omega)⟩

/-- What is crossed out is every `i`-th number from `j` on. -/
theorem crossLoop_reads (h : crossLoop n i fuel j sieve = some sieve') :
    sieve'.size = sieve.size ∧
      (∀ k ≤ n, (∃ t, k = j + i * t) → sieve'.read k = some false) ∧
      ∀ k, ¬ (k ≤ n ∧ ∃ t, k = j + i * t) → sieve'.read k = sieve.read k := by
  induction fuel generalizing j sieve with
  | zero => cases h
  | succ fuel ih =>
      rw [crossLoop] at h
      split at h
      · next hle =>
          simp only [Option.bind_eq_bind, Option.bind_eq_some_iff] at h
          obtain ⟨s, hwrite, j', hj', h⟩ := h
          obtain ⟨-, rfl⟩ := int_eq_some_iff.mp hj'
          obtain ⟨hsize, hcrossed, hothers⟩ := ih h
          refine ⟨hsize.trans (Buffer.size_write hwrite), ?_, ?_⟩
          · rintro k hk ⟨t, rfl⟩
            cases t with
            | zero =>
                by_cases hagain : ∃ t, j + i * 0 = j + i + i * t
                · exact hcrossed _ hk hagain
                · rw [hothers _ fun hnot => hagain hnot.2]
                  exact Buffer.read_write_self hwrite
            | succ t => exact hcrossed _ hk ⟨t, by rw [Nat.mul_succ]; omega⟩
          · intro k hk
            rw [hothers k fun hnot => hk ⟨hnot.1, ?_⟩, Buffer.read_write_ne hwrite]
            · rintro rfl
              exact hk ⟨hle, 0, rfl⟩
            · obtain ⟨-, t, rfl⟩ := hnot
              exact ⟨t + 1, by rw [Nat.mul_succ]; omega⟩
      · next hgt =>
          cases h
          refine ⟨rfl, ?_, fun k _ => rfl⟩
          rintro k hk ⟨t, rfl⟩
          omega

theorem crossLoop_ends (hi : 0 < i) (hfit : n + i < 2 ^ 31) (hsize : sieve.size = n + 1)
    (hfuel : n < j + fuel) : ∃ sieve', crossLoop n i (fuel + 1) j sieve = some sieve' := by
  induction fuel generalizing j sieve with
  | zero =>
      rw [crossLoop, if_neg (by omega)]
      exact ⟨sieve, rfl⟩
  | succ fuel ih =>
      rw [crossLoop]
      split
      · next hle =>
          have hwrite := Buffer.write_of_lt (by omega : j < sieve.size) false
          rw [hwrite]
          simp only [Option.bind_eq_bind, Option.bind_some, int_of_lt (by omega : j + i < 2 ^ 31)]
          exact ih ((Buffer.size_write hwrite).trans hsize) (by omega)
      · exact ⟨sieve, rfl⟩

/-- The numbers below `i` have had their turns. -/
structure Sieved (n i : Nat) (sieve : Buffer Bool) : Prop where
  size : sieve.size = n + 1
  read : ∀ k ≤ n, ∃ b, sieve.read k = some b ∧ (b = true ↔ Survives i k)

/-- At its turn a number is marked if it is a prime. -/
theorem Sieved.read_self (h : Sieved n i sieve) (hi : 2 ≤ i) (hle : i ≤ n) :
    ∃ b, sieve.read i = some b ∧ (b = true ↔ i.Prime) := by
  obtain ⟨b, hread, hb⟩ := h.read i hle
  exact ⟨b, hread, hb.trans (survives_self hi)⟩

/-- The turn of a prime. -/
theorem Sieved.cross (h : Sieved n i sieve) (hi : i.Prime)
    (hcross : crossLoop n i fuel (i * i) sieve = some sieve') : Sieved n (i + 1) sieve' := by
  obtain ⟨hsize, hcrossed, hothers⟩ := crossLoop_reads hcross
  refine ⟨hsize.trans h.size, fun k hk => ?_⟩
  have hmultiple : (∃ t, k = i * i + i * t) ↔ i * i ≤ k ∧ i ∣ k := by
    constructor
    · rintro ⟨t, rfl⟩
      exact ⟨Nat.le_add_right _ _, Nat.dvd_add (Nat.dvd_mul_right i i) (Nat.dvd_mul_right i t)⟩
    · rintro ⟨hle, t, rfl⟩
      have hit : i ≤ t := Nat.le_of_mul_le_mul_left hle hi.pos
      exact ⟨t - i, by rw [← Nat.mul_add, Nat.add_sub_cancel' hit]⟩
  by_cases hmem : ∃ t, k = i * i + i * t
  · refine ⟨false, hcrossed k hk hmem, ?_⟩
    rw [survives_succ_of_prime hi]
    simp [hmultiple.mp hmem]
  · obtain ⟨b, hread, hb⟩ := h.read k hk
    refine ⟨b, ?_, ?_⟩
    · rw [hothers k fun hnot => hmem hnot.2]
      exact hread
    · rw [survives_succ_of_prime hi, ← hmultiple]
      exact hb.trans ⟨fun hs => ⟨hs, hmem⟩, And.left⟩

/-- The turn of any other number. -/
theorem Sieved.skip (h : Sieved n i sieve) (hi : ¬ i.Prime) : Sieved n (i + 1) sieve :=
  ⟨h.size, fun k hk => by
    obtain ⟨b, hread, hb⟩ := h.read k hk
    exact ⟨b, hread, hb.trans (survives_succ_of_not_prime hi k).symm⟩⟩

/-- The first number that is squared in vain. -/
theorem sieveLoop_sieved (h : Sieved n i sieve) (hi : 2 ≤ i) (hbound : i ≤ n.sqrt + 1)
    (hloop : sieveLoop n fuel i sieve = some sieve') :
    (n.sqrt + 1) * (n.sqrt + 1) < 2 ^ 31 ∧ Sieved n (n.sqrt + 1) sieve' := by
  induction fuel generalizing i sieve with
  | zero =>
      rw [sieveLoop] at hloop
      cases hloop
  | succ fuel ih =>
      rw [sieveLoop] at hloop
      simp only [Option.bind_eq_bind, Option.bind_eq_some_iff] at hloop
      obtain ⟨square, hsquare, hloop⟩ := hloop
      obtain ⟨hfit, rfl⟩ := int_eq_some_iff.mp hsquare
      by_cases hle : i * i ≤ n
      · rw [if_pos hle] at hloop
        simp only [Option.bind_eq_some_iff] at hloop
        obtain ⟨marked, hmarked, hloop⟩ := hloop
        have hsqrt : i ≤ n.sqrt := Nat.le_sqrt.mpr hle
        have hin : i ≤ n := (Nat.le_mul_self i).trans hle
        obtain ⟨b, hread, hb⟩ := h.read_self hi hin
        rw [hread, Option.some.injEq] at hmarked
        subst hmarked
        have hnext : ∀ s, Sieved n (i + 1) s →
            ((int (i + 1)).bind fun i => sieveLoop n fuel i s) = some sieve' →
            (n.sqrt + 1) * (n.sqrt + 1) < 2 ^ 31 ∧ Sieved n (n.sqrt + 1) sieve' := by
          intro s hs hloop
          obtain ⟨i', hi', hloop⟩ := Option.bind_eq_some_iff.mp hloop
          obtain ⟨-, rfl⟩ := int_eq_some_iff.mp hi'
          exact ih hs (Nat.le_succ_of_le hi) (Nat.succ_le_succ hsqrt) hloop
        cases b with
        | true =>
            obtain ⟨s, hs, hloop⟩ := Option.bind_eq_some_iff.mp hloop
            exact hnext s (h.cross (hb.mp rfl) hs) hloop
        | false =>
            exact hnext sieve (h.skip fun hprime => Bool.noConfusion (hb.mpr hprime)) hloop
      · rw [if_neg hle, Option.some.injEq] at hloop
        subst hloop
        have hsqrt : ¬ i ≤ n.sqrt := fun hsqrt => hle (Nat.le_sqrt.mp hsqrt)
        have heq : n.sqrt + 1 = i := by omega
        rw [heq]
        exact ⟨hfit, h⟩

/-- The multiples fit when the squares do. -/
theorem add_lt_of_square_lt (hfit : (n.sqrt + 1) * (n.sqrt + 1) < 2 ^ 31) (hi : i ≤ n.sqrt) :
    n + i < 2 ^ 31 := by
  have hroot : n.sqrt + 1 ≤ 46340 := by
    by_contra hgt
    have hsquare := Nat.mul_self_le_mul_self (Nat.lt_of_not_le hgt)
    omega
  have hsquare := Nat.mul_self_le_mul_self hroot
  have hlt : n < (n.sqrt + 1) * (n.sqrt + 1) := Nat.lt_succ_sqrt n
  omega

theorem sieveLoop_ends (h : Sieved n i sieve) (hi : 2 ≤ i) (hbound : i ≤ n.sqrt + 1)
    (hfit : (n.sqrt + 1) * (n.sqrt + 1) < 2 ^ 31) (hfuel : n.sqrt + 1 < i + fuel) :
    ∃ sieve', sieveLoop n fuel i sieve = some sieve' := by
  induction fuel generalizing i sieve with
  | zero => omega
  | succ fuel ih =>
      have hsquare : i * i < 2 ^ 31 :=
        Nat.lt_of_le_of_lt (Nat.mul_self_le_mul_self hbound) hfit
      rw [sieveLoop, int_of_lt hsquare]
      simp only [Option.bind_eq_bind, Option.bind_some]
      split
      · next hle =>
          have hsqrt : i ≤ n.sqrt := Nat.le_sqrt.mpr hle
          have hsum := add_lt_of_square_lt hfit hsqrt
          have hin : i ≤ n := (Nat.le_mul_self i).trans hle
          have hpos : 0 < i * i := Nat.mul_pos (by omega) (by omega)
          obtain ⟨b, hread, hb⟩ := h.read_self hi hin
          simp only [hread, Option.bind_some, int_of_lt (by omega : i + 1 < 2 ^ 31)]
          cases b with
          | true =>
              obtain ⟨s, hs⟩ := crossLoop_ends (by omega : 0 < i) hsum h.size
                (by omega : n < i * i + n)
              simp only [if_true, hs, Option.bind_some]
              exact ih (h.cross (hb.mp rfl) hs) (by omega) (by omega) (by omega)
          | false =>
              simp only [Bool.false_eq_true, if_false]
              exact ih (h.skip fun hprime => Bool.noConfusion (hb.mpr hprime)) (by omega)
                (by omega) (by omega)
      · exact ⟨sieve, rfl⟩

/-- The sieve that both examples go on with. -/
def Marked (n : Nat) (sieve : Buffer Bool) : Prop :=
  ∀ k ≤ n, sieve.read k = some (decide k.Prime)

theorem Sieved.marked (h : Sieved n (n.sqrt + 1) sieve) : Marked n sieve := by
  intro k hk
  obtain ⟨b, hread, hb⟩ := h.read k hk
  rw [survives_iff_prime (Nat.lt_succ_sqrt n) hk] at hb
  rw [hread, Option.some.injEq, Bool.eq_iff_iff, hb, decide_eq_true_iff]

/-- Nothing is crossed out yet, but for zero and one. -/
theorem sieved_two (hfit : n + 1 < 2 ^ 31) (hn : 1 ≤ n) :
    ∃ sieve sieve₀ sieve₁, fillLoop n (n + 2) 0 (.raw (n + 1)) = some sieve ∧
      sieve.write 0 false = some sieve₀ ∧ sieve₀.write 1 false = some sieve₁ ∧
      Sieved n 2 sieve₁ := by
  obtain ⟨sieve, hfill, hsize, hmarked⟩ := fillLoop_spec hfit (Buffer.size_raw (n + 1))
    (Nat.zero_le _) (by omega : n + 1 - 0 < n + 2) fun k hk => absurd hk (Nat.not_lt_zero k)
  have hzero := Buffer.write_of_lt (by omega : 0 < sieve.size) false
  have hsize₀ := Buffer.size_write hzero
  have hone := Buffer.write_of_lt
    (by omega : 1 < Buffer.size ⟨sieve.slots.set 0 (some false)⟩) false
  refine ⟨sieve, _, _, hfill, hzero, hone, (Buffer.size_write hone).trans (hsize₀.trans hsize), ?_⟩
  intro k hk
  rw [survives_two]
  match k with
  | 0 =>
      refine ⟨false, ?_, by simp⟩
      rw [Buffer.read_write_ne hone (by decide), Buffer.read_write_self hzero]
  | 1 => exact ⟨false, Buffer.read_write_self hone, by simp⟩
  | k + 2 =>
      refine ⟨true, ?_, by simp⟩
      rw [Buffer.read_write_ne hone (by omega), Buffer.read_write_ne hzero (by omega)]
      exact hmarked _ hk

theorem sieveUpTo_marked (hn : 1 ≤ n) (hfit : (n.sqrt + 1) * (n.sqrt + 1) < 2 ^ 31) :
    ∃ sieve, sieveUpTo n = some sieve ∧ Marked n sieve := by
  have hsum : n + 1 < 2 ^ 31 := add_lt_of_square_lt hfit (Nat.sqrt_pos.mpr hn)
  obtain ⟨s, s₀, s₁, hfill, hzero, hone, hsieved⟩ := sieved_two hsum hn
  have hroot : 0 < n.sqrt := Nat.sqrt_pos.mpr hn
  have hle : n.sqrt ≤ n := Nat.sqrt_le_self n
  obtain ⟨sieve, hloop⟩ := sieveLoop_ends hsieved (Nat.le_refl 2) (by omega) hfit
    (by omega : n.sqrt + 1 < 2 + (n + 1))
  refine ⟨sieve, ?_, (sieveLoop_sieved hsieved (Nat.le_refl 2) (by omega) hloop).2.marked⟩
  simp [sieveUpTo, int_of_lt hsum, hfill, hzero, hone, hloop]

theorem sieveUpTo_fits (h : sieveUpTo n = some sieve) :
    1 ≤ n ∧ (n.sqrt + 1) * (n.sqrt + 1) < 2 ^ 31 := by
  rw [sieveUpTo] at h
  simp only [Option.bind_eq_bind, Option.bind_eq_some_iff] at h
  obtain ⟨size, hsize, s, hfill, s₀, hzero, s₁, hone, hloop⟩ := h
  obtain ⟨hfit, rfl⟩ := int_eq_some_iff.mp hsize
  cases n with
  | zero =>
      -- There is no slot for one.
      have hlt := Buffer.lt_of_write hone
      rw [Buffer.size_write hzero] at hlt
      obtain ⟨s', hfill', hsize', -⟩ := fillLoop_spec hfit (Buffer.size_raw (0 + 1))
        (Nat.zero_le _) (by omega : 0 + 1 - 0 < 0 + 2) fun k hk => absurd hk (Nat.not_lt_zero k)
      rw [hfill] at hfill'
      cases hfill'
      omega
  | succ n =>
      obtain ⟨t, t₀, t₁, hfill', hzero', hone', hsieved⟩ :=
        sieved_two hfit (Nat.succ_le_succ (Nat.zero_le n))
      rw [hfill, Option.some.injEq] at hfill'
      subst hfill'
      rw [hzero, Option.some.injEq] at hzero'
      subst hzero'
      rw [hone, Option.some.injEq] at hone'
      subst hone'
      have hroot : 0 < (n + 1).sqrt := Nat.sqrt_pos.mpr (Nat.succ_pos n)
      exact ⟨by omega, (sieveLoop_sieved hsieved (Nat.le_refl 2) (by omega) hloop).1⟩

/-! ## The records -/

/-- What is recorded of a prime. -/
def record (p : Nat) : Nat × Nat := (p, p * p)

variable {capacity idx : Nat} {records : Buffer (Nat × Nat)} {rs : List (Nat × Nat)}

/-- What is still recorded when it is the turn of `i`. -/
def recordable (n capacity idx i : Nat) : List Nat := (primesFrom n i).take (capacity - idx)

theorem recordable_of_prime (hle : i ≤ n) (hidx : idx < capacity) (hi : i.Prime) :
    recordable n capacity idx i = i :: recordable n capacity (idx + 1) (i + 1) := by
  obtain ⟨room, rfl⟩ := Nat.exists_eq_add_of_lt hidx
  have hroom : idx + room + 1 - idx = room + 1 := by omega
  have hroom' : idx + room + 1 - (idx + 1) = room := by omega
  rw [recordable, recordable, primesFrom_of_prime hle hi, hroom, hroom', List.take_succ_cons]

theorem recordable_of_not_prime (hle : i ≤ n) (hi : ¬ i.Prime) :
    recordable n capacity idx i = recordable n capacity idx (i + 1) := by
  rw [recordable, recordable, primesFrom_of_not_prime hle hi]

theorem recordable_of_end (h : ¬ (i ≤ n ∧ idx < capacity)) : recordable n capacity idx i = [] := by
  rw [not_and_or] at h
  rcases h with h | h
  · rw [recordable, primesFrom_of_lt (Nat.lt_of_not_le h), List.take_nil]
  · rw [recordable, Nat.sub_eq_zero_of_le (Nat.le_of_not_lt h), List.take_zero]

/-- The primes are recorded one after the other, as long as there is room. -/
theorem recordLoop_records (hmarked : Marked n sieve) (hfit : n + 1 < 2 ^ 31)
    (hsize : records.size = capacity) (hholds : records.Holds rs) (hlength : rs.length = idx)
    (hi : i ≤ n + 1) (hfuel : n + 1 < i + fuel)
    (hsquares : ∀ p ∈ recordable n capacity idx i, p * p < 2 ^ 31) :
    ∃ records', recordLoop n capacity sieve fuel i idx records =
        some (idx + (recordable n capacity idx i).length, records') ∧
      records'.Holds (rs ++ (recordable n capacity idx i).map record) := by
  induction fuel generalizing i idx records rs with
  | zero => omega
  | succ fuel ih =>
      rw [recordLoop]
      split
      · next hround =>
          have hnext : int (i + 1) = some (i + 1) := int_of_lt (by omega)
          rw [hmarked i hround.1]
          simp only [Option.bind_eq_bind, Option.bind_some, decide_eq_true_iff, hnext]
          split
          · next hprime =>
              rw [recordable_of_prime hround.1 hround.2 hprime] at hsquares ⊢
              have hwrite := Buffer.write_of_lt (by omega : idx < records.size) (i, i * i)
              rw [int_of_lt (hsquares i List.mem_cons_self), Option.bind_some, hwrite,
                Option.bind_some]
              rw [← hlength] at hwrite
              obtain ⟨records', hloop, hholds'⟩ := ih ((Buffer.size_write hwrite).trans hsize)
                (hholds.concat hwrite) (by simp [hlength]) (by omega) (by omega)
                fun p hp => hsquares p (List.mem_cons_of_mem i hp)
              rw [hlength] at hloop
              refine ⟨records', ?_, ?_⟩
              · rw [hloop, List.length_cons, Nat.add_right_comm, Nat.add_assoc]
              · rwa [List.append_assoc] at hholds'
          · next hprime =>
              rw [recordable_of_not_prime hround.1 hprime] at hsquares ⊢
              exact ih hsize hholds hlength (by omega) (by omega) hsquares
      · next hend =>
          rw [recordable_of_end hend]
          exact ⟨records, rfl, by simpa using hholds⟩

/-- A square that does not fit ends the evaluation. -/
theorem recordLoop_none (hmarked : Marked n sieve) {p : Nat}
    (hp : p ∈ recordable n capacity idx i) (hsquare : 2 ^ 31 ≤ p * p) :
    recordLoop n capacity sieve fuel i idx records = none := by
  induction fuel generalizing i idx records with
  | zero => rfl
  | succ fuel ih =>
      rw [recordLoop]
      split
      · next hround =>
          rw [hmarked i hround.1]
          simp only [Option.bind_eq_bind, Option.bind_some, decide_eq_true_iff]
          split
          · next hprime =>
              rw [recordable_of_prime hround.1 hround.2 hprime, List.mem_cons] at hp
              rcases hp with rfl | hp
              · rw [int, if_neg (Nat.not_lt_of_le hsquare), Option.bind_none]
              · simp only [Option.bind_eq_none_iff]
                rintro square - records' - i' hi'
                rw [(int_eq_some_iff.mp hi').2]
                exact ih hp
          · next hprime =>
              rw [recordable_of_not_prime hround.1 hprime] at hp
              simp only [Option.bind_eq_none_iff]
              intro i' hi'
              rw [(int_eq_some_iff.mp hi').2]
              exact ih hp
      · next hend =>
          rw [recordable_of_end hend] at hp
          cases hp

/-- The rest of the array keeps the values it has. -/
theorem copyLoop_spec (hholds : records.Holds rs) {out : List (Nat × Nat)}
    (hlength : i + fuel = rs.length) (hroom : rs.length ≤ out.length)
    (hcopied : out.take i = rs.take i) :
    copyLoop records fuel i out = some (rs ++ out.drop rs.length) := by
  induction fuel generalizing i out with
  | zero =>
      have hi : i = rs.length := hlength
      subst hi
      rw [List.take_length] at hcopied
      calc copyLoop records 0 rs.length out = some out := rfl
        _ = some (out.take rs.length ++ out.drop rs.length) := by rw [List.take_append_drop]
        _ = some (rs ++ out.drop rs.length) := by rw [hcopied]
  | succ fuel ih =>
      have hlt : i < rs.length := by omega
      have hget := List.getElem?_eq_getElem hlt
      rw [copyLoop, hholds i _ hget]
      simp only [Option.bind_eq_bind, Option.bind_some]
      rw [if_pos (by omega), ih (by omega) (by simpa using hroom)]
      · rw [List.drop_set_of_lt hlt]
      · rw [List.take_add_one, List.take_add_one, List.take_set_of_le (Nat.le_refl i), hcopied,
          List.getElem?_set_self (by omega), hget]

/-! ## The result -/

/-- The primes there is a record of. -/
def recordedPrimes (n capacity : Nat) : List Nat := (primesUpTo n).take capacity

/-- The table has the records in front, and zeroes behind them. -/
def primesTable (n capacity : Nat) : PrimesResult where
  records := (recordedPrimes n capacity).map record ++
    List.replicate (capacity - (recordedPrimes n capacity).length) (0, 0)
  count := (recordedPrimes n capacity).length

theorem recordable_two (hn : 1 ≤ n) : recordable n capacity 0 2 = recordedPrimes n capacity := by
  rw [recordable, primesFrom_two hn, recordedPrimes, Nat.sub_zero]

theorem computePrimesUpTo_table (hn : 1 ≤ n) (hfit : (n.sqrt + 1) * (n.sqrt + 1) < 2 ^ 31)
    (hsquares : ∀ p ∈ recordedPrimes n capacity, p * p < 2 ^ 31) :
    computePrimesUpTo n capacity = some (primesTable n capacity) := by
  obtain ⟨sieve, hsieve, hmarked⟩ := sieveUpTo_marked hn hfit
  have hsum : n + 1 < 2 ^ 31 := add_lt_of_square_lt hfit (Nat.sqrt_pos.mpr hn)
  rw [← recordable_two hn] at hsquares
  obtain ⟨records, hloop, hholds⟩ := recordLoop_records hmarked hsum (Buffer.size_raw capacity)
    (Buffer.holds_nil _) List.length_nil (by omega : 2 ≤ n + 1) (by omega : n + 1 < 2 + (n + 1))
    hsquares
  rw [recordable_two hn, Nat.zero_add] at hloop
  rw [recordable_two hn, List.nil_append] at hholds
  have hroom : (recordedPrimes n capacity).length ≤ capacity := List.length_take_le _ _
  have hlength : ((recordedPrimes n capacity).map record).length =
      (recordedPrimes n capacity).length := List.length_map record
  have hcopy : copyLoop records (recordedPrimes n capacity).length 0
      (List.replicate capacity (0, 0)) = _ :=
    copyLoop_spec hholds (by rw [hlength, Nat.zero_add]) (by simpa using hroom) rfl
  rw [List.drop_replicate, hlength] at hcopy
  have hsieve' : sieveOf n = some sieve := hsieve
  simp [computePrimesUpTo, hsieve', hloop, hcopy, primesTable]

theorem computePrimesUpTo_fits {out : PrimesResult} (h : computePrimesUpTo n capacity = some out) :
    1 ≤ n ∧ (n.sqrt + 1) * (n.sqrt + 1) < 2 ^ 31 ∧
      ∀ p ∈ recordedPrimes n capacity, p * p < 2 ^ 31 := by
  rw [computePrimesUpTo] at h
  simp only [Option.bind_eq_bind, Option.bind_eq_some_iff] at h
  obtain ⟨sieve, hsieve, ⟨idx, records⟩, hloop, -⟩ := h
  have hsieve : sieveUpTo n = some sieve := hsieve
  have hloop : recordLoop n capacity sieve (n + 1) 2 0 (.raw capacity) = some (idx, records) :=
    hloop
  obtain ⟨hn, hfit⟩ := sieveUpTo_fits hsieve
  refine ⟨hn, hfit, fun p hp => ?_⟩
  obtain ⟨sieve', hsieve', hmarked⟩ := sieveUpTo_marked hn hfit
  rw [hsieve, Option.some.injEq] at hsieve'
  subst hsieve'
  by_contra hsquare
  rw [← recordable_two hn] at hp
  rw [recordLoop_none hmarked hp (Nat.le_of_not_lt hsquare)] at hloop
  cases hloop

/-- There is no sieve with a negative bound: it would have no element to write, or
too many. -/
theorem sieveOf_negative (k : Nat) : sieveOf (.negSucc k) = none := by
  rw [sieveOf, Option.bind_eq_bind, Option.bind_eq_none_iff]
  intro k' hk
  obtain ⟨hlt, rfl⟩ := int_eq_some_iff.mp hk
  by_cases hzero : k' = 0
  · subst hzero
    rfl
  · rw [if_neg]
    omega

/-- The table of the primes is computed just where the numbers it needs are all
of type `int`: those the sieve squares, and the squares in the table. -/
theorem primes_computed_iff (n : Int) (capacity : Nat) (out : PrimesResult) :
    computePrimesUpTo n capacity = some out ↔
      1 ≤ n ∧ (n.toNat.sqrt + 1) * (n.toNat.sqrt + 1) < 2 ^ 31 ∧
        (∀ p ∈ recordedPrimes n.toNat capacity, p * p < 2 ^ 31) ∧
        out = primesTable n.toNat capacity := by
  cases n with
  | ofNat n =>
      constructor
      · intro h
        obtain ⟨hn, hfit, hsquares⟩ := computePrimesUpTo_fits h
        have htable := computePrimesUpTo_table hn hfit hsquares
        exact ⟨Int.ofNat_le.mpr hn, hfit, hsquares,
          (Option.some.inj (htable.symm.trans h)).symm⟩
      · rintro ⟨hn, hfit, hsquares, rfl⟩
        exact computePrimesUpTo_table (Int.ofNat_le.mp hn) hfit hsquares
  | negSucc k =>
      constructor
      · intro h
        rw [computePrimesUpTo, sieveOf_negative] at h
        cases h
      · intro h
        exact absurd h.1 (by omega)

end Ycetl.Ref.CompileTime
