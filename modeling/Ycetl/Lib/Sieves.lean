import Mathlib.Data.Nat.Prime.Basic

/-!
# The sieve of Eratosthenes

A number is crossed out by the primes below some bound that divide it and
whose squares it has reached. What survives at its own turn is a prime, and
once the square of the bound has passed all numbers, only primes survive.
-/

namespace Ycetl.Lib

/-- No prime below `i` has crossed `k` out. -/
def Survives (i k : Nat) : Prop := 2 ≤ k ∧ ∀ p, p.Prime → p < i → p ∣ k → k < p * p

theorem survives_two (k : Nat) : Survives 2 k ↔ 2 ≤ k :=
  ⟨And.left, fun hk => ⟨hk, fun _ hp hlt _ => absurd hp.two_le (Nat.not_le_of_lt hlt)⟩⟩

/-- A number that is not prime is crossed out by its least factor. -/
theorem exists_prime_crossing {k : Nat} (hk : 2 ≤ k) (hprime : ¬ k.Prime) :
    ∃ p, p.Prime ∧ p ∣ k ∧ p * p ≤ k := by
  refine ⟨k.minFac, Nat.minFac_prime (by omega), Nat.minFac_dvd k, ?_⟩
  have hsq := Nat.minFac_sq_le_self (by omega) hprime
  rwa [pow_two] at hsq

theorem prime_survives {k : Nat} (hk : k.Prime) (i : Nat) : Survives i k := by
  refine ⟨hk.two_le, fun p hp _ hdvd => ?_⟩
  rw [(Nat.prime_dvd_prime_iff_eq hp hk).mp hdvd]
  exact (Nat.lt_mul_self_iff).mpr hk.one_lt

theorem survives_self {i : Nat} (hi : 2 ≤ i) : Survives i i ↔ i.Prime := by
  refine ⟨fun h => ?_, fun h => prime_survives h i⟩
  by_contra hprime
  obtain ⟨p, hp, hdvd, hsq⟩ := exists_prime_crossing hi hprime
  have hlt : p < p * p := Nat.lt_mul_self_iff.mpr hp.one_lt
  exact absurd (h.2 p hp (Nat.lt_of_lt_of_le hlt hsq) hdvd) (Nat.not_lt_of_le hsq)

/-- In the end the primes are left. -/
theorem survives_iff_prime {n i k : Nat} (hn : n < i * i) (hk : k ≤ n) :
    Survives i k ↔ k.Prime := by
  refine ⟨fun h => ?_, fun h => prime_survives h i⟩
  by_contra hprime
  obtain ⟨p, hp, hdvd, hsq⟩ := exists_prime_crossing h.1 hprime
  have hlt : p < i := Nat.mul_self_lt_mul_self_iff.mp (by omega)
  exact absurd (h.2 p hp hlt hdvd) (Nat.not_lt_of_le hsq)

/-- A prime crosses out its multiples from its square on. -/
theorem survives_succ_of_prime {i : Nat} (hi : i.Prime) (k : Nat) :
    Survives (i + 1) k ↔ Survives i k ∧ ¬ (i * i ≤ k ∧ i ∣ k) := by
  constructor
  · intro h
    refine ⟨⟨h.1, fun p hp hlt => h.2 p hp (Nat.lt_succ_of_lt hlt)⟩, fun hcrossed => ?_⟩
    exact absurd (h.2 i hi (Nat.lt_succ_self i) hcrossed.2) (Nat.not_lt_of_le hcrossed.1)
  · intro h
    refine ⟨h.1.1, fun p hp hlt hdvd => ?_⟩
    rcases Nat.lt_succ_iff_lt_or_eq.mp hlt with hlt | rfl
    · exact h.1.2 p hp hlt hdvd
    · by_contra hge
      exact h.2 ⟨Nat.le_of_not_lt hge, hdvd⟩

/-- What is not prime has no turn. -/
theorem survives_succ_of_not_prime {i : Nat} (hi : ¬ i.Prime) (k : Nat) :
    Survives (i + 1) k ↔ Survives i k := by
  constructor
  · exact fun h => ⟨h.1, fun p hp hlt => h.2 p hp (Nat.lt_succ_of_lt hlt)⟩
  · refine fun h => ⟨h.1, fun p hp hlt hdvd => ?_⟩
    rcases Nat.lt_succ_iff_lt_or_eq.mp hlt with hlt | rfl
    · exact h.2 p hp hlt hdvd
    · exact absurd hp hi

/-! ## The primes in order -/

/-- The primes from `i` to `n`. -/
def primesFrom (n i : Nat) : List Nat := (List.range' i (n + 1 - i)).filter fun p => p.Prime

/-- The primes up to `n`. -/
def primesUpTo (n : Nat) : List Nat := (List.range (n + 1)).filter fun p => p.Prime

variable {n i : Nat}

theorem primesFrom_of_lt (h : n < i) : primesFrom n i = [] := by
  rw [primesFrom, Nat.sub_eq_zero_of_le h]
  rfl

theorem primesFrom_of_prime (h : i ≤ n) (hi : i.Prime) :
    primesFrom n i = i :: primesFrom n (i + 1) := by
  rw [primesFrom, Nat.succ_sub h, List.range'_succ]
  simp [hi, primesFrom]

theorem primesFrom_of_not_prime (h : i ≤ n) (hi : ¬ i.Prime) :
    primesFrom n i = primesFrom n (i + 1) := by
  rw [primesFrom, Nat.succ_sub h, List.range'_succ]
  simp [hi, primesFrom]

theorem length_primesFrom_le (n i : Nat) : (primesFrom n i).length ≤ n + 1 - i := by
  have hle := List.length_filter_le (fun p => decide p.Prime) (List.range' i (n + 1 - i))
  rwa [List.length_range'] at hle

theorem mem_primesFrom {p : Nat} : p ∈ primesFrom n i ↔ i ≤ p ∧ p ≤ n ∧ p.Prime := by
  rw [primesFrom, List.mem_filter, List.mem_range'_1, decide_eq_true_iff]
  constructor
  · rintro ⟨⟨hle, hlt⟩, hp⟩
    exact ⟨hle, by omega, hp⟩
  · rintro ⟨hle, hn, hp⟩
    exact ⟨⟨hle, by omega⟩, hp⟩

/-- The first of them is the next prime. -/
theorem primesFrom_next {p : Nat} {ps : List Nat} (h : primesFrom n i = p :: ps) :
    ps = primesFrom n (p + 1) ∧ ∀ q, q.Prime → i ≤ q → p ≤ q := by
  generalize hk : n + 1 - i = k
  induction k generalizing i with
  | zero =>
      rw [primesFrom_of_lt (by omega)] at h
      cases h
  | succ k ih =>
      by_cases hi : i.Prime
      · rw [primesFrom_of_prime (by omega) hi] at h
        cases h
        exact ⟨rfl, fun q _ hq => hq⟩
      · rw [primesFrom_of_not_prime (by omega) hi] at h
        obtain ⟨hps, hnext⟩ := ih h (by omega)
        refine ⟨hps, fun q hq hle => hnext q hq ?_⟩
        rcases Nat.eq_or_lt_of_le hle with rfl | hlt
        · exact absurd hq hi
        · exact hlt

theorem primesFrom_two (h : 1 ≤ n) : primesFrom n 2 = primesUpTo n := by
  rw [primesUpTo, List.range_eq_range']
  have hzero : primesFrom n 0 = primesFrom n 1 :=
    primesFrom_of_not_prime (Nat.zero_le n) Nat.not_prime_zero
  have hone : primesFrom n 1 = primesFrom n 2 := primesFrom_of_not_prime h Nat.not_prime_one
  exact (hzero.trans hone).symm

end Ycetl.Lib
