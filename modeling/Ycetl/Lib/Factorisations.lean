import Mathlib.Data.Nat.Factorization.Basic
import Ycetl.Lib.Sieves

/-!
# Trial division

A number is factored by taking out of it all of one prime after another. What
has been taken out is a list of the primes with their exponents, in ascending
order; what is left has no smaller prime in it, so that it is itself prime as
soon as the square of the next prime is greater.
-/

namespace Ycetl.Lib

/-- The product of prime powers. -/
def powersProduct (es : List (Nat × Nat)) : Nat := (es.map fun e => e.1 ^ e.2).prod

/-- The primes of `n` in ascending order, each with its exponent. -/
structure IsFactorisation (n : Nat) (es : List (Nat × Nat)) : Prop where
  product : powersProduct es = n
  ascending : es.Pairwise fun d e => d.1 < e.1
  primes : ∀ e ∈ es, e.1.Prime ∧ 0 < e.2

/-- All primes below `i` have been taken out of `n`, and `rem` is left. -/
structure Divided (n : Nat) (es : List (Nat × Nat)) (rem i : Nat) : Prop where
  product : powersProduct es * rem = n
  ascending : es.Pairwise fun d e => d.1 < e.1
  primes : ∀ e ∈ es, e.1.Prime ∧ 0 < e.2
  below : ∀ e ∈ es, e.1 < i
  rest : ∀ p, p.Prime → p ∣ rem → i ≤ p

variable {n rem i p e : Nat} {es : List (Nat × Nat)}

theorem powersProduct_concat (es : List (Nat × Nat)) (p e : Nat) :
    powersProduct (es ++ [(p, e)]) = powersProduct es * p ^ e := by
  simp [powersProduct]

theorem Divided.start (n : Nat) : Divided n [] n 2 where
  product := Nat.one_mul n
  ascending := List.Pairwise.nil
  primes := fun e he => by cases he
  below := fun e he => by cases he
  rest := fun p hp _ => hp.two_le

/-- There is nothing to take out before the next prime. -/
theorem Divided.raise (h : Divided n es rem i) (hle : i ≤ p)
    (hnone : ∀ q, q.Prime → i ≤ q → p ≤ q) : Divided n es rem p where
  product := h.product
  ascending := h.ascending
  primes := h.primes
  below := fun e he => Nat.lt_of_lt_of_le (h.below e he) hle
  rest := fun q hq hdvd => hnone q hq (h.rest q hq hdvd)

/-- A prime that is not a factor. -/
theorem Divided.skip (h : Divided n es rem p) (hdvd : ¬ p ∣ rem) : Divided n es rem (p + 1) where
  product := h.product
  ascending := h.ascending
  primes := h.primes
  below := fun e he => Nat.lt_succ_of_lt (h.below e he)
  rest := fun q hq hq' => by
    rcases Nat.eq_or_lt_of_le (h.rest q hq hq') with rfl | hlt
    · exact absurd hq' hdvd
    · exact hlt

/-- A prime that is taken out. -/
theorem Divided.divide (h : Divided n es (p ^ e * rem) p) (hp : p.Prime) (he : 0 < e)
    (hdvd : ¬ p ∣ rem) : Divided n (es ++ [(p, e)]) rem (p + 1) where
  product := by rw [powersProduct_concat, Nat.mul_assoc, h.product]
  ascending := by
    refine List.pairwise_append.mpr ⟨h.ascending, List.pairwise_singleton _ _, ?_⟩
    intro d hd e he
    rw [List.mem_singleton.mp he]
    exact h.below d hd
  primes := fun d hd => by
    rcases List.mem_append.mp hd with hd | hd
    · exact h.primes d hd
    · rw [List.mem_singleton.mp hd]
      exact ⟨hp, he⟩
  below := fun d hd => by
    rcases List.mem_append.mp hd with hd | hd
    · exact Nat.lt_succ_of_lt (h.below d hd)
    · rw [List.mem_singleton.mp hd]
      exact Nat.lt_succ_self p
  rest := fun q hq hq' => by
    rcases Nat.eq_or_lt_of_le (h.rest q hq (Dvd.dvd.mul_left hq' _)) with rfl | hlt
    · exact absurd hq' hdvd
    · exact hlt

/-- What is left is prime when there is no room for two factors. -/
theorem Divided.prime_of_lt_square (h : Divided n es rem p) (hrem : 1 < rem)
    (hsquare : rem < p * p) : rem.Prime := by
  by_contra hprime
  obtain ⟨q, hq, hdvd, hsq⟩ := exists_prime_crossing hrem hprime
  have hpq := Nat.mul_self_le_mul_self (h.rest q hq hdvd)
  omega

/-- The last factor. -/
theorem Divided.last (h : Divided n es rem p) (hrem : 1 < rem) (hsquare : rem < p * p) :
    Divided n (es ++ [(rem, 1)]) 1 (rem + 1) := by
  have hprime := h.prime_of_lt_square hrem hsquare
  have hp : p ≤ rem := h.rest rem hprime (Nat.dvd_refl rem)
  have hself : Divided n es (rem ^ 1 * 1) rem :=
    { product := by rw [pow_one, Nat.mul_one, h.product]
      ascending := h.ascending
      primes := h.primes
      below := fun e he => Nat.lt_of_lt_of_le (h.below e he) hp
      rest := fun q hq hdvd => by
        rw [pow_one, Nat.mul_one] at hdvd
        exact Nat.le_of_eq ((Nat.prime_dvd_prime_iff_eq hq hprime).mp hdvd).symm }
  exact hself.divide hprime Nat.one_pos hprime.not_dvd_one

theorem Divided.done (h : Divided n es 1 i) : IsFactorisation n es :=
  ⟨by rw [← h.product, Nat.mul_one], h.ascending, h.primes⟩

/-- With no prime to come that could divide it, nothing is left. -/
theorem Divided.rem_eq_one (h : Divided n es rem i) (hrem : rem ≠ 0)
    (hnone : ∀ q, q.Prime → i ≤ q → rem < q) : rem = 1 := by
  by_contra hone
  have hprime := Nat.minFac_prime hone
  have hlt := hnone rem.minFac hprime (h.rest rem.minFac hprime (Nat.minFac_dvd rem))
  exact absurd (Nat.minFac_le (Nat.pos_of_ne_zero hrem)) (Nat.not_le_of_lt hlt)

/-! ## How many factors there are -/

theorem dvd_powersProduct {d : Nat × Nat} (hd : d ∈ es) (hpos : 0 < d.2) :
    d.1 ∣ powersProduct es :=
  (dvd_pow_self d.1 (Nat.ne_of_gt hpos)).trans (List.dvd_prod (List.mem_map_of_mem hd))

/-- There is an entry for each prime factor at the most. -/
theorem Divided.length_le (h : Divided n es rem i) (hn : n ≠ 0) :
    es.length ≤ n.primeFactors.card := by
  have hnodup : (es.map Prod.fst).Nodup :=
    List.pairwise_map.mpr (h.ascending.imp fun hlt => Nat.ne_of_lt hlt)
  have hsub : (es.map Prod.fst).toFinset ⊆ n.primeFactors := by
    intro p hp
    obtain ⟨d, hd, rfl⟩ := List.mem_map.mp (List.mem_toFinset.mp hp)
    obtain ⟨hprime, hpos⟩ := h.primes d hd
    refine Nat.mem_primeFactors.mpr ⟨hprime, ?_, hn⟩
    rw [← h.product]
    exact Dvd.dvd.mul_right (dvd_powersProduct hd hpos) rem
  calc es.length = (es.map Prod.fst).toFinset.card := by
        rw [List.toFinset_card_of_nodup hnodup, List.length_map]
    _ ≤ n.primeFactors.card := Finset.card_le_card hsub

/-- A number is at least as large as that many twos multiplied. -/
theorem card_primeFactors_le {k : Nat} (h : n < 2 ^ (k + 1)) : n.primeFactors.card ≤ k := by
  rcases Nat.eq_zero_or_pos n with rfl | hpos
  · simp
  · have hle : 2 ^ n.primeFactors.card ≤ n := by
      calc 2 ^ n.primeFactors.card = ∏ _p ∈ n.primeFactors, 2 := (Finset.prod_const 2).symm
        _ ≤ ∏ p ∈ n.primeFactors, p :=
          Finset.prod_le_prod' fun p hp => (Nat.prime_of_mem_primeFactors hp).two_le
        _ ≤ n := Nat.le_of_dvd hpos (Nat.prod_primeFactors_dvd n)
    exact Nat.lt_succ_iff.mp ((Nat.pow_lt_pow_iff_right (by decide)).mp (hle.trans_lt h))

end Ycetl.Lib
