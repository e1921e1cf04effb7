import Ycetl.Lib.Factorisations
import Ycetl.Proofs.CompileTimePrimes

/-!
# The factor tree

All primes up to `kMax` are listed, so that trial division with them comes to
an end for every number of the tree. The tree is then looked at through
`find_number`: it finds the numbers that are in the tree and no others, and an
entry multiplies out to its number.
-/

namespace Ycetl.Ref.CompileTime

open Ycetl.Lib

variable {n kMax i p rem fuel primeCount : Nat} {sieve : Buffer Bool} {primes : Buffer Nat}
  {ps : List Nat}

/-! ## The list of the primes -/

theorem primesLoop_primes (hmarked : Marked n sieve) (hfit : n + 1 < 2 ^ 31)
    (hsize : primes.size = n + 1) (hholds : primes.Holds ps) (hlength : ps.length = primeCount)
    (hcount : primeCount < i) (hi : i ≤ n + 1) (hfuel : n + 1 < i + fuel) :
    ∃ primes', primesLoop n sieve fuel i primeCount primes =
        some (primeCount + (primesFrom n i).length, primes') ∧
      primes'.Holds (ps ++ primesFrom n i) := by
  induction fuel generalizing i primeCount primes ps with
  | zero => omega
  | succ fuel ih =>
      rw [primesLoop]
      split
      · next hle =>
          have hnext : int (i + 1) = some (i + 1) := int_of_lt (by omega)
          rw [hmarked i hle]
          simp only [Option.bind_eq_bind, Option.bind_some, decide_eq_true_iff, hnext]
          split
          · next hprime =>
              have hwrite := Buffer.write_of_lt (by omega : primeCount < primes.size) i
              rw [hwrite, Option.bind_some, int_of_lt (by omega : primeCount + 1 < 2 ^ 31),
                Option.bind_some]
              rw [← hlength] at hwrite
              obtain ⟨primes', hloop, hholds'⟩ := ih ((Buffer.size_write hwrite).trans hsize)
                (hholds.concat hwrite) (by rw [List.length_append, hlength, List.length_singleton])
                (by omega : primeCount + 1 < i + 1) (by omega) (by omega)
              rw [primesFrom_of_prime hle hprime]
              rw [hlength] at hloop
              refine ⟨primes', ?_, ?_⟩
              · rw [hloop, List.length_cons, Nat.add_right_comm, Nat.add_assoc]
              · rwa [List.append_assoc] at hholds'
          · next hprime =>
              rw [primesFrom_of_not_prime hle hprime]
              exact ih hsize hholds hlength (by omega) (by omega) (by omega)
      · next hgt =>
          rw [primesFrom_of_lt (Nat.lt_of_not_le hgt)]
          exact ⟨primes, rfl, by simpa using hholds⟩

/-! ## Trial division -/

/-- All of a prime is taken out. -/
theorem divideLoop_divides {prime exp : Nat} (hprime : 2 ≤ prime) (hrem : 0 < rem)
    (hfit : exp + rem < 2 ^ 31) (hfuel : rem < fuel) :
    ∃ rem' e, divideLoop prime fuel rem exp = some (rem', exp + e) ∧ rem = prime ^ e * rem' ∧
      ¬ prime ∣ rem' := by
  induction fuel generalizing rem exp with
  | zero => exact absurd hfuel (Nat.not_lt_zero _)
  | succ fuel ih =>
      rw [divideLoop, if_neg (by omega)]
      split
      · next hmod =>
          have hdvd : prime ∣ rem := Nat.dvd_of_mod_eq_zero hmod
          have hpos : 0 < rem / prime := Nat.div_pos (Nat.le_of_dvd hrem hdvd) (by omega)
          have hlt : rem / prime < rem := Nat.div_lt_self hrem hprime
          rw [int_of_lt (by omega : exp + 1 < 2 ^ 31)]
          simp only [Option.bind_eq_bind, Option.bind_some]
          obtain ⟨rem', e, hloop, hpow, hrest⟩ :=
            ih hpos (by omega : exp + 1 + rem / prime < 2 ^ 31) (by omega)
          refine ⟨rem', e + 1, ?_, ?_, hrest⟩
          · rw [hloop, Nat.add_right_comm, Nat.add_assoc]
          · calc rem = prime * (rem / prime) := (Nat.mul_div_cancel' hdvd).symm
              _ = prime * (prime ^ e * rem') := by rw [← hpow]
              _ = prime ^ (e + 1) * rem' := by rw [pow_succ', Nat.mul_assoc]
      · next hmod =>
          exact ⟨rem, 0, rfl, by rw [pow_zero, Nat.one_mul], fun hdvd =>
            hmod (Nat.mod_eq_zero_of_dvd hdvd)⟩

/-- The factors that are listed. -/
def NumberEntry.listed (ne : NumberEntry) : List (Nat × Nat) :=
  (ne.factors.take ne.factorCount).map fun f => (f.prime, f.exponent)

/-- The entry of `n`, whose array has `slots` factors. -/
structure NumberEntry.Factored (slots n : Nat) (ne : NumberEntry) : Prop where
  number : ne.n = n
  length : ne.factors.length = slots
  count : ne.factorCount ≤ slots
  factorisation : IsFactorisation n ne.listed

/-- The entry of `n` while it is being factored. -/
structure NumberEntry.Factoring (slots n rem i : Nat) (ne : NumberEntry) : Prop where
  number : ne.n = n
  length : ne.factors.length = slots
  count : ne.factorCount ≤ slots
  divided : Divided n ne.listed rem i

variable {slots e : Nat} {ne : NumberEntry}

theorem NumberEntry.length_listed (ne : NumberEntry) (h : ne.factorCount ≤ ne.factors.length) :
    ne.listed.length = ne.factorCount := by
  simp [listed, h]

/-- There is a slot for every factor that is found. -/
theorem NumberEntry.add_listed {rem' i' : Nat} (h : ne.Factoring slots n rem i) (hn : n ≠ 0)
    (hcard : n.primeFactors.card ≤ slots) (hslots : slots < 2 ^ 31)
    (hnext : Divided n (ne.listed ++ [(p, e)]) rem' i') :
    ∃ ne', ne.add p e = some ne' ∧ ne'.Factoring slots n rem' i' := by
  have hcount : ne.factorCount ≤ ne.factors.length := h.length ▸ h.count
  have hlength := hnext.length_le hn
  rw [List.length_append, ne.length_listed hcount, List.length_singleton] at hlength
  have hlt : ne.factorCount < ne.factors.length := by
    rw [h.length]
    omega
  have hint : int (ne.factorCount + 1) = some (ne.factorCount + 1) := int_of_lt (by omega)
  have hlisted : ((ne.factors.set ne.factorCount ⟨p, e⟩).take (ne.factorCount + 1)).map
      (fun f => (f.prime, f.exponent)) = ne.listed ++ [(p, e)] := by
    rw [List.take_add_one, List.take_set_of_le (Nat.le_refl _), List.getElem?_set_self hlt,
      List.map_append]
    rfl
  refine ⟨{ ne with
    factorCount := ne.factorCount + 1
    factors := ne.factors.set ne.factorCount ⟨p, e⟩ }, ?_, h.number, ?_, ?_, ?_⟩
  · simp [NumberEntry.add, hlt, hint]
  · exact List.length_set.trans h.length
  · exact Nat.le_trans hlength hcard
  · rw [← hlisted] at hnext
    exact hnext

/-- The primes that are left to try are those from `i` on. -/
theorem factorLoop_factors (hholds : primes.Holds (primesFrom kMax 2))
    (hcount : primeCount = (primesFrom kMax 2).length) (hmax : kMax * kMax < 2 ^ 31)
    (hcard : n.primeFactors.card ≤ slots) (hslots : slots < 2 ^ 31) (hn : n ≠ 0)
    (h : ne.Factoring slots n rem i) (hrem : rem ≠ 0) (hle : rem ≤ kMax)
    (hleft : (primesFrom kMax 2).drop p = primesFrom kMax i) (hp : p ≤ primeCount)
    (hfuel : primeCount < p + fuel) :
    ∃ ne', factorLoop primes primeCount fuel p rem ne = some ne' ∧ ne'.Factored slots n := by
  have hself := Nat.le_mul_self kMax
  have hprimes := length_primesFrom_le kMax 2
  induction fuel generalizing p rem i ne with
  | zero => omega
  | succ fuel ih =>
      rw [factorLoop]
      split
      · next hround =>
          obtain ⟨q, qs, hq⟩ := List.exists_cons_of_length_pos
            (by rw [List.length_drop]; omega : 0 < ((primesFrom kMax 2).drop p).length)
          have hget : (primesFrom kMax 2)[p]? = some q := by
            rw [← List.head?_drop, hq, List.head?_cons]
          rw [hleft] at hq
          obtain ⟨hqs, hnext⟩ := primesFrom_next hq
          obtain ⟨hiq, hqmax, hprime⟩ := mem_primesFrom.mp (hq ▸ List.mem_cons_self)
          have hsquare : q * q < 2 ^ 31 :=
            Nat.lt_of_le_of_lt (Nat.mul_self_le_mul_self hqmax) hmax
          have hraised : ne.Factoring slots n rem q :=
            ⟨h.number, h.length, h.count, h.divided.raise hiq hnext⟩
          simp only [hholds p q hget, Option.bind_eq_bind, Option.bind_some, int_of_lt hsquare]
          split
          · next hlast =>
              obtain ⟨ne', hadd, hne'⟩ := ne.add_listed hraised hn hcard hslots
                (hraised.divided.last hround.2 hlast.1)
              exact ⟨ne', hadd, hne'.number, hne'.length, hne'.count, hne'.divided.done⟩
          · next hmore =>
              obtain ⟨rem', e, hdivide, hpow, hrest⟩ := divideLoop_divides hprime.two_le
                (Nat.pos_of_ne_zero hrem) (by omega : 0 + rem < 2 ^ 31) (Nat.lt_succ_self rem)
              have hrem' : rem' ≠ 0 := by
                rintro rfl
                exact hrem hpow
              have hle' : rem' ≤ kMax := by
                refine Nat.le_trans ?_ hle
                rw [hpow]
                exact Nat.le_mul_of_pos_left rem' (Nat.pow_pos hprime.pos)
              have hnextLeft : (primesFrom kMax 2).drop (p + 1) = primesFrom kMax (q + 1) := by
                rw [← List.drop_drop, hleft, hq, hqs]
                rfl
              have hadded : ∃ ne', ne.addPower q e = some ne' ∧
                  ne'.Factoring slots n rem' (q + 1) := by
                rw [hpow] at hraised
                rw [NumberEntry.addPower]
                split
                · next he =>
                    exact ne.add_listed hraised hn hcard hslots
                      (hraised.divided.divide hprime he hrest)
                · next he =>
                    have hzero : e = 0 := by omega
                    subst hzero
                    rw [pow_zero, Nat.one_mul] at hraised
                    exact ⟨ne, rfl, hraised.number, hraised.length, hraised.count,
                      hraised.divided.skip hrest⟩
              obtain ⟨ne', hadd, hne'⟩ := hadded
              rw [hdivide, Option.bind_some]
              simp only [Nat.zero_add, hadd, Option.bind_some]
              have hnextInt : int (p + 1) = some (p + 1) := int_of_lt (by omega)
              rw [hnextInt, Option.bind_some]
              exact ih hne' hrem' hle' hnextLeft (by omega) (by omega)
      · next hend =>
          have hone : rem = 1 := by
            by_cases hlt : 1 < rem
            · have hnil : primesFrom kMax i = [] := by
                rw [← hleft, List.drop_eq_nil_iff]
                omega
              refine h.divided.rem_eq_one hrem fun q hq hiq => ?_
              by_contra hge
              have hmem : q ∈ primesFrom kMax i := mem_primesFrom.mpr ⟨hiq, by omega, hq⟩
              rw [hnil] at hmem
              cases hmem
            · omega
          rw [hone] at h
          exact ⟨ne, rfl, h.number, h.length, h.count, h.divided.done⟩

/-! ## The buckets -/

/-- All decades end below `kMax`, and there is room for what is computed. -/
structure TreeSizes.Fits (sizes : TreeSizes) : Prop where
  one_le : 1 ≤ sizes.kMax
  square : sizes.kMax * sizes.kMax < 2 ^ 31
  decade : sizes.kPerBucket ≤ 10
  buckets : sizes.kBuckets * 10 ≤ sizes.kMax + 1
  slots : sizes.kMaxFactors < 2 ^ 31
  factors : ∀ n < sizes.kBuckets * 10, n.primeFactors.card ≤ sizes.kMaxFactors

/-- The first number in bucket `b`. -/
def firstNumber (b : Nat) : Nat := max 2 (b * 10)

variable {sizes : TreeSizes} {b k : Nat} {bucket : BucketEntry}

/-- A bucket has all its slots from the start. -/
structure BucketEntry.Shaped (sizes : TreeSizes) (bucket : BucketEntry) : Prop where
  length : bucket.numbers.length = sizes.kPerBucket
  slots : ∀ ne ∈ bucket.numbers, ne.factors.length = sizes.kMaxFactors

/-- Bucket `b` with its first `k` numbers, less those that are below two. -/
structure BucketEntry.Filled (sizes : TreeSizes) (b k : Nat) (bucket : BucketEntry) : Prop where
  shaped : bucket.Shaped sizes
  populated : bucket.populated = b * 10 + k - firstNumber b
  entries : ∀ j < bucket.populated, ∃ ne, bucket.numbers[j]? = some ne ∧
    ne.Factored sizes.kMaxFactors (firstNumber b + j)

/-- The slot behind the last entry takes the next number. -/
theorem BucketEntry.Filled.next (h : bucket.Filled sizes b k) (hk : k < sizes.kPerBucket)
    (htwo : 2 ≤ b * 10 + k) (hne : ne.Factored sizes.kMaxFactors (b * 10 + k)) :
    BucketEntry.Filled sizes b (k + 1) { bucket with
      populated := bucket.populated + 1
      numbers := bucket.numbers.set bucket.populated ne } := by
  have hpopulated := h.populated
  have hfirst : firstNumber b + bucket.populated = b * 10 + k := by
    rw [firstNumber] at *
    omega
  have hlt : bucket.populated < bucket.numbers.length := by
    rw [h.shaped.length]
    rw [firstNumber] at hpopulated
    omega
  refine ⟨⟨List.length_set.trans h.shaped.length, fun ne' hne' => ?_⟩, ?_, fun j hj => ?_⟩
  · rcases List.mem_or_eq_of_mem_set hne' with hmem | rfl
    · exact h.shaped.slots ne' hmem
    · exact hne.length
  · show bucket.populated + 1 = b * 10 + (k + 1) - firstNumber b
    omega
  · rcases Nat.eq_or_lt_of_le (Nat.lt_succ_iff.mp hj) with rfl | hj
    · exact ⟨ne, List.getElem?_set_self hlt, hfirst ▸ hne⟩
    · rw [List.getElem?_set_ne (Nat.ne_of_gt hj)]
      exact h.entries j hj

/-- A number below two is left out. -/
theorem BucketEntry.Filled.skip (h : bucket.Filled sizes b k) (hlt : b * 10 + k < 2) :
    bucket.Filled sizes b (k + 1) := by
  refine ⟨h.shaped, ?_, h.entries⟩
  rw [h.populated, firstNumber]
  omega

theorem numberLoop_fills (hsizes : sizes.Fits) (hholds : primes.Holds (primesFrom sizes.kMax 2))
    (hcount : primeCount = (primesFrom sizes.kMax 2).length) (hb : b < sizes.kBuckets)
    (h : bucket.Filled sizes b k) (hk : k ≤ sizes.kPerBucket)
    (hfuel : sizes.kPerBucket < k + fuel) :
    ∃ bucket', numberLoop sizes primes primeCount b fuel k bucket = some bucket' ∧
      bucket'.decadeStart = bucket.decadeStart ∧ bucket'.Filled sizes b sizes.kPerBucket := by
  induction fuel generalizing k bucket with
  | zero => omega
  | succ fuel ih =>
      rw [numberLoop]
      split
      · next hround =>
          have hself := Nat.le_mul_self sizes.kMax
          have hsquare := hsizes.square
          have hbuckets := hsizes.buckets
          have hdecade := hsizes.decade
          have hn : b * 10 + k < sizes.kBuckets * 10 := by omega
          simp only [Option.bind_eq_bind, Option.bind_some, int_of_lt (by omega : b * 10 < 2 ^ 31),
            int_of_lt (by omega : b * 10 + k < 2 ^ 31), int_of_lt (by omega : k + 1 < 2 ^ 31)]
          split
          · next hlt => exact ih (h.skip hlt) (by omega) (by omega)
          · next hge =>
              have hpopulated := h.populated
              rw [firstNumber] at hpopulated
              have hlt : bucket.populated < bucket.numbers.length := by
                rw [h.shaped.length]
                omega
              have hget := List.getElem?_eq_getElem hlt
              have hslots := h.shaped.slots _ (List.getElem_mem hlt)
              have hstart : NumberEntry.Factoring sizes.kMaxFactors (b * 10 + k) (b * 10 + k) 2
                  { bucket.numbers[bucket.populated] with n := b * 10 + k, factorCount := 0 } :=
                ⟨rfl, hslots, Nat.zero_le _, Divided.start _⟩
              obtain ⟨ne, hfactor, hne⟩ := factorLoop_factors hholds hcount hsquare
                (hsizes.factors _ hn) hsizes.slots (by omega : b * 10 + k ≠ 0) hstart (by omega)
                (by omega) (List.drop_zero) (Nat.zero_le _)
                (by omega : primeCount < 0 + (primeCount + 1))
              simp only [hget, Option.bind_some, hfactor,
                int_of_lt (by omega : bucket.populated + 1 < 2 ^ 31)]
              obtain ⟨bucket', hloop, hstartOf, hfilled⟩ :=
                ih (h.next hround (by omega) hne) (by omega) (by omega)
              exact ⟨bucket', hloop, hstartOf, hfilled⟩
      · next hend =>
          have heq : k = sizes.kPerBucket := by omega
          subst heq
          exact ⟨bucket, rfl, rfl, h⟩

/-! ## The tree -/

/-- The tree when it is the turn of bucket `b`. -/
structure FactorTree.Filled (sizes : TreeSizes) (b : Nat) (tree : FactorTree) : Prop where
  length : tree.buckets.length = sizes.kBuckets
  shaped : ∀ bucket ∈ tree.buckets, bucket.Shaped sizes
  filled : ∀ c < b, ∃ bucket, tree.buckets[c]? = some bucket ∧ bucket.decadeStart = c * 10 ∧
    bucket.Filled sizes c sizes.kPerBucket

variable {tree : FactorTree}

theorem FactorTree.filled_zero (sizes : TreeSizes) : (FactorTree.zero sizes).Filled sizes 0 := by
  refine ⟨List.length_replicate, fun bucket hbucket => ?_,
    fun c hc => absurd hc (Nat.not_lt_zero c)⟩
  rw [List.eq_of_mem_replicate hbucket]
  refine ⟨List.length_replicate, fun ne hne => ?_⟩
  rw [List.eq_of_mem_replicate hne]
  exact List.length_replicate

theorem FactorTree.Filled.next (h : tree.Filled sizes b) (hb : b < sizes.kBuckets)
    (hdecade : bucket.decadeStart = b * 10) (hbucket : bucket.Filled sizes b sizes.kPerBucket) :
    FactorTree.Filled sizes (b + 1) ⟨tree.buckets.set b bucket⟩ := by
  refine ⟨List.length_set.trans h.length, fun bucket' hmem => ?_, fun c hc => ?_⟩
  · rcases List.mem_or_eq_of_mem_set hmem with hmem | rfl
    · exact h.shaped bucket' hmem
    · exact hbucket.shaped
  · rcases Nat.eq_or_lt_of_le (Nat.lt_succ_iff.mp hc) with rfl | hc
    · exact ⟨bucket, List.getElem?_set_self (h.length ▸ hb), hdecade, hbucket⟩
    · rw [List.getElem?_set_ne (Nat.ne_of_gt hc)]
      exact h.filled c hc

theorem bucketLoop_fills (hsizes : sizes.Fits) (hholds : primes.Holds (primesFrom sizes.kMax 2))
    (hcount : primeCount = (primesFrom sizes.kMax 2).length) (h : tree.Filled sizes b)
    (hb : b ≤ sizes.kBuckets) (hfuel : sizes.kBuckets < b + fuel) :
    ∃ tree', bucketLoop sizes primes primeCount fuel b tree = some tree' ∧
      tree'.Filled sizes sizes.kBuckets := by
  induction fuel generalizing b tree with
  | zero => omega
  | succ fuel ih =>
      rw [bucketLoop]
      split
      · next hround =>
          have hself := Nat.le_mul_self sizes.kMax
          have hsquare := hsizes.square
          have hbuckets := hsizes.buckets
          have hlt : b < tree.buckets.length := h.length ▸ hround
          have hget := List.getElem?_eq_getElem hlt
          have hempty : BucketEntry.Filled sizes b 0
              { tree.buckets[b] with decadeStart := b * 10, populated := 0 } := by
            have hshaped := h.shaped _ (List.getElem_mem hlt)
            refine ⟨⟨hshaped.length, hshaped.slots⟩, ?_, fun j hj => absurd hj (Nat.not_lt_zero j)⟩
            show 0 = b * 10 + 0 - firstNumber b
            rw [firstNumber]
            omega
          obtain ⟨bucket, hloop, hdecade, hbucket⟩ := numberLoop_fills hsizes hholds hcount hround
            hempty (Nat.zero_le _) (by omega : sizes.kPerBucket < 0 + (sizes.kPerBucket + 1))
          simp only [hget, Option.bind_eq_bind, Option.bind_some, hloop,
            int_of_lt (by omega : b * 10 < 2 ^ 31), int_of_lt (by omega : b + 1 < 2 ^ 31)]
          exact ih (h.next hround hdecade hbucket) (by omega) (by omega)
      · next hend =>
          have heq : b = sizes.kBuckets := by omega
          subst heq
          exact ⟨tree, rfl, h⟩

theorem TreeSizes.Fits.small (hsizes : sizes.Fits) : sizes.kMax ≤ 46340 := by
  by_contra hgt
  have hsquare := hsizes.square
  have hle := Nat.mul_self_le_mul_self (Nat.lt_of_not_le hgt)
  omega

theorem TreeSizes.Fits.root (hsizes : sizes.Fits) :
    (sizes.kMax.sqrt + 1) * (sizes.kMax.sqrt + 1) < 2 ^ 31 := by
  have hsmall := hsizes.small
  have hle : sizes.kMax.sqrt ≤ 46340 := (Nat.sqrt_le_self _).trans hsmall
  have hsq : sizes.kMax.sqrt * sizes.kMax.sqrt ≤ sizes.kMax := Nat.sqrt_le sizes.kMax
  rw [Nat.mul_add, Nat.add_mul]
  omega

theorem buildTree_fills (hsizes : sizes.Fits) :
    ∃ tree, buildTree sizes = some tree ∧ tree.Filled sizes sizes.kBuckets := by
  have hsmall := hsizes.small
  have hone := hsizes.one_le
  obtain ⟨sieve, hsieve, hmarked⟩ := sieveUpTo_marked hone hsizes.root
  obtain ⟨primes, hprimes, hholds⟩ := primesLoop_primes hmarked (by omega)
    (Buffer.size_raw (sizes.kMax + 1)) (Buffer.holds_nil _) List.length_nil
    (by omega : 0 < 2) (by omega : 2 ≤ sizes.kMax + 1)
    (by omega : sizes.kMax + 1 < 2 + (sizes.kMax + 1))
  rw [Nat.zero_add] at hprimes
  rw [List.nil_append] at hholds
  obtain ⟨tree, htree, hfilled⟩ := bucketLoop_fills hsizes hholds rfl
    (FactorTree.filled_zero sizes) (Nat.zero_le _)
    (by omega : sizes.kBuckets < 0 + (sizes.kBuckets + 1))
  exact ⟨tree, by simp [buildTree, hsieve, hprimes, htree], hfilled⟩

/-! ## Looking a number up -/

/-- The search goes through numbers without a gap. -/
theorem findLoop_finds {s m : Nat} {x : Int} (hentries : ∀ j < i + m, ∃ ne,
      bucket.numbers[j]? = some ne ∧ ne.n = s + j) (hx : (s : Int) + i ≤ x) :
    findLoop bucket x m i =
      some (if x < s + i + m then bucket.numbers[(x - s).toNat]? else none) := by
  induction m generalizing i with
  | zero =>
      rw [if_neg (by omega)]
      rfl
  | succ m ih =>
      obtain ⟨ne, hget, hn⟩ := hentries i (by omega)
      rw [findLoop, hget]
      simp only [Option.bind_eq_bind, Option.bind_some, hn]
      split
      · next heq =>
          have hi : (x - s).toNat = i := by omega
          rw [if_pos (by omega), hi, hget]
      · next hne =>
          rw [ih (fun j hj => hentries j (by omega)) (by omega)]
          have hiff : x < s + ((i + 1 : Nat) : Int) + m ↔ x < s + i + ((m + 1 : Nat) : Int) := by
            omega
          simp only [hiff]

theorem findLoop_before {s m : Nat} {x : Int} (hentries : ∀ j < i + m, ∃ ne,
      bucket.numbers[j]? = some ne ∧ ne.n = s + j) (hx : x < (s : Int) + i) :
    findLoop bucket x m i = some none := by
  induction m generalizing i with
  | zero => rfl
  | succ m ih =>
      obtain ⟨ne, hget, hn⟩ := hentries i (by omega)
      rw [findLoop, hget]
      simp only [Option.bind_eq_bind, Option.bind_some, hn]
      rw [if_neg (by omega)]
      exact ih (fun j hj => hentries j (by omega)) (by omega)

/-! ## Multiplying out -/

theorem powerLoop_power {prime e v : Nat} (hprime : 0 < prime) (hfit : v * prime ^ e < 2 ^ 31) :
    powerLoop prime e v = some (v * prime ^ e) := by
  induction e generalizing v with
  | zero => rw [powerLoop, pow_zero, Nat.mul_one]
  | succ e ih =>
      rw [pow_succ', ← Nat.mul_assoc] at hfit ⊢
      have hle : v * prime ≤ v * prime * prime ^ e :=
        Nat.le_mul_of_pos_right _ (Nat.pow_pos hprime)
      rw [powerLoop, int_of_lt (Nat.lt_of_le_of_lt hle hfit)]
      exact ih hfit

theorem powersProduct_pos {es : List (Nat × Nat)} (h : ∀ e ∈ es, e.1.Prime ∧ 0 < e.2) :
    0 < powersProduct es := by
  refine Nat.pos_of_ne_zero (List.prod_ne_zero fun hzero => ?_)
  obtain ⟨e, he, hpow⟩ := List.mem_map.mp hzero
  exact Nat.ne_of_gt (Nat.pow_pos (h e he).1.pos) hpow

theorem recomposeLoop_product {m v : Nat} (hcount : i + m = ne.factorCount)
    (hslots : ne.factorCount ≤ ne.factors.length)
    (hprimes : ∀ e ∈ ne.listed.drop i, e.1.Prime ∧ 0 < e.2)
    (hfit : v * powersProduct (ne.listed.drop i) < 2 ^ 31) :
    recomposeLoop ne m i v = some (v * powersProduct (ne.listed.drop i)) := by
  induction m generalizing i v with
  | zero =>
      have hlength := ne.length_listed hslots
      rw [List.drop_of_length_le (by omega)]
      rw [recomposeLoop, powersProduct, List.map_nil, List.prod_nil, Nat.mul_one]
  | succ m ih =>
      have hlength := ne.length_listed hslots
      have hlt : i < ne.listed.length := by omega
      have hget := List.getElem?_eq_getElem (by omega : i < ne.factors.length)
      have hhead : ne.listed[i] = (ne.factors[i].prime, ne.factors[i].exponent) := by
        simp [NumberEntry.listed]
      rw [List.drop_eq_getElem_cons hlt, hhead] at hprimes hfit ⊢
      have hfirst := hprimes _ List.mem_cons_self
      have hrest : ∀ e ∈ ne.listed.drop (i + 1), e.1.Prime ∧ 0 < e.2 :=
        fun e he => hprimes e (List.mem_cons_of_mem _ he)
      have hproduct : v * powersProduct ((ne.factors[i].prime, ne.factors[i].exponent) ::
          ne.listed.drop (i + 1)) = v * ne.factors[i].prime ^ ne.factors[i].exponent *
            powersProduct (ne.listed.drop (i + 1)) := by
        rw [powersProduct, List.map_cons, List.prod_cons, ← powersProduct, Nat.mul_assoc]
      rw [hproduct] at hfit ⊢
      have hle : v * ne.factors[i].prime ^ ne.factors[i].exponent ≤ _ :=
        Nat.le_mul_of_pos_right _ (powersProduct_pos hrest)
      rw [recomposeLoop, hget]
      simp only [Option.bind_eq_bind, Option.bind_some]
      rw [powerLoop_power hfirst.1.pos (Nat.lt_of_le_of_lt hle hfit)]
      exact ih (by omega) hrest hfit

theorem NumberEntry.Factored.recompose (h : ne.Factored slots n) (hn : n < 2 ^ 31) :
    recompose ne = some n := by
  have hslots : ne.factorCount ≤ ne.factors.length := h.length ▸ h.count
  have hproduct : 1 * powersProduct (ne.listed.drop 0) = n := by
    rw [Nat.one_mul, List.drop_zero, h.factorisation.product]
  rw [CompileTime.recompose, recomposeLoop_product (Nat.zero_add _) hslots
    (fun e he => h.factorisation.primes e (List.mem_of_mem_drop he)) (hproduct ▸ hn), hproduct]

/-- The bucket that a number is looked for in. -/
theorem tdiv_ten (x : Int) : x.tdiv 10 = if 0 ≤ x then x / 10 else -(-x / 10) := by
  have hsign : Int.sign 10 = 1 := rfl
  rw [Int.tdiv_eq_ediv, hsign]
  split <;> split <;> omega

/-- The numbers that are in the tree. -/
def TreeSizes.Has (sizes : TreeSizes) (n : Nat) : Prop :=
  2 ≤ n ∧ n / 10 < sizes.kBuckets ∧ n % 10 < sizes.kPerBucket

theorem BucketEntry.Filled.numbers (h : bucket.Filled sizes b k) :
    ∀ j < 0 + bucket.populated, ∃ ne, bucket.numbers[j]? = some ne ∧ ne.n = firstNumber b + j := by
  intro j hj
  obtain ⟨ne, hne, hfactored⟩ := h.entries j (by omega)
  exact ⟨ne, hne, hfactored.number⟩

theorem FactorTree.Filled.find (h : tree.Filled sizes sizes.kBuckets) (hn : sizes.Has n) :
    ∃ ne, findNumber sizes tree n = some (some ne) ∧ ne.Factored sizes.kMaxFactors n := by
  obtain ⟨htwo, hbucket, hk⟩ := hn
  obtain ⟨bucket, hget, -, hfilled⟩ := h.filled (n / 10) hbucket
  have hpopulated := hfilled.populated
  have hfirst : firstNumber (n / 10) ≤ n := by
    rw [firstNumber]
    omega
  obtain ⟨ne, hne, hfactored⟩ := hfilled.entries (n - firstNumber (n / 10)) (by omega)
  refine ⟨ne, ?_, ?_⟩
  · have hdiv : (n : Int).tdiv 10 = ((n / 10 : Nat) : Int) := rfl
    have hindex : ((n : Int) - (firstNumber (n / 10) : Nat)).toNat = n - firstNumber (n / 10) := by
      omega
    simp only [findNumber, hdiv, Int.toNat_natCast, hget, Option.bind_eq_bind, Option.bind_some]
    rw [if_neg (by omega), if_neg (by omega), findLoop_finds hfilled.numbers (by omega),
      if_pos (by omega), hindex, hne]
  · rwa [Nat.add_sub_cancel' hfirst] at hfactored

theorem FactorTree.Filled.absent (h : tree.Filled sizes sizes.kBuckets) {x : Int} (hx : -10 < x)
    (habsent : ∀ n : Nat, sizes.Has n → x ≠ n) : findNumber sizes tree x = some none := by
  rw [findNumber]
  split
  · rfl
  · next hbucket =>
      have hdiv := tdiv_ten x
      obtain ⟨b, hb⟩ : ∃ b : Nat, x.tdiv 10 = b := ⟨(x.tdiv 10).toNat, by omega⟩
      rw [hb] at hbucket hdiv
      obtain ⟨bucket, hget, -, hfilled⟩ := h.filled b (by omega)
      have hpopulated := hfilled.populated
      simp only [hb, Int.toNat_natCast, hget, Option.bind_eq_bind, Option.bind_some]
      rw [if_neg (by omega)]
      by_cases hbefore : x < firstNumber b
      · exact findLoop_before hfilled.numbers (by omega)
      · rw [findLoop_finds hfilled.numbers (by omega), if_neg fun hlt => ?_]
        -- It would be in the tree.
        rw [firstNumber] at *
        refine habsent x.toNat ⟨by omega, by omega, by omega⟩ (by omega)

/-- Every number of the tree is found and has its factorisation, from which it
can be had again. No other number is found; from ten below zero down the search
itself fails. -/
theorem tree_of_factorisations (sizes : TreeSizes) (hsizes : sizes.Fits) :
    ∃ tree, buildTree sizes = some tree ∧
      (∀ n : Nat, sizes.Has n → ∃ ne, findNumber sizes tree n = some (some ne) ∧ ne.n = n ∧
        IsFactorisation n ne.listed ∧ recompose ne = some n) ∧
      (∀ x : Int, -10 < x → (∀ n : Nat, sizes.Has n → x ≠ n) →
        findNumber sizes tree x = some none) ∧
      ∀ x : Int, x ≤ -10 → findNumber sizes tree x = none := by
  obtain ⟨tree, hbuild, hfilled⟩ := buildTree_fills hsizes
  have hsmall := hsizes.small
  have hbuckets := hsizes.buckets
  refine ⟨tree, hbuild, fun n hn => ?_, fun x hx habsent => hfilled.absent hx habsent,
    fun x hx => ?_⟩
  · obtain ⟨ne, hfind, hne⟩ := hfilled.find hn
    have hlt := hn.2.1
    exact ⟨ne, hfind, hne.number, hne.factorisation, hne.recompose (by omega)⟩
  · have hdiv := tdiv_ten x
    rw [findNumber, if_neg (by omega), if_pos (by omega)]

theorem tree_of_factorisations_below_hundred :
    ∃ tree, buildTree ⟨99, 10, 10, 7⟩ = some tree ∧
      (∀ n : Nat, TreeSizes.Has ⟨99, 10, 10, 7⟩ n →
        ∃ ne, findNumber ⟨99, 10, 10, 7⟩ tree n = some (some ne) ∧ ne.n = n ∧
          IsFactorisation n ne.listed ∧ recompose ne = some n) ∧
      (∀ x : Int, -10 < x → (∀ n : Nat, TreeSizes.Has ⟨99, 10, 10, 7⟩ n → x ≠ n) →
        findNumber ⟨99, 10, 10, 7⟩ tree x = some none) ∧
      ∀ x : Int, x ≤ -10 → findNumber ⟨99, 10, 10, 7⟩ tree x = none :=
  tree_of_factorisations ⟨99, 10, 10, 7⟩
    { one_le := by decide
      square := by decide
      decade := by decide
      buckets := by decide
      slots := by decide
      factors := fun n hn => card_primeFactors_le (Nat.lt_trans hn (by decide)) }

end Ycetl.Ref.CompileTime
