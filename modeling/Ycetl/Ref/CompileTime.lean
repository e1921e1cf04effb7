import Mathlib.Algebra.Group.Nat.Defs
import Ycetl.Lib.Buffers

/-!
# The compile-time examples

`compile_time_primes` has a sieve of Eratosthenes in working memory and keeps
the primes, with their squares, in an array. `compile_time_nested_tree` has the
same sieve, lists the primes, and factors all numbers of some decades with
them.

All of it is arithmetic on `int`, where nothing but the bound of the primes can
be negative: what does not fit has no value, and neither has a read of a slot
that was never written, nor an access past the end of a buffer or an array. A
loop has fuel for each number up to its bound.
-/

namespace Ycetl.Ref.CompileTime

open Ycetl.Lib

/-- The value of an expression of type `int`. -/
def int (n : Nat) : Option Nat := if n < 2 ^ 31 then some n else none

/-! ## The sieve -/

/-- `for (int i = 0; i <= N; ++i) sieve.get()[i] = true;` -/
def fillLoop (n : Nat) : Nat → Nat → Buffer Bool → Option (Buffer Bool)
  | 0, _, _ => none
  | fuel + 1, i, sieve =>
      if i ≤ n then do
        let sieve ← sieve.write i true
        let i ← int (i + 1)
        fillLoop n fuel i sieve
      else some sieve

/-- `for (int j = i * i; j <= N; j += i) sieve.get()[j] = false;` -/
def crossLoop (n i : Nat) : Nat → Nat → Buffer Bool → Option (Buffer Bool)
  | 0, _, _ => none
  | fuel + 1, j, sieve =>
      if j ≤ n then do
        let sieve ← sieve.write j false
        let j ← int (j + i)
        crossLoop n i fuel j sieve
      else some sieve

/-- `for (int i = 2; i * i <= N; ++i) if (sieve.get()[i])`, and the loop inside. -/
def sieveLoop (n : Nat) : Nat → Nat → Buffer Bool → Option (Buffer Bool)
  | 0, _, _ => none
  | fuel + 1, i, sieve => do
      let square ← int (i * i)
      if square ≤ n then do
        let sieve ← if ← sieve.read i then crossLoop n i (n + 1) square sieve else some sieve
        let i ← int (i + 1)
        sieveLoop n fuel i sieve
      else some sieve

/-- The sieve of both examples. -/
def sieveUpTo (n : Nat) : Option (Buffer Bool) := do
  let size ← int (n + 1)
  let sieve ← fillLoop n (n + 2) 0 (.raw size)
  let sieve ← sieve.write 0 false
  let sieve ← sieve.write 1 false
  sieveLoop n (n + 1) 2 sieve

/-! ## `compile_time_primes` -/

/-- Its records are a `std::array`. -/
structure PrimesResult where
  records : List (Nat × Nat)
  count : Nat
deriving DecidableEq, Repr

/-- `for (int i = 2; i <= N && idx < Capacity; ++i)` -/
def recordLoop (n capacity : Nat) (sieve : Buffer Bool) :
    Nat → Nat → Nat → Buffer (Nat × Nat) → Option (Nat × Buffer (Nat × Nat))
  | 0, _, _, _ => none
  | fuel + 1, i, idx, records =>
      if i ≤ n ∧ idx < capacity then do
        if ← sieve.read i then do
          let square ← int (i * i)
          let records ← records.write idx (i, square)
          let i ← int (i + 1)
          recordLoop n capacity sieve fuel i (idx + 1) records
        else do
          let i ← int (i + 1)
          recordLoop n capacity sieve fuel i idx records
      else some (idx, records)

/-- `for (std::size_t i = 0; i < idx; ++i) out.records[i] = records.get()[i];`
from `i` on, with `k` rounds left. -/
def copyLoop (records : Buffer (Nat × Nat)) :
    Nat → Nat → List (Nat × Nat) → Option (List (Nat × Nat))
  | 0, _, out => some out
  | k + 1, i, out => do
      let r ← records.read i
      if i < out.length then copyLoop records k (i + 1) (out.set i r) else none

/-- The sieve up to `N`. Below zero no loop has a round, and `N + 1` is a size all
the same, modulo `2 ^ 64`; no array has `2 ^ 63` elements. -/
def sieveOf : Int → Option (Buffer Bool)
  | .ofNat n => sieveUpTo n
  | .negSucc k => do
      let k ← int k
      let size := (2 ^ 64 - k) % 2 ^ 64
      if size < 2 ^ 63 then do
        let sieve ← (Buffer.raw size).write 0 false
        sieve.write 1 false
      else none

/-- `compute_primes_up_to<N, Capacity>`. -/
def computePrimesUpTo (n : Int) (capacity : Nat) : Option PrimesResult := do
  let sieve ← sieveOf n
  let (idx, records) ← recordLoop n.toNat capacity sieve (n.toNat + 1) 2 0 (.raw capacity)
  let out ← copyLoop records idx 0 (List.replicate capacity (0, 0))
  some ⟨out, idx⟩

/-! ## `compile_time_nested_tree` -/

/-- The constants of the example. -/
structure TreeSizes where
  kMax : Nat
  kBuckets : Nat
  kPerBucket : Nat
  kMaxFactors : Nat

structure FactorEntry where
  prime : Nat
  exponent : Nat
deriving DecidableEq, Repr

structure NumberEntry where
  n : Nat
  factorCount : Nat
  factors : List FactorEntry
deriving DecidableEq, Repr

structure BucketEntry where
  decadeStart : Nat
  populated : Nat
  numbers : List NumberEntry
deriving DecidableEq, Repr

structure FactorTree where
  buckets : List BucketEntry
deriving DecidableEq, Repr

/-- `factor_tree out{};` -/
def FactorTree.zero (sizes : TreeSizes) : FactorTree where
  buckets := List.replicate sizes.kBuckets
    ⟨0, 0, List.replicate sizes.kPerBucket ⟨0, 0, List.replicate sizes.kMaxFactors ⟨0, 0⟩⟩⟩

/-- `if (sieve.get()[i]) primes.get()[prime_count++] = i;` for all `i` up to `kMax`. -/
def primesLoop (n : Nat) (sieve : Buffer Bool) :
    Nat → Nat → Nat → Buffer Nat → Option (Nat × Buffer Nat)
  | 0, _, _, _ => none
  | fuel + 1, i, primeCount, primes =>
      if i ≤ n then do
        if ← sieve.read i then do
          let primes ← primes.write primeCount i
          let primeCount ← int (primeCount + 1)
          let i ← int (i + 1)
          primesLoop n sieve fuel i primeCount primes
        else do
          let i ← int (i + 1)
          primesLoop n sieve fuel i primeCount primes
      else some (primeCount, primes)

/-- `ne.factors[ne.factor_count++] = {prime, exponent};` -/
def NumberEntry.add (ne : NumberEntry) (prime exponent : Nat) : Option NumberEntry :=
  if ne.factorCount < ne.factors.length then do
    let count ← int (ne.factorCount + 1)
    some { ne with
      factorCount := count
      factors := ne.factors.set ne.factorCount ⟨prime, exponent⟩ }
  else none

/-- `while (rem % prime == 0) { rem /= prime; ++exp; }` -/
def divideLoop (prime : Nat) : Nat → Nat → Nat → Option (Nat × Nat)
  | 0, _, _ => none
  | fuel + 1, rem, exp =>
      if prime = 0 then none
      else if rem % prime = 0 then do
        let exp ← int (exp + 1)
        divideLoop prime fuel (rem / prime) exp
      else some (rem, exp)

/-- `if (exp > 0) ne.factors[ne.factor_count++] = {prime, exp};` -/
def NumberEntry.addPower (ne : NumberEntry) (prime exp : Nat) : Option NumberEntry :=
  if 0 < exp then ne.add prime exp else some ne

/-- `for (int p = 0; p < prime_count && rem > 1; ++p)` -/
def factorLoop (primes : Buffer Nat) (primeCount : Nat) :
    Nat → Nat → Nat → NumberEntry → Option NumberEntry
  | 0, _, _, _ => none
  | fuel + 1, p, rem, ne =>
      if p < primeCount ∧ 1 < rem then do
        let prime ← primes.read p
        let square ← int (prime * prime)
        if rem < square ∧ 1 < rem then
          -- rem itself is prime
          ne.add rem 1
        else do
          let (rem, exp) ← divideLoop prime (rem + 1) rem 0
          let ne ← ne.addPower prime exp
          let p ← int (p + 1)
          factorLoop primes primeCount fuel p rem ne
      else some ne

/-- `for (int k = 0; k < kPerBucket; ++k)` -/
def numberLoop (sizes : TreeSizes) (primes : Buffer Nat) (primeCount b : Nat) :
    Nat → Nat → BucketEntry → Option BucketEntry
  | 0, _, _ => none
  | fuel + 1, k, bucket =>
      if k < sizes.kPerBucket then do
        let decade ← int (b * 10)
        let n ← int (decade + k)
        if n < 2 then do
          let k ← int (k + 1)
          numberLoop sizes primes primeCount b fuel k bucket
        else do
          let ne ← bucket.numbers[bucket.populated]?
          let ne ← factorLoop primes primeCount (primeCount + 1) 0 n
            { ne with n := n, factorCount := 0 }
          let populated ← int (bucket.populated + 1)
          let k ← int (k + 1)
          numberLoop sizes primes primeCount b fuel k
            { bucket with
              populated := populated
              numbers := bucket.numbers.set bucket.populated ne }
      else some bucket

/-- `for (int b = 0; b < kBuckets; ++b)` -/
def bucketLoop (sizes : TreeSizes) (primes : Buffer Nat) (primeCount : Nat) :
    Nat → Nat → FactorTree → Option FactorTree
  | 0, _, _ => none
  | fuel + 1, b, tree =>
      if b < sizes.kBuckets then do
        let bucket ← tree.buckets[b]?
        let decade ← int (b * 10)
        let bucket ← numberLoop sizes primes primeCount b (sizes.kPerBucket + 1) 0
          { bucket with decadeStart := decade, populated := 0 }
        let next ← int (b + 1)
        bucketLoop sizes primes primeCount fuel next ⟨tree.buckets.set b bucket⟩
      else some tree

/-- `build_tree` -/
def buildTree (sizes : TreeSizes) : Option FactorTree := do
  let sieve ← sieveUpTo sizes.kMax
  let (primeCount, primes) ← primesLoop sizes.kMax sieve (sizes.kMax + 1) 2 0
    (.raw (sizes.kMax + 1))
  bucketLoop sizes primes primeCount (sizes.kBuckets + 1) 0 (.zero sizes)

/-- The loop of `find_number`, from `i` on, with `k` rounds left. -/
def findLoop (bucket : BucketEntry) (n : Int) : Nat → Nat → Option (Option NumberEntry)
  | 0, _ => some none
  | k + 1, i => do
      let ne ← bucket.numbers[i]?
      if (ne.n : Int) = n then some (some ne) else findLoop bucket n k (i + 1)

/-- `find_number`, which may have no answer: a bucket before the first is not
looked for, but looked up. -/
def findNumber (sizes : TreeSizes) (t : FactorTree) (n : Int) : Option (Option NumberEntry) :=
  let b := n.tdiv 10
  if (sizes.kBuckets : Int) ≤ b then some none
  else if b < 0 then none
  else do
    let bucket ← t.buckets[b.toNat]?
    findLoop bucket n bucket.populated 0

/-- `for (int e = 0; e < ne.factors[i].exponent; ++e) v *= ne.factors[i].prime;` -/
def powerLoop (prime : Nat) : Nat → Nat → Option Nat
  | 0, v => some v
  | e + 1, v => do
      let v ← int (v * prime)
      powerLoop prime e v

/-- The loop of `recompose`, from `i` on, with `k` rounds left. -/
def recomposeLoop (ne : NumberEntry) : Nat → Nat → Nat → Option Nat
  | 0, _, v => some v
  | k + 1, i, v => do
      let f ← ne.factors[i]?
      let v ← powerLoop f.prime f.exponent v
      recomposeLoop ne k (i + 1) v

def recompose (ne : NumberEntry) : Option Nat := recomposeLoop ne ne.factorCount 0 1

end Ycetl.Ref.CompileTime
