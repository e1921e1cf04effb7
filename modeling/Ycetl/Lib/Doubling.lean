import Mathlib.Algebra.BigOperators.Group.Finset.Piecewise
import Mathlib.Algebra.Group.Nat.Defs
import Mathlib.Data.Nat.Log

/-!
# Doubling

What is full is given up for something twice as large. How large it has become
then depends on the most it ever had to hold, and not on the order in which it
came to that: it is the least doubling of the first size that is enough. All
sizes on the way together are less than twice the last one.

The sum of what several owners hold changes by what one of them gains.
-/

namespace Ycetl.Lib

/-- The least `unit`, `2 * unit`, `4 * unit`, ... that is enough for `n`. -/
def doubled (unit n : Nat) : Nat := unit * 2 ^ Nat.clog 2 ((n + unit - 1) / unit)

variable {unit n m c k : Nat}

@[simp] theorem doubled_zero_unit (n : Nat) : doubled 0 n = 0 := Nat.zero_mul _

/-- Enough is enough from the least doubling on. -/
theorem doubled_le_iff (hu : 0 < unit) : doubled unit n ≤ unit * 2 ^ k ↔ n ≤ unit * 2 ^ k := by
  rw [doubled, Nat.mul_le_mul_left_iff hu, Nat.pow_le_pow_iff_right Nat.one_lt_two,
    Nat.clog_le_iff_le_pow Nat.one_lt_two, Nat.div_le_iff_le_mul hu, Nat.mul_comm]
  omega

theorem le_doubled (hu : 0 < unit) (n : Nat) : n ≤ doubled unit n :=
  (doubled_le_iff hu).mp (Nat.le_refl (doubled unit n))

theorem unit_le_doubled (unit n : Nat) : unit ≤ doubled unit n :=
  Nat.le_mul_of_pos_right unit (Nat.two_pow_pos _)

/-- What is enough for the first size is not doubled. -/
theorem doubled_of_le (h : n ≤ unit) : doubled unit n = unit := by
  rcases Nat.eq_zero_or_pos unit with rfl | hu
  · exact doubled_zero_unit n
  · refine Nat.le_antisymm ?_ (unit_le_doubled unit n)
    have h0 : doubled unit n ≤ unit * 2 ^ 0 := (doubled_le_iff hu).mpr (by rwa [pow_zero, mul_one])
    rwa [pow_zero, mul_one] at h0

theorem two_mul_doubling (unit k : Nat) : 2 * (unit * 2 ^ k) = unit * 2 ^ (k + 1) := by
  rw [pow_succ, ← Nat.mul_assoc unit, Nat.mul_comm 2]

/-- The size is at most doubled for what is at most twice as much. -/
theorem doubled_max (hu : 0 < unit) (hm : m ≤ 2 * doubled unit n) :
    doubled unit (max n m) = if m ≤ doubled unit n then doubled unit n else 2 * doubled unit n := by
  have hn := le_doubled hu n
  obtain ⟨k, hk⟩ : ∃ k, doubled unit n = unit * 2 ^ k := ⟨_, rfl⟩
  have hiff : ∀ {k m}, doubled unit m ≤ unit * 2 ^ k ↔ m ≤ unit * 2 ^ k := doubled_le_iff hu
  have hmono : doubled unit n ≤ doubled unit (max n m) :=
    hiff.mpr (Nat.le_trans (Nat.le_max_left n m) (le_doubled hu _))
  split
  · next hle =>
      refine Nat.le_antisymm ?_ hmono
      rw [hk] at hn hle ⊢
      exact hiff.mpr (Nat.max_le.mpr ⟨hn, hle⟩)
  · next hlt =>
      have htwice : 2 * doubled unit n = unit * 2 ^ (k + 1) := by rw [hk, two_mul_doubling]
      refine Nat.le_antisymm ?_ ?_
      · rw [htwice] at hm ⊢
        exact hiff.mpr (Nat.max_le.mpr ⟨by omega, hm⟩)
      · obtain ⟨j, hj⟩ : ∃ j, doubled unit (max n m) = unit * 2 ^ j := ⟨_, rfl⟩
        -- It is a doubling that is not enough for `m` at `k`.
        have hkj : k < j := by
          by_contra hjk
          refine hlt (Nat.le_trans (Nat.le_max_right n m) ?_)
          refine Nat.le_trans (le_doubled hu _) ?_
          rw [hj, hk]
          exact Nat.mul_le_mul_left unit
            (Nat.pow_le_pow_right Nat.zero_lt_two (Nat.le_of_not_lt hjk))
        rw [htwice, hj]
        exact Nat.mul_le_mul_left unit (Nat.pow_le_pow_right Nat.zero_lt_two hkj)

/-- Doubling stops in time. -/
theorem doubled_lt (hu : 0 < unit) (h : unit < n) : doubled unit n < 2 * n := by
  obtain ⟨k, hk⟩ : ∃ k, doubled unit n = unit * 2 ^ k := ⟨_, rfl⟩
  cases k with
  | zero =>
      have hle := le_doubled hu n
      rw [hk, pow_zero, mul_one] at hle
      omega
  | succ k =>
      rw [← two_mul_doubling] at hk
      by_contra hge
      have hpos : 0 < unit * 2 ^ k := Nat.mul_pos hu (Nat.two_pow_pos k)
      have hle : doubled unit n ≤ unit * 2 ^ k := (doubled_le_iff hu).mpr (by omega)
      omega

/-- One owner gains, or loses. -/
theorem sum_update {i : Nat} (hi : i < n) (f : Nat → Nat) (x : Nat) :
    ∑ j ∈ Finset.range n, Function.update f i x j + f i = ∑ j ∈ Finset.range n, f j + x := by
  have hmem : i ∈ Finset.range n := Finset.mem_range.mpr hi
  rw [Finset.sum_update_of_mem hmem, ← Finset.sum_sdiff (Finset.singleton_subset_iff.mpr hmem),
    Finset.sum_singleton]
  omega

end Ycetl.Lib
