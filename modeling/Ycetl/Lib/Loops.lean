import Mathlib.Order.Basic

/-!
# Counted loops

A `for` over an index that only the loop header changes is structural
recursion on the number of rounds left. The two rules are the ones a loop is
read with: an invariant that is indexed by the loop variable, established at
its first value and kept by every round, holds at its last.
-/

namespace Ycetl.Lib

variable {σ : Type*}

/-- `for (i = lo; i < lo + n; ++i) s = body(i, s);` -/
def upLoop (body : Nat → σ → σ) : Nat → Nat → σ → σ
  | _, 0, s => s
  | i, n + 1, s => upLoop body (i + 1) n (body i s)

/-- `for (i = hi; i > hi - n; --i) s = body(i, s);` -/
def downLoop (body : Nat → σ → σ) : Nat → Nat → σ → σ
  | _, 0, s => s
  | i, n + 1, s => downLoop body (i - 1) n (body i s)

theorem upLoop_inv (body : Nat → σ → σ) (I : Nat → σ → Prop) (lo n : Nat)
    {s : σ} (h : I lo s)
    (hstep : ∀ i s, lo ≤ i → i < lo + n → I i s → I (i + 1) (body i s)) :
    I (lo + n) (upLoop body lo n s) := by
  induction n generalizing lo s with
  | zero => exact h
  | succ n ih =>
      rw [upLoop, show lo + (n + 1) = lo + 1 + n by omega]
      exact ih (lo + 1) (hstep lo s (Nat.le_refl lo) (by omega) h)
        fun i s hlo hhi hi => hstep i s (by omega) (by omega) hi

theorem downLoop_inv (body : Nat → σ → σ) (I : Nat → σ → Prop) {hi n : Nat}
    (hn : n ≤ hi) {s : σ} (h : I hi s)
    (hstep : ∀ i s, hi - n < i → i ≤ hi → I i s → I (i - 1) (body i s)) :
    I (hi - n) (downLoop body hi n s) := by
  induction n generalizing hi s with
  | zero => exact h
  | succ n ih =>
      rw [downLoop, show hi - (n + 1) = hi - 1 - n by omega]
      exact ih (by omega) (hstep hi s (by omega) (Nat.le_refl hi) h)
        fun i s hlo hhi hi' => hstep i s (by omega) (by omega) hi'

end Ycetl.Lib
