import Mathlib.Data.List.Basic

/-!
# Counting holders

Things are shared by holders, and a holder holds one thing or none. `holders`
counts the holders of each thing in a list of them, and a holder that appears,
goes, or takes hold of something else changes that count at the one or two
things it concerns. This is the arithmetic of a shared count, whatever keeps
the count and whatever is done when it reaches zero.
-/

namespace Ycetl.Lib

variable {ι : Type*} [DecidableEq ι]

/-- The number of holders of each thing. -/
def holders (l : List (Option ι)) (c : ι) : Nat := l.count (some c)

/-- One holder more of what is held, if anything is. -/
def gain (f : ι → Nat) (o : Option ι) (c : ι) : Nat := if o = some c then f c + 1 else f c

/-- One holder less. -/
def lose (f : ι → Nat) (o : Option ι) (c : ι) : Nat := if o = some c then f c - 1 else f c

theorem gain_self (f : ι → Nat) (c : ι) : gain f (some c) c = f c + 1 := if_pos rfl

theorem lose_self (f : ι → Nat) (c : ι) : lose f (some c) c = f c - 1 := if_pos rfl

theorem gain_of_ne (f : ι → Nat) {c d : ι} (h : c ≠ d) : gain f (some c) d = f d :=
  if_neg fun he => h (Option.some.inj he)

theorem lose_of_ne (f : ι → Nat) {c d : ι} (h : c ≠ d) : lose f (some c) d = f d :=
  if_neg fun he => h (Option.some.inj he)

@[simp] theorem gain_none (f : ι → Nat) : gain f none = f :=
  funext fun _ => if_neg fun he => by cases he

@[simp] theorem lose_none (f : ι → Nat) : lose f none = f :=
  funext fun _ => if_neg fun he => by cases he

/-- A holder that comes and goes. -/
@[simp] theorem lose_gain (f : ι → Nat) (o : Option ι) : lose (gain f o) o = f := by
  funext c
  rw [lose, gain]
  split
  · exact Nat.add_sub_cancel ..
  · rfl

/-- A holder that goes and comes back. -/
theorem gain_lose {f : ι → Nat} {o : Option ι} (h : ∀ c, o = some c → 0 < f c) :
    gain (lose f o) o = f := by
  funext c
  rw [gain, lose]
  split
  · next ho => exact Nat.sub_add_cancel (h c ho)
  · rfl

theorem holders_append (l : List (Option ι)) (o : Option ι) :
    holders (l ++ [o]) = gain (holders l) o := by
  funext c
  rw [holders, gain, List.count_append, List.count_singleton]
  by_cases h : o = some c
  · rw [if_pos h, if_pos (by rw [h]; exact beq_self_eq_true _)]
    rfl
  · rw [if_neg h, if_neg (by rw [beq_iff_eq]; exact h)]
    rfl

/-- What is held has a holder. -/
theorem holders_pos {l : List (Option ι)} {i : Nat} {c : ι} (h : l[i]? = some (some c)) :
    0 < holders l c :=
  List.count_pos_iff.mpr (List.mem_of_getElem? h)

/-- A holder lets go of one thing and takes hold of another. -/
theorem holders_set {l : List (Option ι)} {i : Nat} {x : Option ι} (h : l[i]? = some x)
    (y : Option ι) : holders (l.set i y) = gain (lose (holders l) x) y := by
  obtain ⟨hi, hx⟩ := List.getElem?_eq_some_iff.mp h
  funext c
  rw [holders, List.count_set hi, hx, gain, lose, holders]
  by_cases hxc : x = some c
  · by_cases hyc : y = some c
    · simp [hxc, hyc]
    · simp [hxc, hyc]
  · by_cases hyc : y = some c
    · simp [hxc, hyc]
    · simp [hxc, hyc]

theorem holders_singleton (o : Option ι) (c : ι) :
    holders [o] c = if o = some c then 1 else 0 := by
  rw [holders, List.count_singleton]
  by_cases ho : o = some c
  · rw [if_pos ho, if_pos (by rw [ho]; exact beq_self_eq_true _)]
  · rw [if_neg ho, if_neg (by rw [beq_iff_eq]; exact ho)]

/-- What `holders_set` says, as a sum. -/
theorem holders_set_add {l : List (Option ι)} {i : Nat} {x : Option ι} (h : l[i]? = some x)
    (y : Option ι) (c : ι) :
    holders (l.set i y) c + holders [x] c = holders l c + holders [y] c := by
  have hpos : x = some c → 0 < holders l c := fun hx => holders_pos (hx ▸ h)
  rw [holders_set h, gain, lose, holders_singleton, holders_singleton]
  by_cases hx : x = some c
  · have := hpos hx
    rw [if_pos hx, if_pos hx]
    split <;> omega
  · rw [if_neg hx, if_neg hx]
    split <;> omega

theorem holders_append_add (l l' : List (Option ι)) (c : ι) :
    holders (l ++ l') c = holders l c + holders l' c :=
  List.count_append

theorem holders_cons_add (o : Option ι) (l : List (Option ι)) (c : ι) :
    holders (o :: l) c = holders [o] c + holders l c :=
  holders_append_add [o] l c

end Ycetl.Lib
