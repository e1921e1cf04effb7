import Ycetl.Ref.BasicString

/-!
# `basic_string::find`

The loop over the candidate positions is a linear search: everything before
the position it is at has been tried. Its bound is `i + m <= n`, and as long as
that sum stays inside `size_type` the loop ends at the first match or when
there is no room for one. A sum that has wrapped is small, so that the bound
holds when `i` is past the end; the loop then goes up through the rest of the
type, and reads past the string before it gets there.
-/

namespace Ycetl.Ref.BasicString

open Ycetl.Lib

variable {CharT : Type} {s needle : StringView CharT}

/-- The needle is the part of the string that begins at `i`. -/
def MatchAt (s needle : StringView CharT) (i : Nat) : Prop :=
  i + needle.size ≤ s.size ∧ ∀ k < needle.size, s.at? (i + k) = needle.at? k

/-- `r` is the first match from `lo` on, or `npos` where there is none. -/
structure LeftmostMatch (s needle : StringView CharT) (lo r : Nat) : Prop where
  none_iff : r = npos ↔ ¬ ∃ i, lo ≤ i ∧ MatchAt s needle i
  found : r ≠ npos → lo ≤ r ∧ MatchAt s needle r
  least : r ≠ npos → ∀ i, lo ≤ i → MatchAt s needle i → r ≤ i

/-- The call ends with the leftmost match, without a read past the string or
the needle, and the part of the string that it finds is the needle. -/
def FindsLeftmost [DecidableEq CharT] (s needle : StringView CharT) (from' : UInt64) : Prop :=
  ∃ fuel r, find fuel s needle from' = some r ∧ LeftmostMatch s needle from'.toNat r ∧
    (r ≠ npos → substr s r needle.size = some needle.chars)

theorem at?_isSome {i : Nat} (h : i < s.size) : ∃ a, s.at? i = some a :=
  ⟨_, List.getElem?_eq_getElem h⟩

theorem at?_of_ge {i : Nat} (h : s.size ≤ i) : s.at? i = none := List.getElem?_eq_none h

theorem wrap_of_lt {n : Nat} (h : n < 2 ^ 64) : wrap n = n := Nat.mod_eq_of_lt h

/-- No match begins so late that the needle does not fit. -/
theorem MatchAt.ne_npos {i : Nat} (h : MatchAt s needle i) : i ≠ npos := by
  have := s.size_lt
  have := h.1
  rw [StringView.size, StringView.size] at this
  omega

/-- What `substr` takes at a match. -/
theorem substr_of_match {i : Nat} (h : MatchAt s needle i) :
    substr s i needle.size = some needle.chars := by
  obtain ⟨hle, hchars⟩ := h
  have htake : (if needle.size < (if i < s.size then s.size - i else 0) then needle.size
      else (if i < s.size then s.size - i else 0)) = needle.size := by
    split <;> split at * <;> omega
  rw [substr]
  simp only [htake]
  exact slice_of_get hchars

/-! ## Leftmost matches -/

theorem leftmost_of_match {i : Nat} (h : MatchAt s needle i) : LeftmostMatch s needle i i where
  none_iff := ⟨fun hi => absurd hi h.ne_npos, fun hnone => absurd ⟨i, Nat.le_refl i, h⟩ hnone⟩
  found _ := ⟨Nat.le_refl i, h⟩
  least _ _ hj _ := hj

theorem leftmost_of_none {lo : Nat} (h : ∀ i, lo ≤ i → ¬ MatchAt s needle i) :
    LeftmostMatch s needle lo npos where
  none_iff := by
    refine iff_of_true rfl fun hex => ?_
    obtain ⟨i, hi, hmatch⟩ := hex
    exact h i hi hmatch
  found hne := absurd rfl hne
  least hne := absurd rfl hne

/-- A position without a match is passed over. -/
theorem LeftmostMatch.pass {lo r : Nat} (h : LeftmostMatch s needle (lo + 1) r)
    (hlo : ¬ MatchAt s needle lo) : LeftmostMatch s needle lo r := by
  have hiff : ∀ i, (lo ≤ i ∧ MatchAt s needle i) ↔ (lo + 1 ≤ i ∧ MatchAt s needle i) := by
    intro i
    refine and_congr_left fun hi => ⟨fun hle => ?_, fun hle => Nat.le_of_succ_le hle⟩
    exact Nat.lt_of_le_of_ne hle fun heq => hlo (heq ▸ hi)
  refine ⟨?_, fun hne => ?_, fun hne i hi hmatch => ?_⟩
  · rw [h.none_iff]
    exact not_congr (exists_congr fun i => (hiff i).symm)
  · exact (hiff r).mpr (h.found hne)
  · exact h.least hne i ((hiff i).mp ⟨hi, hmatch⟩).1 hmatch

/-- A needle of one character is matched where that character is. -/
theorem matchAt_char_iff {c : CharT} (hc : needle.chars = [c]) {i : Nat} :
    MatchAt s needle i ↔ s.at? i = some c := by
  have hsize : needle.size = 1 := by rw [StringView.size, hc, List.length_singleton]
  have hfirst : needle.at? 0 = some c := by rw [StringView.at?, hc, List.getElem?_cons_zero]
  constructor
  · intro hmatch
    rw [← hfirst]
    exact hmatch.2 0 (by omega)
  · intro hi
    have hlt : i < s.size := (List.getElem?_eq_some_iff.mp hi).1
    refine ⟨by omega, fun k hk => ?_⟩
    obtain rfl : k = 0 := by omega
    rw [hfirst, ← hi]
    rfl

/-! ## The loops -/

variable [DecidableEq CharT]

/-- The inner loop compares the rest of the needle. -/
theorem matchLoop_spec {i : Nat} (hi : i + needle.size ≤ s.size) (k : Nat) {j : Nat}
    (hj : j + k = needle.size) :
    ∃ p, matchLoop s needle i k j = some p ∧
      (p = needle.size ↔ ∀ q, j ≤ q → q < needle.size → s.at? (i + q) = needle.at? q) := by
  induction k generalizing j with
  | zero => exact ⟨j, rfl, iff_of_true hj fun q hlo hhi => by omega⟩
  | succ k ih =>
      have hn : s.size < 2 ^ 64 - 1 := s.size_lt
      obtain ⟨a, ha⟩ := at?_isSome (s := s) (i := i + j) (by omega)
      obtain ⟨b, hb⟩ := at?_isSome (s := needle) (i := j) (by omega)
      rw [matchLoop, wrap_of_lt (by omega), ha, hb]
      simp only [Option.bind_eq_bind, Option.bind_some]
      split
      · next heq =>
        obtain ⟨p, hp, hiff⟩ := ih (j := j + 1) (by omega)
        refine ⟨p, hp, hiff.trans ⟨fun h q hlo hhi => ?_, fun h q hlo hhi => h q (by omega) hhi⟩⟩
        rcases Nat.eq_or_lt_of_le hlo with rfl | hlt
        · rw [ha, hb, heq]
        · exact h q hlt hhi
      · next hne =>
        refine ⟨j, rfl, iff_of_false (by omega) fun h => hne ?_⟩
        have := h j (Nat.le_refl j) (by omega)
        rw [ha, hb, Option.some.injEq] at this
        exact this

/-- The search from `i` on, while the bound does not wrap. -/
theorem findLoop_spec (hpos : 0 < needle.size) (fuel : Nat) {i : Nat}
    (hi : i + needle.size < 2 ^ 64) (hfuel : s.size - i < fuel) :
    ∃ r, findLoop s needle fuel i = some r ∧ LeftmostMatch s needle i r := by
  induction fuel generalizing i with
  | zero => exact absurd hfuel (Nat.not_lt_zero _)
  | succ fuel ih =>
      have hn : s.size < 2 ^ 64 - 1 := s.size_lt
      rw [findLoop, wrap_of_lt hi]
      split
      · next hle =>
        obtain ⟨p, hp, hiff⟩ := matchLoop_spec hle needle.size (j := 0) (Nat.zero_add _)
        have hmatch : p = needle.size ↔ MatchAt s needle i :=
          hiff.trans ⟨fun h => ⟨hle, fun k hk => h k (Nat.zero_le k) hk⟩, fun h q _ => h.2 q⟩
        rw [hp, Option.bind_eq_bind, Option.bind_some]
        split
        · next heq => exact ⟨i, rfl, leftmost_of_match (hmatch.mp heq)⟩
        · next hne =>
          rw [wrap_of_lt (by omega)]
          obtain ⟨r, hr, hleft⟩ := ih (i := i + 1) (by omega) (by omega)
          exact ⟨r, hr, hleft.pass fun h => hne (hmatch.mpr h)⟩
      · next hgt =>
        refine ⟨npos, rfl, leftmost_of_none fun j hj hmatch => ?_⟩
        have := hmatch.1
        omega

/-- Where the bound has wrapped, the inner loop stops inside the string, before
the needle is through, or it reads past the string. -/
theorem matchLoop_wrapped {i : Nat} (hi : 2 ^ 64 ≤ i + needle.size) (k : Nat) {j p : Nat}
    (hj : j + k = needle.size) (hij : i + j < 2 ^ 64)
    (hp : matchLoop s needle i k j = some p) : p < needle.size ∧ i < s.size := by
  induction k generalizing j with
  | zero => omega
  | succ k ih =>
      have hn : s.size < 2 ^ 64 - 1 := s.size_lt
      rw [matchLoop, wrap_of_lt hij] at hp
      by_cases hlt : i + j < s.size
      · obtain ⟨a, ha⟩ := at?_isSome hlt
        obtain ⟨b, hb⟩ := at?_isSome (s := needle) (i := j) (by omega)
        simp only [ha, hb, Option.bind_eq_bind, Option.bind_some] at hp
        split at hp
        · exact ih (by omega) (by omega) hp
        · cases hp
          exact ⟨by omega, by omega⟩
      · rw [at?_of_ge (by omega)] at hp
        cases hp

theorem findLoop_wrapped (hle : needle.size ≤ s.size) (fuel : Nat) {i : Nat}
    (hi : i < 2 ^ 64) (hwrap : 2 ^ 64 ≤ i + needle.size) :
    findLoop s needle fuel i = none := by
  induction fuel generalizing i with
  | zero => rfl
  | succ fuel ih =>
      have hn : s.size < 2 ^ 64 - 1 := s.size_lt
      have hbound : wrap (i + needle.size) ≤ s.size := by
        rw [wrap, sizeMod]
        omega
      rw [findLoop, if_pos hbound, Option.bind_eq_bind, Option.bind_eq_none_iff]
      intro p hp
      obtain ⟨hlt, his⟩ := matchLoop_wrapped hwrap needle.size (Nat.zero_add _) hi hp
      rw [if_neg (by omega), wrap_of_lt (by omega)]
      exact ih (by omega) (by omega)

/-- `find` answers the leftmost match exactly if the needle is empty or longer
than the string, or the first sum `from + m` stays inside `size_type`. -/
theorem find_is_leftmost_iff (s needle : StringView CharT) (from' : UInt64) :
    FindsLeftmost s needle from' ↔
      needle.size = 0 ∨ s.size < needle.size ∨ from'.toNat + needle.size < 2 ^ 64 := by
  have hfrom := from'.toNat_lt
  have hn : s.size < 2 ^ 64 - 1 := s.size_lt
  by_cases hm : needle.size = 0
  · refine iff_of_true ⟨0, _, by rw [find, if_pos hm], ?_, ?_⟩ (Or.inl hm)
    · split
      · next hle => exact leftmost_of_match ⟨by omega, fun k hk => by omega⟩
      · next hgt =>
        refine leftmost_of_none fun i hi hmatch => ?_
        have := hmatch.1
        omega
    · split
      · next hle => exact fun _ => substr_of_match ⟨by omega, fun k hk => by omega⟩
      · next hgt => exact fun hne => absurd rfl hne
  by_cases hlong : s.size < needle.size
  · refine iff_of_true ⟨0, npos, by rw [find, if_neg hm, if_pos hlong], ?_, ?_⟩
      (Or.inr (Or.inl hlong))
    · refine leftmost_of_none fun i hi hmatch => ?_
      have := hmatch.1
      omega
    · exact fun hne => absurd rfl hne
  constructor
  · intro hfinds
    obtain ⟨fuel, r, hr, -⟩ := hfinds
    by_contra hcond
    rw [find, if_neg hm, if_neg hlong,
      findLoop_wrapped (by omega) fuel hfrom (by omega)] at hr
    cases hr
  · intro hcond
    obtain ⟨r, hr, hleft⟩ : ∃ r, findLoop s needle (s.size + 1) from'.toNat = some r ∧
        LeftmostMatch s needle from'.toNat r :=
      findLoop_spec (by omega) (s.size + 1) (by omega) (by omega)
    refine ⟨s.size + 1, r, ?_, hleft, fun hne => substr_of_match (hleft.found hne).2⟩
    rw [find, if_neg hm, if_neg hlong, hr]

/-- `find("a", npos)` on `"a"` reads the character with that index. -/
theorem find_npos_reads_past :
    (∀ fuel, find fuel (⟨[97], by decide⟩ : StringView Nat) ⟨[97], by decide⟩
      18446744073709551615 = none) ∧
      ¬ FindsLeftmost (⟨[97], by decide⟩ : StringView Nat) ⟨[97], by decide⟩
        18446744073709551615 := by
  have hnone : ∀ fuel, find fuel (⟨[97], by decide⟩ : StringView Nat) ⟨[97], by decide⟩
      18446744073709551615 = none := by
    intro fuel
    cases fuel with
    | zero => rfl
    | succ fuel => rfl
  refine ⟨hnone, fun hfinds => ?_⟩
  obtain ⟨fuel, r, hr, -⟩ := hfinds
  rw [hnone] at hr
  cases hr

/-! ## The overload for one character -/

theorem findCharLoop_spec {c : CharT} (hc : needle.chars = [c]) (k : Nat) {i : Nat}
    (hi : k = s.size - i) :
    ∃ r, findCharLoop s c k i = some r ∧ LeftmostMatch s needle i r := by
  induction k generalizing i with
  | zero =>
      refine ⟨npos, rfl, leftmost_of_none fun j hj hmatch => ?_⟩
      rw [matchAt_char_iff hc, at?_of_ge (by omega)] at hmatch
      cases hmatch
  | succ k ih =>
      obtain ⟨a, ha⟩ := at?_isSome (s := s) (i := i) (by omega)
      rw [findCharLoop, ha, Option.bind_eq_bind, Option.bind_some]
      split
      · next heq =>
        exact ⟨i, rfl, leftmost_of_match ((matchAt_char_iff hc).mpr (by rw [ha, heq]))⟩
      · next hne =>
        obtain ⟨r, hr, hleft⟩ := ih (i := i + 1) (by omega)
        refine ⟨r, hr, hleft.pass fun hmatch => hne ?_⟩
        rw [matchAt_char_iff hc, ha, Option.some.injEq] at hmatch
        exact hmatch

/-- `find(c, from)` compares `from` with the size and answers the first
occurrence for every `from`. -/
theorem findChar_is_leftmost (s : StringView CharT) (c : CharT) (from' : UInt64)
    (hc : needle.chars = [c]) :
    ∃ r, findChar s c from' = some r ∧ LeftmostMatch s needle from'.toNat r :=
  findCharLoop_spec hc _ rfl

end Ycetl.Ref.BasicString
