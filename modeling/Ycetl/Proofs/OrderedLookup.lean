import Ycetl.Proofs.OrderedUnique

/-!
# The lookup paths of `map`

`find`, `contains`, `insert_or_assign`, `operator[]` and `at` each run the
same binary search and then decide for themselves whether the key is there.
The first four make the same test and agree on every key. `at` makes none: it
hands out a reference to whatever stands at the lower bound of the key, which
for a key that is not there is its neighbour above or no element at all. So
the paths agree on a key exactly when the map has it.
-/

namespace Ycetl.Ref.OrderedMap

open Ycetl.Lib Ordered

variable {K T : Type} [Inhabited T] {C : WeakOrder K}

/-- An element of the map has a key equivalent to `k`. -/
def Present (C : WeakOrder K) (t : Ordered (K × T)) (k : K) : Prop :=
  ∃ i v, t.at? i = some v ∧ C.equiv v.1 k = true

/-- `contains`, `find` and `insert_or_assign` give one answer about `k`. -/
def MembershipAgrees (C : WeakOrder K) (t : Ordered (K × T)) (k : K) : Prop :=
  ∃ i b, find C Prod.fst t k = some i ∧ contains C Prod.fst t k = some b ∧
    (b = true ↔ i ≠ t.size) ∧
    ∀ x, ∃ t' j ins, insertOrAssign C t k x = some (t', j, ins) ∧
      (b = true ↔ ins = false)

/-- The lookup paths agree on `k`: on whether it is there; if it is, on the
element, which `operator[]` leaves where it was; and if it is not, `at` neither
refers past the end nor to an element of another key. -/
structure LookupsAgree (C : WeakOrder K) (t : Ordered (K × T)) (k : K) : Prop where
  membership : MembershipAgrees C t k
  present : contains C Prod.fst t k = some true →
    ∃ i v, t.at? i = some v ∧ C.equiv v.1 k = true ∧
      find C Prod.fst t k = some i ∧ index C t k = some (t, i, v.2) ∧
      atKey C t k = some (i, some v.2)
  absent : contains C Prod.fst t k = some false →
    ∀ i o, atKey C t k = some (i, o) →
      i < t.size ∧ ∀ v, t.at? i = some v → C.equiv v.1 k = true

/-- A reachable map stands for an abstract one. -/
theorem exists_denotes {ops : List (Op K T)} {t : Ordered (K × T)}
    (hrun : runFrom (next C) Ordered.empty ops = some t) :
    ∃ l m, Denotes C Prod.fst t l m := by
  obtain ⟨t', l, hrun', hd⟩ :=
    run_denotes (fun _ _ _ op h => step_agrees (C := C) h op) ops
  have heq : some t' = some t := hrun'.symm.trans hrun
  cases heq
  exact ⟨l, _, hd⟩

variable {t : Ordered (K × T)} {l : List (K × T)} {m : FiniteMap K (K × T)} {k : K}

omit [Inhabited T] in
/-- Which keys are there is what the abstract map says. -/
theorem present_iff (h : Denotes C Prod.fst t l m) (k : K) :
    Present C t k ↔ (m k).isSome = true := by
  rw [← h.lookup_eq, lookup, List.find?_isSome]
  constructor
  · rintro ⟨i, v, hi, hv⟩
    rw [h.holds.at?_eq] at hi
    exact ⟨v, List.mem_of_getElem? hi, hv⟩
  · rintro ⟨v, hmem, hv⟩
    obtain ⟨i, hi⟩ := List.mem_iff_getElem?.mp hmem
    exact ⟨i, v, by rw [h.holds.at?_eq, hi], hv⟩

theorem membershipAgrees (h : Denotes C Prod.fst t l m) (k : K) :
    MembershipAgrees C t k := by
  obtain ⟨i, hfind, -, hend⟩ := h.find_eq k
  refine ⟨i, (m k).isSome, hfind, h.contains_eq k, ?_, fun x => ?_⟩
  · rw [ne_eq, hend, Option.isSome_iff_ne_none]
  · obtain ⟨t', out, -, hs, -, hans⟩ := step_agrees h (.insertOrAssign k x)
    obtain ⟨⟨t₁, j, ins⟩, hr, heq⟩ := Option.map_eq_some_iff.mp hs
    cases heq
    refine ⟨t₁, j, ins, hr, ?_⟩
    have hins : ins = (m k).isNone := by
      rw [answer, onMap, FiniteMap.Answer.inserted.injEq] at hans
      exact hans.1
    rw [hins]
    cases m k <;> simp

/-- On a key that is there the three references are to its element. -/
theorem references_agree (h : Denotes C Prod.fst t l m) (hm : (m k).isSome = true) :
    ∃ i v, t.at? i = some v ∧ C.equiv v.1 k = true ∧
      find C Prod.fst t k = some i ∧ index C t k = some (t, i, v.2) ∧
      atKey C t k = some (i, some v.2) := by
  rcases h.place k with
    ⟨xs, v, ys, rfl, -, hv, hlb, hhit, -, hat⟩ | ⟨xs, ys, rfl, -, -, -, hnone⟩
  · exact ⟨xs.length, v, hat, hv, by simp [find, hlb, hhit],
      by simp [index, hlb, hhit, hat], by simp [atKey, hlb, hat]⟩
  · rw [hnone] at hm
    cases hm

omit [Inhabited T] in
/-- On a key that is not there `at` refers to the end or to another key. -/
theorem atKey_miss (h : Denotes C Prod.fst t l m) (hm : m k = none) :
    ∃ i o, atKey C t k = some (i, o) ∧
      (i = t.size ∨ ∃ v, t.at? i = some v ∧ C.lt k v.1 = true) := by
  rcases h.place k with
    ⟨xs, v, ys, rfl, -, -, -, -, hsome, -⟩ | ⟨xs, ys, rfl, har, hlb, -, -⟩
  · rw [hm] at hsome
    cases hsome
  · refine ⟨xs.length, _, by rw [atKey, hlb]; rfl, ?_⟩
    cases ys with
    | nil => exact Or.inl (by rw [h.holds.size_eq, List.append_nil])
    | cons y ys =>
        refine Or.inr ⟨y, ?_, har.above y (by simp)⟩
        rw [h.holds.at?_eq, getElem?_length_append]

theorem lookupsAgree_iff (h : Denotes C Prod.fst t l m) (k : K) :
    LookupsAgree C t k ↔ Present C t k := by
  rw [present_iff h k]
  have hcon := h.contains_eq k
  constructor
  · intro ha
    by_contra hm
    rw [Option.not_isSome_iff_eq_none] at hm
    rw [hm] at hcon
    obtain ⟨i, o, hat, hwhere⟩ := atKey_miss h hm
    obtain ⟨hlt, heq⟩ := ha.absent hcon i o hat
    rcases hwhere with hi | ⟨v, hv, habove⟩
    · omega
    · have := (WeakOrder.equiv_iff.mp (heq v hv)).2
      rw [habove] at this
      cases this
  · intro hm
    refine ⟨membershipAgrees h k, fun _ => references_agree h hm, fun hcon' => ?_⟩
    rw [hcon, hm] at hcon'
    cases hcon'

/-- In every reachable map `contains`, `find` and `insert_or_assign` agree on
every key, and all the lookup paths agree on a key if and only if the map has
it. -/
theorem map_lookups_agree_iff_present {K T : Type} [Inhabited T] (C : WeakOrder K)
    (ops : List (Op K T)) (t : Ordered (K × T))
    (hrun : runFrom (next C) Ordered.empty ops = some t) (k : K) :
    MembershipAgrees C t k ∧ (LookupsAgree C t k ↔ Present C t k) := by
  obtain ⟨l, m, hd⟩ := exists_denotes hrun
  exact ⟨membershipAgrees hd k, lookupsAgree_iff hd k⟩

/-- After two inserts the paths agree on the keys that were inserted. -/
theorem map_lookups_agree_inserted :
    MembershipAgrees natLess ((Ordered.empty.insertAt 0 (1, 10)).insertAt 1 (3, 30)) 3 ∧
      LookupsAgree natLess ((Ordered.empty.insertAt 0 (1, 10)).insertAt 1 (3, 30)) 3 := by
  have hagree := map_lookups_agree_iff_present natLess
    [.insert (1, 10), .insert (3, 30)]
    ((Ordered.empty.insertAt 0 (1, 10)).insertAt 1 (3, 30)) rfl 3
  exact ⟨hagree.1, hagree.2.mpr ⟨1, (3, 30), by decide, by decide⟩⟩

/-- With the one key 1 in the map, `at(0)` is the value of key 1 and `at(2)`
is a reference past the end. -/
theorem map_at_reads_neighbour :
    ∃ t : Ordered (Nat × Nat),
      runFrom (next natLess) Ordered.empty [.insert (1, 10)] = some t ∧ t.size = 1 ∧
        atKey natLess t 0 = some (0, some 10) ∧ ¬ LookupsAgree natLess t 0 ∧
        atKey natLess t 2 = some (1, none) ∧ ¬ LookupsAgree natLess t 2 := by
  refine ⟨Ordered.empty.insertAt 0 (1, 10), rfl, rfl, by decide, fun h => ?_, by decide,
    fun h => ?_⟩
  · have hkey := (h.absent (by decide) 0 (some 10) (by decide)).2 (1, 10) (by decide)
    revert hkey
    decide
  · have hlt := (h.absent (by decide) 1 none (by decide)).1
    revert hlt
    decide

end Ycetl.Ref.OrderedMap
