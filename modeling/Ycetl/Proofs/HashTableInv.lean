import Ycetl.Proofs.HashTableScan

/-!
# The invariant of the open-addressing tables

Three facts make the tables work, and they hold in every reachable state of
all four containers. The count is the number of live entries. The capacity is
zero or a power of two times the initial capacity. And the probe chains are
unbroken: on the way from its home slot to the slot that holds it, no entry
passes an empty slot. The last one is what lets a lookup stop at the first
empty slot, tombstones notwithstanding.

A rehash builds a fresh table without tombstones, and there the counting
argument is exact: as long as fewer entries than slots have been placed, the
probe loop finds an empty slot, so no entry is dropped on the way.
-/

namespace Ycetl.Ref.Table

open Ycetl.Lib

variable {K V : Type} {H : Hashing K} {key : V → K}

/-- No entry passes an empty slot on the way to its own slot. -/
def Chain (H : Hashing K) (key : V → K) (slots : List (Slot V)) : Prop :=
  ∀ (i : Nat) (v : V) (pre post : List Nat), slots[i]? = some ⟨.filled, v⟩ →
    path H (key v) slots.length = pre ++ i :: post →
    ∀ j ∈ pre, ∀ s, slots[j]? = some s → s.state ≠ .empty

structure Inv (H : Hashing K) (key : V → K) (t : Table V) : Prop where
  size_eq : t.size = t.entries.length
  cap_pow : t.cap = 0 ∨ ∃ e ≤ 60, t.cap = 8 * 2 ^ e
  chain : Chain H key t.slots

theorem Inv.cap_le {t : Table V} (h : Inv H key t) : t.cap ≤ 2 ^ 63 := by
  rcases h.cap_pow with h0 | ⟨e, he, hcap⟩
  · omega
  · have hpow : 2 ^ e ≤ 2 ^ 60 := Nat.pow_le_pow_right (by omega) he
    omega

/-- `size_type(-1)` is not the index of a slot. -/
theorem Inv.ne_npos {t : Table V} (h : Inv H key t) {i : Nat} {s : Slot V}
    (hi : t.slots[i]? = some s) : i ≠ npos := by
  have hcap := h.cap_le
  have hlt : i < t.cap := (List.getElem?_eq_some_iff.mp hi).1
  have hn : npos = 2 ^ 64 - 1 := rfl
  omega

theorem Inv.empty : Inv H key (Table.empty : Table V) where
  size_eq := rfl
  cap_pow := Or.inl rfl
  chain := by
    intro i v pre post hi
    simp [Table.empty] at hi

theorem path_congr {k k' : K} (h : H.eq k k' = true) (cap : Nat) :
    path H k cap = path H k' cap := by
  rw [path, path, H.hash_eq h]

theorem path_lt {k : K} {cap i : Nat} (h : i ∈ path H k cap) : i < cap :=
  lt_of_mem_probes h

/-- A write of a slot that is not empty keeps the chains, if a newly filled
slot is reached by its entry without passing an empty one. -/
theorem Chain.set {slots : List (Slot V)} (h : Chain H key slots) {i : Nat}
    {s : Slot V} (hs : s.state ≠ .empty)
    (hnew : s.state = .filled → ∀ pre post,
      path H (key s.kv) slots.length = pre ++ i :: post →
      ∀ j ∈ pre, ∀ u, slots[j]? = some u → u.state ≠ .empty) :
    Chain H key (slots.set i s) := by
  intro i₀ v pre post hi₀ hpath j hj u hu
  rw [List.length_set] at hpath
  rw [List.getElem?_set] at hi₀ hu
  -- The slot that was written is not empty, whichever chain it is on.
  have hold : ∀ w, slots[j]? = some w → w.state ≠ .empty := by
    by_cases hii : i = i₀
    · rw [if_pos hii] at hi₀
      split at hi₀
      · rw [Option.some.injEq] at hi₀
        subst hii
        subst hi₀
        exact hnew rfl pre post hpath j hj
      · cases hi₀
    · rw [if_neg hii] at hi₀
      exact h i₀ v pre post hi₀ hpath j hj
  split at hu
  · split at hu
    · rw [Option.some.injEq] at hu
      exact hu ▸ hs
    · cases hu
  · exact hold u hu

/-! ## Fresh tables and `rehash` -/

def NoTombstone (slots : List (Slot V)) : Prop :=
  ∀ (i : Nat) (s : Slot V), slots[i]? = some s → s.state ≠ .tombstone

theorem freshSlots_get [Inhabited V] {n i : Nat} {s : Slot V}
    (h : (freshSlots n)[i]? = some s) : s.state = .empty := by
  have hmem := List.mem_of_getElem? h
  rw [freshSlots] at hmem
  rw [(List.mem_replicate.mp hmem).2]

theorem length_freshSlots [Inhabited V] (n : Nat) :
    (freshSlots n : List (Slot V)).length = n := by
  simp [freshSlots]

theorem chain_freshSlots [Inhabited V] (n : Nat) :
    Chain H key (freshSlots n) := by
  intro i v pre post hi
  have := freshSlots_get hi
  simp at this

theorem noTombstone_freshSlots [Inhabited V] (n : Nat) :
    NoTombstone (freshSlots n : List (Slot V)) := by
  intro i s hi
  rw [freshSlots_get hi]
  simp

theorem placeLoop_passed {v : V} {ns : List (Slot V)} {pre : List Nat}
    (hpre : ∀ j ∈ pre, ¬ ∃ u, ns[j]? = some ⟨.empty, u⟩) (rest : List Nat) :
    placeLoop v (pre ++ rest) ns = placeLoop v rest ns := by
  induction pre with
  | nil => rfl
  | cons i pre ih =>
      rw [List.cons_append, placeLoop]
      split
      · next u hu => exact absurd ⟨u, hu⟩ (hpre i (by simp))
      · exact ih fun j hj => hpre j (by simp [hj])

/-- In a table without tombstones and with room, the entry goes to the first
empty slot of its probe sequence. -/
theorem placeLoop_spec (v : V) {ns : List (Slot V)} (hnt : NoTombstone ns)
    (hroom : (entriesOf ns).length < ns.length) (k : K) :
    ∃ pre i post u, path H k ns.length = pre ++ i :: post ∧
      (∀ j ∈ pre, ∀ s, ns[j]? = some s → s.state ≠ .empty) ∧
      ns[i]? = some ⟨.empty, u⟩ ∧
      placeLoop v (path H k ns.length) ns = ns.set i ⟨.filled, v⟩ := by
  classical
  rcases first_split (fun j => ∃ u, ns[j]? = some ⟨.empty, u⟩)
    (path H k ns.length) with ⟨pre, i, post, hL, hpre, u, hu⟩ | hall
  · refine ⟨pre, i, post, u, hL, ?_, hu, ?_⟩
    · rintro j hj ⟨st, w⟩ hs rfl
      exact hpre j hj ⟨w, hs⟩
    · rw [hL, placeLoop_passed hpre, placeLoop, hu]
  · exfalso
    obtain ⟨i, ⟨st, w⟩, hi, hne⟩ := exists_not_filled hroom
    have hmem : i ∈ path H k ns.length :=
      mem_probes.mpr (List.getElem?_eq_some_iff.mp hi).1
    cases st with
    | empty => exact hall i hmem ⟨w, hi⟩
    | filled => exact hne rfl
    | tombstone => exact hnt i _ hi rfl

/-- The rehash loop places every entry: the chains of the new table are
unbroken and its entries are those of the slots it went through. -/
theorem rehashLoop_spec (H : Hashing K) (key : V → K) (newCap : Nat) :
    ∀ (old ns : List (Slot V)), ns.length = newCap → NoTombstone ns →
      Chain H key ns → (entriesOf old).length + (entriesOf ns).length ≤ newCap →
      (rehashLoop H key newCap old ns).length = newCap ∧
        NoTombstone (rehashLoop H key newCap old ns) ∧
        Chain H key (rehashLoop H key newCap old ns) ∧
        (entriesOf (rehashLoop H key newCap old ns)).Perm
          (entriesOf old ++ entriesOf ns) := by
  intro old
  induction old with
  | nil =>
      intro ns hlen hnt hch _
      exact ⟨hlen, hnt, hch, List.Perm.refl _⟩
  | cons s rest ih =>
      intro ns hlen hnt hch hroom
      obtain ⟨st, v⟩ := s
      cases st with
      | empty | tombstone =>
          rw [entriesOf_cons_of_ne (by simp)] at hroom ⊢
          exact ih ns hlen hnt hch hroom
      | filled =>
          rw [entriesOf_cons_filled, List.length_cons] at hroom
          rw [rehashLoop, entriesOf_cons_filled]
          obtain ⟨pre, i, post, u, hpath, hpre, hi, hplace⟩ :=
            placeLoop_spec (H := H) v hnt (by omega) (key v)
          rw [hlen] at hplace
          rw [hplace]
          have hperm := entriesOf_set_fill hi (by simp) v
          have hch' : Chain H key (ns.set i ⟨.filled, v⟩) := by
            refine hch.set (by simp) fun _ pre' post' hpath' => ?_
            rw [probes_split_unique hpath' hpath]
            exact hpre
          have hnt' : NoTombstone (ns.set i ⟨.filled, v⟩) := by
            intro j w hw
            rw [List.getElem?_set] at hw
            split at hw
            · split at hw
              · rw [Option.some.injEq] at hw
                exact hw ▸ by simp
              · cases hw
            · exact hnt j w hw
          obtain ⟨h₁, h₂, h₃, h₄⟩ := ih (ns.set i ⟨.filled, v⟩)
            (by simpa using hlen) hnt' hch' (by rw [hperm.length_eq, List.length_cons]; omega)
          refine ⟨h₁, h₂, h₃, h₄.trans ?_⟩
          exact (hperm.append_left _).trans List.perm_middle

/-! ## `maybe_grow` -/

/-- Doubling a table that is not as large as the address space. -/
theorem wrap_double {t : Table V} (h : Inv H key t) :
    wrap (t.cap * 2) = t.cap * 2 ∨ wrap (t.cap * 2) = 0 := by
  have hle := h.cap_le
  rcases Nat.lt_or_ge (t.cap * 2) sizeMod with hlt | hge
  · exact Or.inl (Nat.mod_eq_of_lt hlt)
  · have heq : t.cap * 2 = sizeMod := by
      have hm : sizeMod = 2 ^ 64 := rfl
      omega
    exact Or.inr (by rw [wrap, heq, Nat.mod_self])

theorem entries_length_le_cap (t : Table V) : t.entries.length ≤ t.cap :=
  length_entriesOf_le _

section

variable [Inhabited V]

/-- The three things `maybe_grow` can do to a table. -/
inductive Grown (H : Hashing K) (key : V → K) (t t' : Table V) : Prop where
  | first (h0 : t.cap = 0) (heq : t' = { t with slots := freshSlots initialCapacity })
  | doubled (h0 : t.cap ≠ 0) (hdue : t.growthDue = true)
      (hre : rehash H key (wrap (t.cap * 2)) t = some t')
  | kept (h0 : t.cap ≠ 0) (hdue : t.growthDue = false) (heq : t' = t)

theorem maybeGrow_cases {t t' : Table V} (h : maybeGrow H key t = some t') :
    Grown H key t t' := by
  rw [maybeGrow] at h
  split at h
  · next h0 => exact .first h0 (Option.some.inj h).symm
  · next h0 =>
      split at h
      · next hdue => exact .doubled h0 hdue h
      · next hdue => exact .kept h0 (by simpa using hdue) (Option.some.inj h).symm

/-- A successful rehash keeps the entries and builds a table of the new
capacity without tombstones. -/
theorem rehash_spec {t t' : Table V} (h : Inv H key t)
    (hre : rehash H key (wrap (t.cap * 2)) t = some t') :
    Inv H key t' ∧ t'.entries.Perm t.entries ∧ t'.cap = wrap (t.cap * 2) ∧
      NoTombstone t'.slots := by
  rw [rehash] at hre
  split at hre
  · cases hre
  · next hok =>
      rw [Option.some.injEq] at hre
      subst hre
      have hroom : (entriesOf t.slots).length ≤ wrap (t.cap * 2) := by
        rcases wrap_double h with hw | hw
        · have := entries_length_le_cap t
          rw [hw]
          exact Nat.le_trans this (by omega)
        · rw [hw, not_and, Bool.not_eq_true, List.any_eq_false] at hok
          have hnil : entriesOf t.slots = [] := by
            rw [entriesOf, List.filterMap_eq_nil_iff]
            intro s hs
            rw [if_neg (by simpa using hok rfl s hs)]
          rw [hnil]
          exact Nat.zero_le _
      obtain ⟨h₁, h₂, h₃, h₄⟩ := rehashLoop_spec H key
        (wrap (t.cap * 2)) t.slots (freshSlots (wrap (t.cap * 2)))
        (length_freshSlots _) (noTombstone_freshSlots _) (chain_freshSlots _)
        (by rw [entriesOf_freshSlots]; exact hroom)
      rw [entriesOf_freshSlots, List.append_nil] at h₄
      refine ⟨⟨?_, ?_, h₃⟩, h₄, h₁, h₂⟩
      · rw [h.size_eq]
        exact h₄.length_eq.symm
      · rw [cap, h₁]
        rcases wrap_double h with hw | hw
        · rcases h.cap_pow with h0 | ⟨e, he, hcap⟩
          · exact Or.inl (by rw [hw]; omega)
          · right
            refine ⟨e + 1, ?_, by rw [hw, hcap, pow_succ]; ring⟩
            by_contra hcon
            have he60 : e = 60 := by omega
            rw [hcap, he60] at hw
            exact absurd hw (by decide)
        · exact Or.inl hw

/-- `maybe_grow` keeps the invariant and the entries. -/
theorem maybeGrow_spec {t t' : Table V} (h : Inv H key t)
    (hg : maybeGrow H key t = some t') :
    Inv H key t' ∧ t'.entries.Perm t.entries := by
  cases maybeGrow_cases hg with
  | first h0 heq =>
      have hnil : t.entries = [] := by
        have := entries_length_le_cap t
        exact List.length_eq_zero_iff.mp (by omega)
      subst heq
      refine ⟨⟨?_, ?_, chain_freshSlots _⟩, ?_⟩
      · rw [entries, entriesOf_freshSlots, h.size_eq, hnil]
      · exact Or.inr ⟨0, by omega, length_freshSlots _⟩
      · rw [hnil, entries, entriesOf_freshSlots]
  | doubled h0 hdue hre =>
      obtain ⟨hinv, hperm, -, -⟩ := rehash_spec h hre
      exact ⟨hinv, hperm⟩
  | kept h0 hdue heq =>
      subst heq
      exact ⟨h, List.Perm.refl _⟩

end

end Ycetl.Ref.Table
