import Mathlib.Data.List.Nodup
import Ycetl.Lib.Holders
import Ycetl.Ref.DynamicMemory

/-!
# The table, the count and the heap

What is true of the heap between two calls is said relative to the number of
holders of each backend, which the heap itself does not know. `Accounted`
ties the two together: a backend with holders has that number as its count
and a table of exactly the blocks that were asked for through it, and one
without was deleted once and gave those blocks back. The four operations of
the layer, a new backend, a copy, a reset and an allocation, each move the
number of holders by what they say and keep everything else.
-/

namespace Ycetl.Ref

open Ycetl.Lib

/-! ## The table -/

namespace Backend

variable {B : Backend} {l : List SizeAndPointer}

/-- The table holds these blocks, in order, and nothing else. -/
structure Ledger (B : Backend) (l : List SizeAndPointer) : Prop where
  slotsTaken_eq : B.arraySlotsTaken = l.length
  vector : match B.arrayAllocationVector with
    | none => B.currentArrayVectorSize = 0 ∧ l = []
    | some v => 0 < B.currentArrayVectorSize ∧ v.length = B.currentArrayVectorSize ∧
        v.take l.length = l

theorem ledger_init : Ledger init [] := ⟨rfl, rfl, rfl⟩

theorem write_eq {v : List SizeAndPointer} {i : Nat} (h : i < v.length)
    (e : SizeAndPointer) : write v i e = some (v.set i e) := if_pos h

/-- Growth keeps the entries where they are. -/
theorem copyVector_spec {old v : List SizeAndPointer} (h : old.length ≤ v.length) :
    ∃ v', copyVector old v old.length = some v' ∧ v'.length = v.length ∧
      v'.take old.length = old := by
  have hloop := upLoop_inv
    (fun i r => do
      let v ← r
      let e ← old[i]?
      write v i e)
    (fun i r => ∃ v', r = some v' ∧ v'.length = v.length ∧ v'.take i = old.take i)
    0 old.length (s := some v) ⟨v, rfl, rfl, rfl⟩ ?_
  · rw [Nat.zero_add] at hloop
    obtain ⟨v', hv', hlen, htake⟩ := hloop
    exact ⟨v', hv', hlen, htake.trans (List.take_length ..)⟩
  · rintro i r - hi ⟨v', rfl, hlen, htake⟩
    have hio : i < old.length := by omega
    have hiv : i < v'.length := by omega
    refine ⟨v'.set i old[i], ?_, ?_, ?_⟩
    · simp only [Option.bind_eq_bind, Option.bind_some, List.getElem?_eq_getElem hio,
        write_eq hiv]
    · rw [List.length_set, hlen]
    · rw [List.take_add_one, List.take_add_one, List.getElem?_eq_getElem hio,
        List.getElem?_set_self hiv, List.take_set_of_le (Nat.le_refl i), htake]

/-- After the first half of `allocate` there is a free slot. -/
theorem Ledger.ensureVector (h : Ledger B l) :
    ∃ B' v, B.ensureVector = some B' ∧ Ledger B' l ∧
      B'.arrayAllocationVector = some v ∧ l.length < v.length := by
  obtain ⟨vec, size, taken⟩ := B
  obtain ⟨htaken, hvec⟩ := h
  dsimp only at htaken hvec
  subst htaken
  cases vec with
  | none =>
      obtain ⟨rfl, rfl⟩ := hvec
      exact ⟨⟨some (newVector initialVectorSize), initialVectorSize, 0⟩, _, rfl,
        ⟨rfl, Nat.succ_pos _, rfl, rfl⟩, rfl, Nat.succ_pos _⟩
  | some v =>
      obtain ⟨hpos, hlen, htake⟩ : 0 < size ∧ v.length = size ∧ v.take l.length = l := hvec
      have hle : l.length ≤ v.length := by
        have := congrArg List.length htake
        rw [List.length_take] at this
        omega
      rw [Backend.ensureVector, if_neg (show ¬ size = 0 by omega)]
      by_cases hfull : l.length ≥ size
      · -- The table is full: all its entries are copied to one twice as long.
        rw [if_pos hfull]
        have hv : v = l := by rw [← htake, List.take_of_length_le (by omega)]
        subst hv
        have hfit : v.length ≤ (newVector (size * vectorGrowthFactor)).length := by
          rw [newVector, List.length_replicate, vectorGrowthFactor]
          omega
        obtain ⟨v', hcopy, hlen', htake'⟩ := copyVector_spec hfit
        rw [newVector, List.length_replicate, vectorGrowthFactor] at hlen'
        rw [hlen] at hcopy
        refine ⟨⟨some v', size * vectorGrowthFactor, v.length⟩, v', ?_, ⟨rfl, ?_⟩, rfl,
          by omega⟩
        · simp only [Option.bind_eq_bind, Option.bind_some, hcopy]
          rfl
        · exact ⟨show 0 < size * 2 by omega, hlen', htake'⟩
      · rw [if_neg hfull]
        exact ⟨_, v, rfl, ⟨rfl, hpos, hlen, htake⟩, rfl, by omega⟩

/-- A free slot takes one more block. -/
theorem Ledger.record {v : List SizeAndPointer} (h : Ledger B l)
    (hv : B.arrayAllocationVector = some v) (hlt : l.length < v.length)
    (e : SizeAndPointer) : ∃ B', B.record e = some B' ∧ Ledger B' (l ++ [e]) := by
  obtain ⟨vec, size, taken⟩ := B
  obtain ⟨htaken, hvec⟩ := h
  dsimp only at htaken hv
  subst htaken hv
  obtain ⟨hpos, hlen, htake⟩ := hvec
  refine ⟨⟨some (v.set l.length e), size, l.length + 1⟩, ?_, ?_, ?_⟩
  · simp only [Backend.record, Option.bind_eq_bind, Option.bind_some, write_eq hlt]
    rfl
  · rw [List.length_append]
    rfl
  · refine ⟨hpos, by rw [List.length_set]; exact hlen, ?_⟩
    rw [List.length_append, List.length_singleton, List.take_add_one,
      List.getElem?_set_self hlt, List.take_set_of_le (Nat.le_refl _), htake]
    rfl

/-- The destructor gives back what is in the table. -/
theorem Ledger.destructor (h : Ledger B l) : B.destructor = some l := by
  obtain ⟨vec, size, taken⟩ := B
  obtain ⟨htaken, hvec⟩ := h
  dsimp only at htaken hvec
  subst htaken
  cases vec with
  | none => rw [Backend.destructor, hvec.2]
  | some v =>
      obtain ⟨-, hlen, htake⟩ := hvec
      have hloop := upLoop_inv
        (fun i r => do
          let freed ← r
          let e ← v[i]?
          pure (freed ++ [e]))
        (fun i r => r = some (l.take i)) 0 l.length (s := some [])
        (by rw [List.take_zero]) ?_
      · rw [Nat.zero_add, List.take_length] at hloop
        exact hloop
      · rintro i r - hi rfl
        have hil : i < l.length := by omega
        have hvi : v[i]? = l[i]? := by
          rw [← List.getElem?_take_of_lt hil, htake]
        simp only [Option.bind_eq_bind, Option.bind_some, hvi,
          List.getElem?_eq_getElem hil]
        rw [List.take_add_one, List.getElem?_eq_getElem hil]
        rfl

end Backend

/-! ## The heap -/

namespace Heap

variable {H : Heap} {f : Nat → Nat} {b : Nat}

/-- The blocks that were asked for through a backend, in order. -/
def blocksOf (H : Heap) (b : Nat) : List SizeAndPointer :=
  (H.blocks.filter fun e => e.1 = b).map Prod.snd

/-- What the heap has for a backend with this many holders. -/
def Entry (H : Heap) (b : Nat) : Nat → Prop
  | 0 => H.count? b = none ∧ H.backend? b = none
  | n + 1 => H.count? b = some (n + 1) ∧
      ∃ B, H.backend? b = some B ∧ B.Ledger (H.blocksOf b)

theorem Entry.congr {H' : Heap} {n : Nat} (h : H.Entry b n)
    (hc : H'.count? b = H.count? b) (hb : H'.backend? b = H.backend? b)
    (hl : H'.blocksOf b = H.blocksOf b) : H'.Entry b n := by
  cases n with
  | zero => exact ⟨hc.trans h.1, hb.trans h.2⟩
  | succ n =>
      obtain ⟨hn, B, hB, hled⟩ := h
      exact ⟨hc.trans hn, B, hb.trans hB, hl ▸ hled⟩

/-- The heap with `f b` holders of each backend. -/
structure Accounted (H : Heap) (f : Nat → Nat) : Prop where
  length_eq : H.counts.length = H.backends.length
  entry : ∀ b, H.Entry b (f b)
  destroyed_nodup : H.destroyed.Nodup
  destroyed_iff : ∀ b, b ∈ H.destroyed ↔ b < H.backends.length ∧ f b = 0
  released_eq : H.released = H.destroyed.flatMap H.blocksOf
  owner_lt : ∀ e ∈ H.blocks, e.1 < H.backends.length
  numbered : ∀ (k : Nat) (e : Nat × SizeAndPointer), H.blocks[k]? = some e → e.2.ptr = some k

theorem accounted_empty : Accounted empty fun _ => 0 where
  length_eq := rfl
  entry _ := ⟨rfl, rfl⟩
  destroyed_nodup := List.nodup_nil
  destroyed_iff _ := by simp [empty]
  released_eq := rfl
  owner_lt _ he := by cases he
  numbered _ _ he := by cases he

theorem Accounted.backend_of_pos (h : Accounted H f) (hb : 0 < f b) :
    H.count? b = some (f b) ∧ ∃ B, H.backend? b = some B ∧ B.Ledger (H.blocksOf b) := by
  have he := h.entry b
  obtain ⟨n, hn⟩ := Nat.exists_eq_add_of_lt hb
  rw [Nat.zero_add] at hn
  rwa [hn] at he ⊢

theorem Accounted.lt_of_pos (h : Accounted H f) (hb : 0 < f b) : b < H.backends.length := by
  obtain ⟨-, B, hB, -⟩ := h.backend_of_pos hb
  exact lt_of_record? hB

/-- A record beyond the last has no holders. -/
theorem Accounted.eq_zero_of_le (h : Accounted H f) (hb : H.backends.length ≤ b) :
    f b = 0 := by
  by_contra hne
  exact absurd (h.lt_of_pos (Nat.pos_of_ne_zero hne)) (by omega)

/-- A pointer and its count belong together, and the holder it stands for is
one of those that are counted. -/
structure Held (f : Nat → Nat) (p : SharedPtr) : Prop where
  ptr_eq : p.ptr = p.count
  pos : ∀ c, p.count = some c → 0 < f c

/-! ### A new backend -/

theorem Accounted.create (h : Accounted H f) :
    Accounted (SharedPtr.ofPtr H.newBackend.1 H.newBackend.2).1
        (gain f (some H.backends.length)) ∧
      (SharedPtr.ofPtr H.newBackend.1 H.newBackend.2).2 =
        ⟨some H.backends.length, some H.backends.length⟩ := by
  have hlen := h.length_eq
  have hzero := h.eq_zero_of_le (Nat.le_refl H.backends.length)
  have hnone : H.blocksOf H.backends.length = [] := by
    rw [blocksOf, List.map_eq_nil_iff, List.filter_eq_nil_iff]
    intro e he
    have := h.owner_lt e he
    rw [decide_eq_true_eq]
    omega
  refine ⟨⟨?_, fun d => ?_, h.destroyed_nodup, fun d => ?_, h.released_eq, fun e he => ?_,
    h.numbered⟩, ?_⟩
  · simp only [SharedPtr.ofPtr, newCount, newBackend, List.length_append, hlen,
      List.length_singleton]
  · by_cases hd : H.backends.length = d
    · subst hd
      rw [gain_self, hzero]
      refine ⟨?_, .init, ?_, ?_⟩
      · exact (record?_append _ _ _).trans (if_pos hlen.symm)
      · exact (record?_append _ _ _).trans (if_pos rfl)
      · exact hnone ▸ Backend.ledger_init
    · rw [gain_of_ne _ hd]
      exact (h.entry d).congr
        ((record?_append _ _ _).trans (if_neg fun heq => hd (heq.trans hlen).symm))
        ((record?_append _ _ _).trans (if_neg (Ne.symm hd))) rfl
  · rw [show (SharedPtr.ofPtr H.newBackend.1 H.newBackend.2).1.destroyed = H.destroyed from
      rfl, h.destroyed_iff]
    simp only [SharedPtr.ofPtr, newCount, newBackend, List.length_append,
      List.length_singleton]
    by_cases hd : H.backends.length = d
    · subst hd
      rw [gain_self]
      omega
    · rw [gain_of_ne _ hd]
      omega
  · simp only [SharedPtr.ofPtr, newCount, newBackend, List.length_append,
      List.length_singleton] at he ⊢
    have := h.owner_lt e he
    omega
  · simp only [SharedPtr.ofPtr, newCount, newBackend, hlen]

/-! ### Copies and resets -/

/-- The count of a backend that keeps a holder. -/
theorem Accounted.setCount (h : Accounted H f) (hb : 0 < f b) {g : Nat → Nat} {n : Nat}
    (hg : g b = n + 1) (hne : ∀ d, b ≠ d → g d = f d) :
    Accounted (H.setCount b (some (n + 1))) g := by
  have hlt : b < H.counts.length := h.length_eq ▸ h.lt_of_pos hb
  refine ⟨(List.length_set ..).trans h.length_eq, fun d => ?_, h.destroyed_nodup,
    fun d => (h.destroyed_iff d).trans ?_, h.released_eq, h.owner_lt, h.numbered⟩
  · by_cases hd : b = d
    · subst hd
      obtain ⟨-, B, hB, hled⟩ := h.backend_of_pos hb
      rw [hg]
      exact ⟨(record?_set hlt _ _).trans (if_pos rfl), B, hB, hled⟩
    · rw [hne d hd]
      exact (h.entry d).congr ((record?_set hlt _ _).trans (if_neg hd)) rfl rfl
  · by_cases hd : b = d
    · subst hd
      have : (H.setCount b (some (n + 1))).backends.length = H.backends.length := rfl
      omega
    · rw [hne d hd]
      rfl

theorem Held.copy {p : SharedPtr} (hp : Held f p) (h : Accounted H f) :
    ∃ H', SharedPtr.copy H p = some (H', p) ∧ Accounted H' (gain f p.count) ∧
      H'.blocks = H.blocks := by
  obtain ⟨ptr, count⟩ := p
  cases count with
  | none => exact ⟨H, rfl, h, rfl⟩
  | some c =>
      have hpos := hp.pos c rfl
      refine ⟨H.setCount c (some (f c + 1)), ?_,
        h.setCount hpos (gain_self f c) fun d hd => gain_of_ne f hd, rfl⟩
      simp only [SharedPtr.copy, (h.backend_of_pos hpos).1, Option.bind_eq_bind,
        Option.bind_some]
      rfl

/-- The last holder of a backend goes. -/
theorem Accounted.deleteBackend (h : Accounted H f) (hb : f b = 1) :
    ∃ H', H.deleteBackend b = some H' ∧ H'.blocks = H.blocks ∧
      Accounted (H'.setCount b none) (lose f (some b)) := by
  have hpos : 0 < f b := by omega
  have hlt := h.lt_of_pos hpos
  have hltc : b < H.counts.length := h.length_eq ▸ hlt
  obtain ⟨-, B, hB, hled⟩ := h.backend_of_pos hpos
  refine ⟨{ H with
    backends := H.backends.set b none
    released := H.released ++ H.blocksOf b
    destroyed := H.destroyed ++ [b] }, ?_, rfl, ?_⟩
  · simp only [Heap.deleteBackend, hB, hled.destructor, Option.bind_eq_bind,
      Option.bind_some]
    rfl
  · have hlose : lose f (some b) b = 0 := by rw [lose_self, hb]
    refine ⟨?_, fun d => ?_, ?_, fun d => ?_, ?_, fun e he => ?_, h.numbered⟩
    · simp only [Heap.setCount, List.length_set]
      exact h.length_eq
    · by_cases hd : b = d
      · subst hd
        rw [hlose]
        exact ⟨(record?_set hltc _ _).trans (if_pos rfl),
          (record?_set hlt _ _).trans (if_pos rfl)⟩
      · rw [lose_of_ne f hd]
        exact (h.entry d).congr ((record?_set hltc _ _).trans (if_neg hd))
          ((record?_set hlt _ _).trans (if_neg hd)) rfl
    · refine List.nodup_append.mpr ⟨h.destroyed_nodup, List.pairwise_singleton _ b, ?_⟩
      intro d hd e he heq
      rw [List.mem_singleton] at he
      subst heq he
      have := ((h.destroyed_iff _).mp hd).2
      omega
    · have hmem : d ∈ H.destroyed ++ [b] ↔ (d < H.backends.length ∧ f d = 0) ∨ d = b := by
        rw [List.mem_append, List.mem_singleton, h.destroyed_iff]
      refine hmem.trans ?_
      simp only [Heap.setCount, List.length_set]
      by_cases hd : b = d
      · subst hd
        rw [hlose]
        simp [hlt]
      · rw [lose_of_ne f hd]
        simp [Ne.symm hd]
    · refine (congrArg (· ++ H.blocksOf b) h.released_eq).trans ?_
      exact (List.flatMap_append.trans (by rw [List.flatMap_singleton]; rfl)).symm
    · simp only [Heap.setCount, List.length_set]
      exact h.owner_lt e he

theorem Held.reset {p : SharedPtr} (hp : Held f p) (h : Accounted H f) :
    ∃ H', p.reset H = some (H', .null) ∧ Accounted H' (lose f p.count) ∧
      H'.blocks = H.blocks := by
  obtain ⟨ptr, count⟩ := p
  obtain rfl : ptr = count := hp.ptr_eq
  cases ptr with
  | none => exact ⟨H, rfl, h, rfl⟩
  | some c =>
      have hpos := hp.pos c rfl
      obtain ⟨n, hn⟩ : ∃ n, f c = n + 1 := ⟨f c - 1, by omega⟩
      have hcount := (h.backend_of_pos hpos).1
      rw [hn] at hcount
      cases n with
      | zero =>
          obtain ⟨H', hdel, hblocks, hacc⟩ := h.deleteBackend hn
          refine ⟨H'.setCount c none, ?_, hacc, hblocks⟩
          simp only [SharedPtr.reset, hcount, SharedPtr.deletePtr, hdel,
            Option.bind_eq_bind, Option.bind_some]
          rfl
      | succ n =>
          refine ⟨H.setCount c (some (n + 1)), ?_,
            h.setCount hpos (by rw [lose_self, hn]; rfl) fun d hd => lose_of_ne f hd, rfl⟩
          simp only [SharedPtr.reset, hcount, Option.bind_eq_bind, Option.bind_some]
          rfl

/-! ### Blocks -/

theorem blocksOf_append (H : Heap) (b : Nat) (e : SizeAndPointer) (B : List (Option Backend))
    (d : Nat) : blocksOf { H with backends := B, blocks := H.blocks ++ [(b, e)] } d =
      if b = d then H.blocksOf d ++ [e] else H.blocksOf d := by
  simp only [blocksOf, List.filter_append, List.map_append]
  by_cases hd : b = d
  · simp [hd]
  · simp [hd]

/-- An allocation through a backend that has a holder. -/
theorem Accounted.allocate (h : Accounted H f) (hb : 0 < f b) (n : Nat) :
    ∃ H' raw, H.allocate b n = some (H', raw) ∧ Accounted H' f ∧
      if n = 0 then raw = none ∧ H'.blocks = H.blocks
      else raw = some H.blocks.length ∧ H'.blocks = H.blocks ++ [(b, ⟨raw, n⟩)] := by
  have hlt := h.lt_of_pos hb
  obtain ⟨hcount, B, hB, hled⟩ := h.backend_of_pos hb
  by_cases hn : n = 0
  · refine ⟨H, none, ?_, h, by rw [if_pos hn]; exact ⟨rfl, rfl⟩⟩
    simp only [Heap.allocate, hB, Option.bind_eq_bind, Option.bind_some, if_pos hn]
    rfl
  · obtain ⟨B₁, v, hens, hled₁, hv, hroom⟩ := hled.ensureVector
    obtain ⟨B₂, hrec, hled₂⟩ := hled₁.record hv hroom ⟨some H.blocks.length, n⟩
    refine ⟨{ H with
      backends := H.backends.set b (some B₂)
      blocks := H.blocks ++ [(b, ⟨some H.blocks.length, n⟩)] }, _, ?_, ?_,
      by rw [if_neg hn]; exact ⟨rfl, rfl⟩⟩
    · simp only [Heap.allocate, hB, Option.bind_eq_bind, Option.bind_some, if_neg hn, hens,
        hrec]
      rfl
    · refine ⟨(List.length_set ..).symm ▸ h.length_eq, fun d => ?_, h.destroyed_nodup,
        fun d => ?_, ?_, fun e he => ?_, fun k e he => ?_⟩
      · by_cases hd : b = d
        · subst hd
          obtain ⟨m, hm⟩ : ∃ m, f b = m + 1 := ⟨f b - 1, by omega⟩
          rw [hm] at hcount ⊢
          refine ⟨hcount, B₂, (record?_set hlt _ _).trans (if_pos rfl), ?_⟩
          rw [blocksOf_append, if_pos rfl]
          exact hled₂
        · exact (h.entry d).congr rfl ((record?_set hlt _ _).trans (if_neg hd))
            (by rw [blocksOf_append, if_neg hd])
      · simp only [List.length_set]
        exact h.destroyed_iff d
      · -- A backend that was deleted has no holder, and is not the one that asks.
        refine h.released_eq.trans (List.flatMap_congr fun d hd => ?_)
        have hne : b ≠ d := by
          intro heq
          subst heq
          have := ((h.destroyed_iff _).mp hd).2
          omega
        rw [blocksOf_append, if_neg hne]
      · simp only [List.length_set]
        rcases List.mem_append.mp he with he | he
        · exact h.owner_lt e he
        · rw [List.mem_singleton.mp he]
          exact hlt
      · dsimp only at he
        rcases Nat.lt_trichotomy k H.blocks.length with hk | hk | hk
        · rw [List.getElem?_append_left hk] at he
          exact h.numbered k e he
        · subst hk
          rw [List.getElem?_concat_length, Option.some.injEq] at he
          rw [← he]
        · rw [List.getElem?_eq_none (by simp; omega)] at he
          cases he

/-- `deallocate` gives nothing back. -/
theorem Accounted.deallocate (h : Accounted H f) (hb : 0 < f b) (ptr : Option Nat) (n : Nat) :
    H.deallocate b ptr n = some H := by
  obtain ⟨-, B, hB, -⟩ := h.backend_of_pos hb
  simp only [Heap.deallocate, hB, Option.bind_eq_bind, Option.bind_some, Backend.deallocate,
    set_record? hB]
  rfl

/-! ### Each block once -/

/-- A block is the only one with its number. -/
theorem Accounted.filter_blocks (h : Accounted H f) {e : Nat × SizeAndPointer}
    (he : e ∈ H.blocks) : H.blocks.filter (fun x => x.2.ptr = e.2.ptr) = [e] := by
  obtain ⟨k, hk⟩ := List.getElem?_of_mem he
  obtain ⟨hlt, hget⟩ := List.getElem?_eq_some_iff.mp hk
  have hptr := h.numbered k e hk
  have hother : ∀ (j : Nat) (x : Nat × SizeAndPointer), H.blocks[j]? = some x → j ≠ k →
      ¬ decide (x.2.ptr = e.2.ptr) = true := by
    intro j x hx hj
    rw [h.numbered j x hx, hptr, decide_eq_true_eq, Option.some.injEq]
    exact hj
  have hsplit : H.blocks = H.blocks.take k ++ e :: H.blocks.drop (k + 1) := by
    rw [← hget, ← List.drop_eq_getElem_cons hlt, List.take_append_drop]
  rw [hsplit, List.filter_append, List.filter_cons_of_pos (by rw [decide_eq_true_eq]),
    List.filter_eq_nil_iff.mpr, List.filter_eq_nil_iff.mpr, List.nil_append]
  · intro x hx
    obtain ⟨j, hj⟩ := List.getElem?_of_mem hx
    rw [List.getElem?_drop] at hj
    exact hother _ x hj (by omega)
  · intro x hx
    obtain ⟨j, hj⟩ := List.getElem?_of_mem hx
    rw [List.getElem?_take] at hj
    split at hj
    · exact hother j x hj (by omega)
    · cases hj

theorem Accounted.filter_blocksOf (h : Accounted H f) {e : Nat × SizeAndPointer}
    (he : e ∈ H.blocks) (d : Nat) :
    (H.blocksOf d).filter (fun x => x.ptr = e.2.ptr) =
      if e.1 = d then [e.2] else [] := by
  have hone := congrArg (fun l => (l.filter fun x => x.1 = d).map Prod.snd)
    (h.filter_blocks he)
  rw [blocksOf, List.filter_map, List.filter_filter]
  simp only [List.filter_filter] at hone
  refine Eq.trans ?_ (hone.trans ?_)
  · congr 2
    funext x
    exact Bool.and_comm _ _
  · by_cases hd : e.1 = d
    · simp [hd]
    · simp [hd]

theorem flatMap_ite_singleton {α : Type} (l : List Nat) (a : Nat) (x : α) :
    l.flatMap (fun d => if a = d then [x] else []) = List.replicate (l.count a) x := by
  induction l with
  | nil => rfl
  | cons d l ih =>
      rw [List.flatMap_cons, ih]
      by_cases hd : a = d
      · subst hd
        rw [if_pos rfl, List.count_cons_self, List.replicate_succ]
        rfl
      · rw [if_neg hd, List.count_cons_of_ne (Ne.symm hd)]
        rfl

/-- A block is given back as often as its backend was deleted. -/
theorem Accounted.filter_released (h : Accounted H f) {e : Nat × SizeAndPointer}
    (he : e ∈ H.blocks) : H.released.filter (fun r => r.ptr = e.2.ptr) =
      List.replicate (H.destroyed.count e.1) e.2 := by
  rw [h.released_eq, List.filter_flatMap, ← flatMap_ite_singleton]
  exact List.flatMap_congr fun d _ => h.filter_blocksOf he d

theorem Accounted.count_destroyed (h : Accounted H f) (hb : b < H.backends.length) :
    H.destroyed.count b = if f b = 0 then 1 else 0 := by
  by_cases hf : f b = 0
  · rw [if_pos hf]
    exact List.count_eq_one_of_mem h.destroyed_nodup ((h.destroyed_iff b).mpr ⟨hb, hf⟩)
  · rw [if_neg hf]
    exact List.count_eq_zero.mpr fun hmem => hf ((h.destroyed_iff b).mp hmem).2

theorem Accounted.mem_released (h : Accounted H f) {r : SizeAndPointer}
    (hr : r ∈ H.released) : ∃ b, (b, r) ∈ H.blocks := by
  rw [h.released_eq] at hr
  obtain ⟨b, -, hr⟩ := List.mem_flatMap.mp hr
  obtain ⟨e, he, rfl⟩ := List.mem_map.mp hr
  exact ⟨e.1, List.mem_of_mem_filter he⟩

end Heap

end Ycetl.Ref
