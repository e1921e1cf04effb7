import Mathlib.Logic.Equiv.Basic
import Ycetl.Lib.Runs
import Ycetl.Proofs.UniquePtrDelete

/-!
# `unique_ptr` owns alone, unless a move assignment deletes its own source

Every member but one leaves a heap in which no two `unique_ptr`s hold the same
node before it deletes anything. `a = std::move(b)` deletes what `a` held while
`b` still holds what `a` holds now. When `b` is a field within reach of the old
object, its destructor deletes the node that was handed over, and `b` is cleared
after its end; when `a` is, the assignment destroys its own target. Otherwise
the delete does not meet `b` at all, and clearing `b` before it would have made
no difference: that is how the assignment is compared with the other members.
-/

namespace Ycetl.Ref.UniquePtr.Objects

open Ycetl.Lib

variable {o o' : Objects} {a b c : Loc} {n m r : Nat} {p : Option Nat} {S : Nat → Prop}
  {L : List Nat}

/-! ## Places -/

theorem mem_locs_handle {h : Nat} :
    .handle h ∈ o.locs ↔ (record? o.handles h).isSome = true := by
  rw [locs, List.mem_append, List.mem_map, List.mem_flatMap]
  constructor
  · intro hor
    rcases hor with ⟨h', hh', heq⟩ | ⟨n, -, hn⟩
    · cases heq
      exact (List.mem_filter.mp hh').2
    · obtain ⟨i, -, hi⟩ := List.mem_map.mp hn
      cases hi
  · intro hh
    obtain ⟨x, hx⟩ := Option.isSome_iff_exists.mp hh
    exact Or.inl ⟨h, List.mem_filter.mpr ⟨List.mem_range.mpr (lt_of_record? hx), hh⟩, rfl⟩

theorem mem_locs_field {i : Nat} : .field n i ∈ o.locs ↔ i < o.fieldCount n := by
  rw [locs, List.mem_append, List.mem_map, List.mem_flatMap]
  constructor
  · intro hor
    rcases hor with ⟨h', -, heq⟩ | ⟨n', -, hn⟩
    · cases heq
    · obtain ⟨j, hj, heq⟩ := List.mem_map.mp hn
      cases heq
      exact List.mem_range.mp hj
  · intro hi
    refine Or.inr ⟨n, List.mem_range.mpr ?_, List.mem_map.mpr ⟨i, List.mem_range.mpr hi, rfl⟩⟩
    rw [fieldCount] at hi
    split at hi
    · exact absurd hi (Nat.not_lt_zero i)
    · next x hx => exact (List.getElem?_eq_some_iff.mp hx).1

theorem alive_of_mem_locs {i : Nat} (h : .field n i ∈ o.locs) : o.alive n = true := by
  rw [mem_locs_field, fieldCount] at h
  split at h
  · exact absurd h (Nat.not_lt_zero i)
  · next x hx =>
      split at h
      · next halive => exact alive_iff.mpr ⟨x, hx, halive⟩
      · exact absurd h (Nat.not_lt_zero i)

theorem mem_locs_of_load {i : Nat} (hn : o.alive n = true) (h : o.load (.field n i) = some m) :
    .field n i ∈ o.locs := mem_locs_field.mpr (load_lt_fieldCount hn h)

/-! ## Writes -/

@[simp] theorem alive_store (o : Objects) (a : Loc) (p : Option Nat) (n : Nat) :
    (o.store a p).alive n = o.alive n := by
  cases a with
  | handle h =>
      rw [store]
      split <;> rfl
  | field n' i =>
      rw [alive, alive, store, nodes_setNode]
      split
      · exact Option.any_map ..
      · rfl

theorem fieldCount_store (o : Objects) (a : Loc) (p : Option Nat) (n : Nat) :
    (o.store a p).fieldCount n = o.fieldCount n := by
  cases a with
  | handle h =>
      rw [store]
      split <;> rfl
  | field n' i =>
      rw [fieldCount, fieldCount, store, nodes_setNode]
      by_cases hn : n' = n
      · rw [if_pos hn]
        cases o.nodes[n]? with
        | none => rfl
        | some x =>
            show (if x.alive then (x.fields.set i p).length else 0) = _
            rw [List.length_set]
      · rw [if_neg hn]

theorem mem_locs_store (o : Objects) (a : Loc) (p : Option Nat) (c : Loc) :
    c ∈ (o.store a p).locs ↔ c ∈ o.locs := by
  cases c with
  | field n i => rw [mem_locs_field, mem_locs_field, fieldCount_store]
  | handle h =>
      rw [mem_locs_handle, mem_locs_handle]
      cases a with
      | field n i => rw [store, handles_setNode]
      | handle h' =>
          rw [store]
          split
          · rfl
          · next q hq =>
              rw [record?_set (lt_of_record? hq)]
              split
              · next heq => rw [← heq, hq]; rfl
              · rfl

theorem length_store (o : Objects) (a : Loc) (p : Option Nat) :
    (o.store a p).nodes.length = o.nodes.length := by
  cases a with
  | handle h =>
      rw [store]
      split <;> rfl
  | field n i => exact length_setNode ..

theorem deleted_store (o : Objects) (a : Loc) (p : Option Nat) :
    (o.store a p).deleted = o.deleted := by
  cases a with
  | handle h =>
      rw [store]
      split <;> rfl
  | field n i => exact deleted_setNode ..

theorem load_store (ha : a ∈ o.locs) (p : Option Nat) (c : Loc) :
    (o.store a p).load c = if a = c then p else o.load c := by
  cases a with
  | handle h =>
      obtain ⟨q, hq⟩ := Option.isSome_iff_exists.mp (mem_locs_handle.mp ha)
      rw [store]
      simp only [hq]
      cases c with
      | field n i => rw [if_neg (by simp)]; rfl
      | handle h' =>
          rw [load, load, record?_set (lt_of_record? hq)]
          by_cases hh : h = h'
          · rw [if_pos hh, if_pos (congrArg Loc.handle hh)]
            rfl
          · rw [if_neg hh, if_neg fun heq => hh (Loc.handle.inj heq)]
  | field n i =>
      cases c with
      | handle h => rw [if_neg (by simp), load, load, store, handles_setNode]
      | field n' i' =>
          rw [load, load, store, nodes_setNode]
          by_cases hn : n = n'
          · subst hn
            have hi := mem_locs_field.mp ha
            rw [fieldCount] at hi
            rw [if_pos rfl]
            cases hx : o.nodes[n]? with
            | none => simp [hx] at hi
            | some x =>
                have hlt : i < x.fields.length := by
                  simp only [hx] at hi
                  split at hi
                  · exact hi
                  · exact absurd hi (Nat.not_lt_zero i)
                simp only [Option.map_some, Option.bind_some, List.getElem?_set]
                by_cases hi' : i = i'
                · subst hi'
                  rw [if_pos rfl, if_pos rfl, if_pos hlt]
                  rfl
                · rw [if_neg hi', if_neg fun heq => hi' (Loc.field.inj heq).2]
          · rw [if_neg hn, if_neg fun heq => hn (Loc.field.inj heq).1]

/-! ## What a call has to leave behind -/

/-- No node was deleted twice, no `unique_ptr` points to a node that was
deleted, and no two of them hold the same node. -/
structure Sound (o : Objects) : Prop where
  deleted_once : o.deleted.Nodup
  no_dangling : ∀ a ∈ o.locs, ∀ n, o.load a = some n → o.alive n = true
  exclusive : ∀ a ∈ o.locs, ∀ b ∈ o.locs, ∀ n, o.load a = some n → o.load b = some n → a = b

/-- A heap in which the nodes that were deleted are those of the record. -/
structure Wf (o : Objects) : Prop extends Sound o where
  deleted_dead : ∀ n ∈ o.deleted, n < o.nodes.length ∧ o.alive n = false

theorem wf_empty : Wf empty :=
  ⟨⟨List.nodup_nil, fun _ ha => (by cases ha), fun _ ha => (by cases ha)⟩,
    fun _ hn => (by cases hn)⟩

/-- Not held by anyone. -/
def Unheld (o : Objects) (n : Nat) : Prop := ∀ c ∈ o.locs, o.load c ≠ some n

/-- A `unique_ptr` that is a field of one of these nodes. -/
def Inside (S : Nat → Prop) : Loc → Prop
  | .handle _ => False
  | .field n _ => S n

/-- A `unique_ptr` within reach of what `a` holds. -/
def Below (o : Objects) (a b : Loc) : Prop :=
  ∃ r, o.load a = some r ∧ Inside (o.graph.Reach r) b

/-! ## Taking down what nobody holds -/

theorem Deletes.mem_locs (h : Deletes o S o' L) (c : Loc) :
    c ∈ o'.locs ↔ c ∈ o.locs ∧ ¬ Inside S c := by
  cases c with
  | handle i =>
      rw [mem_locs_handle, mem_locs_handle, h.handles_eq]
      exact (and_iff_left not_false).symm
  | field n i =>
      by_cases hs : S n
      · refine iff_of_false (fun hmem => ?_) fun hmem => hmem.2 hs
        have := alive_of_mem_locs hmem
        rw [h.dead n hs] at this
        cases this
      · rw [mem_locs_field, mem_locs_field, fieldCount, h.frame n hs]
        exact (and_iff_left hs).symm

theorem Deletes.load (h : Deletes o S o' L) {c : Loc} (hc : ¬ Inside S c) :
    o'.load c = o.load c := by
  cases c with
  | handle i => rw [Objects.load, Objects.load, h.handles_eq]
  | field n i => exact load_congr (h.frame n hc) i

/-- A write does not matter to what is taken down. -/
theorem Deletes.store (h : Deletes o S o' L) (b : Loc) (p : Option Nat) :
    Deletes (o.store b p) S (o'.store b p) L := by
  refine ⟨fun m hm => by rw [alive_store, h.dead m hm], fun m hm => ?_, ?_, ?_, ?_⟩
  · cases b with
    | handle i =>
        rw [Objects.store, Objects.store, h.handles_eq]
        split <;> exact h.frame m hm
    | field n i =>
        rw [Objects.store, Objects.store, nodes_setNode, nodes_setNode, h.frame m hm]
  · rw [length_store, length_store, h.length_eq]
  · cases b with
    | handle i =>
        rw [Objects.store, Objects.store, h.handles_eq]
        split
        · exact h.handles_eq
        · rfl
    | field n i =>
        rw [Objects.store, Objects.store, handles_setNode, handles_setNode, h.handles_eq]
  · rw [deleted_store, deleted_store, h.deleted_eq]

theorem load_of_field {u i t : Nat} (h : o.graph.field u i = some t) :
    o.alive u = true ∧ o.load (.field u i) = some t := by
  rw [graph_field] at h
  split at h
  · next hu => exact ⟨hu, h⟩
  · cases h

/-- What a node reaches that nobody holds is a tree. -/
theorem Wf.forest (h : Wf o) (hr : o.alive r = true) (hun : Unheld o r) :
    o.graph.Forest [r] := by
  have hmem : ∀ {u i t}, o.graph.field u i = some t → .field u i ∈ o.locs :=
    fun hi => mem_locs_of_load (load_of_field hi).1 (load_of_field hi).2
  refine ⟨List.nodup_singleton r, fun v hv => List.mem_singleton.mp hv ▸ hr,
    fun u i t _ hi => ⟨?_, fun ht => ?_⟩, fun u i u' i' t _ _ hi hi' => ?_⟩
  · exact h.no_dangling _ (hmem hi) t (load_of_field hi).2
  · rw [List.mem_singleton.mp ht] at hi
    exact hun _ (hmem hi) (load_of_field hi).2
  · exact Loc.field.inj (h.exclusive _ (hmem hi) _ (hmem hi') t (load_of_field hi).2
      (load_of_field hi').2)

/-- Taking that tree down leaves a heap of the same kind. -/
theorem Wf.deletes (h : Wf o) (hun : Unheld o r) (hd : Deletes o (o.graph.Reach r) o' L)
    (hL : L.Nodup ∧ ∀ m, m ∈ L ↔ o.graph.Reach r m) : Wf o' := by
  have hkept : ∀ c ∈ o'.locs, c ∈ o.locs ∧ o'.load c = o.load c := fun c hc =>
    ⟨((hd.mem_locs c).mp hc).1, hd.load ((hd.mem_locs c).mp hc).2⟩
  refine ⟨⟨?_, fun a ha n hn => ?_, fun a ha b hb n hn hn' => ?_⟩, fun n hn => ?_⟩
  · rw [hd.deleted_eq]
    refine List.nodup_append.mpr ⟨h.deleted_once, hL.1, fun x hx y hy hxy => ?_⟩
    subst hxy
    have halive : o.alive x = true := ((hL.2 x).mp hy).alive
    rw [(h.deleted_dead x hx).2] at halive
    cases halive
  · obtain ⟨hmem, hload⟩ := hkept a ha
    rw [hload] at hn
    refine (hd.removed.alive_iff n).mpr ⟨h.no_dangling a hmem n hn, fun hr => ?_⟩
    -- The owner of what is within reach is within reach itself.
    rcases hr.owner with rfl | ⟨u, i, hu, hi⟩
    · exact hun a hmem hn
    · obtain ⟨halive, hui⟩ := load_of_field hi
      have := h.exclusive a hmem _ (mem_locs_of_load halive hui) n hn hui
      subst this
      exact ((hd.mem_locs _).mp ha).2 hu
  · obtain ⟨ha', hla⟩ := hkept a ha
    obtain ⟨hb', hlb⟩ := hkept b hb
    exact h.exclusive a ha' b hb' n (hla ▸ hn) (hlb ▸ hn')
  · rw [hd.deleted_eq] at hn
    rw [hd.length_eq]
    rcases List.mem_append.mp hn with hn | hn
    · obtain ⟨hlt, hdead⟩ := h.deleted_dead n hn
      refine ⟨hlt, ?_⟩
      rw [alive_congr (hd.frame n fun hr => ?_), hdead]
      have halive : o.alive n = true := hr.alive
      rw [hdead] at halive
      cases halive
    · have hr := (hL.2 n).mp hn
      obtain ⟨x, hx, -⟩ := alive_iff.mp (show o.alive n = true from hr.alive)
      exact ⟨(List.getElem?_eq_some_iff.mp hx).1, hd.dead n hr⟩

/-! ## Handing pointers around -/

/-- Pointers that change places. -/
theorem Wf.rearrange (h : Wf o) (halive : ∀ n, o'.alive n = o.alive n)
    (hlen : o'.nodes.length = o.nodes.length) (hdeleted : o'.deleted = o.deleted)
    {f : Loc → Loc} (hf : f.Injective)
    (hload : ∀ c ∈ o'.locs, ∀ n, o'.load c = some n → f c ∈ o.locs ∧ o.load (f c) = some n) :
    Wf o' := by
  refine ⟨⟨hdeleted ▸ h.deleted_once, fun a ha n hn => ?_, fun a ha b hb n hn hn' => ?_⟩,
    fun n hn => ?_⟩
  · obtain ⟨hmem, hl⟩ := hload a ha n hn
    rw [halive]
    exact h.no_dangling _ hmem n hl
  · obtain ⟨hma, hla⟩ := hload a ha n hn
    obtain ⟨hmb, hlb⟩ := hload b hb n hn'
    exact hf (h.exclusive _ hma _ hmb n hla hlb)
  · rw [hlen, halive]
    exact h.deleted_dead n (hdeleted ▸ hn)

theorem Wf.store_none (h : Wf o) (ha : a ∈ o.locs) : Wf (o.store a none) := by
  refine h.rearrange (alive_store o a none) (length_store ..) (deleted_store ..)
    Function.injective_id fun c hc n hn => ?_
  rw [load_store ha] at hn
  split at hn
  · cases hn
  · exact ⟨(mem_locs_store ..).mp hc, hn⟩

/-- A node that nobody holds is taken hold of. -/
theorem Wf.store_some (h : Wf o) (ha : a ∈ o.locs) (hm : o.alive m = true)
    (hun : Unheld o m) : Wf (o.store a (some m)) := by
  refine ⟨⟨deleted_store o a _ ▸ h.deleted_once, fun b hb n hn => ?_,
    fun b hb c hc n hn hn' => ?_⟩, fun n hn => ?_⟩
  · rw [load_store ha] at hn
    rw [alive_store]
    split at hn
    · rw [Option.some.injEq] at hn
      exact hn ▸ hm
    · exact h.no_dangling b ((mem_locs_store ..).mp hb) n hn
  · rw [mem_locs_store] at hb hc
    rw [load_store ha] at hn hn'
    split at hn <;> split at hn'
    · next hab hac => exact hab.symm.trans hac
    · next hab hac => exact absurd (hn.symm ▸ hn') (hun c hc)
    · next hab hac => exact absurd (hn'.symm ▸ hn) (hun b hb)
    · exact h.exclusive b hb c hc n hn hn'
  · rw [deleted_store] at hn
    rw [length_store, alive_store]
    exact h.deleted_dead n hn

/-- `a` gets what `b` had, and nothing is deleted. -/
def handOver (o : Objects) (a b : Loc) : Objects := (o.store a (o.load b)).store b none

theorem alive_handOver (o : Objects) (a b : Loc) (n : Nat) :
    (o.handOver a b).alive n = o.alive n := by
  rw [handOver, alive_store, alive_store]

theorem mem_locs_handOver (o : Objects) (a b c : Loc) :
    c ∈ (o.handOver a b).locs ↔ c ∈ o.locs := by
  rw [handOver, mem_locs_store, mem_locs_store]

theorem load_handOver (ha : a ∈ o.locs) (hb : b ∈ o.locs) (c : Loc) : (o.handOver a b).load c =
    if b = c then none else if a = c then o.load b else o.load c := by
  rw [handOver, load_store ((mem_locs_store o a (o.load b) b).mpr hb), load_store ha]

theorem Wf.handOver (h : Wf o) (ha : a ∈ o.locs) (hb : b ∈ o.locs) : Wf (o.handOver a b) := by
  refine h.rearrange (alive_handOver o a b) ((length_store ..).trans (length_store ..))
    ((deleted_store ..).trans (deleted_store ..)) (Equiv.swap a b).injective fun c hc n hn => ?_
  rw [mem_locs_handOver] at hc
  rw [load_handOver ha hb] at hn
  split at hn
  · cases hn
  · next hbc =>
      split at hn
      · next hac =>
          subst hac
          rw [Equiv.swap_apply_left]
          exact ⟨hb, hn⟩
      · next hac =>
          rw [Equiv.swap_apply_of_ne_of_ne (Ne.symm hac) (Ne.symm hbc)]
          exact ⟨hc, hn⟩

theorem Wf.swap (h : Wf o) (ha : a ∈ o.locs) (hb : b ∈ o.locs) : Wf (o.swap a b) := by
  have hb' := (mem_locs_store o a (o.load b) b).mpr hb
  refine h.rearrange (fun n => by rw [Objects.swap, alive_store, alive_store])
    ((length_store ..).trans (length_store ..)) ((deleted_store ..).trans (deleted_store ..))
    (Equiv.swap a b).injective fun c hc n hn => ?_
  rw [Objects.swap, mem_locs_store, mem_locs_store] at hc
  rw [Objects.swap, load_store hb', load_store ha] at hn
  split at hn
  · next hbc =>
      subst hbc
      rw [Equiv.swap_apply_right]
      exact ⟨ha, hn⟩
  · next hbc =>
      split at hn
      · next hac =>
          subst hac
          rw [Equiv.swap_apply_left]
          exact ⟨hb, hn⟩
      · next hac =>
          rw [Equiv.swap_apply_of_ne_of_ne (Ne.symm hac) (Ne.symm hbc)]
          exact ⟨hc, hn⟩

/-! ## Members -/

theorem load_append_handle (o : Objects) (p : Option Nat) (c : Loc) :
    Objects.load { o with handles := o.handles ++ [some p] } c =
      if c = .handle o.handles.length then p else o.load c := by
  cases c with
  | field n i => rw [if_neg (by simp)]; rfl
  | handle h =>
      rw [Objects.load, Objects.load, record?_append]
      by_cases hh : h = o.handles.length
      · rw [if_pos hh, if_pos (congrArg Loc.handle hh)]
        rfl
      · rw [if_neg hh, if_neg fun heq => hh (Loc.handle.inj heq)]

theorem mem_locs_append_handle (o : Objects) (p : Option Nat) (c : Loc) :
    c ∈ Objects.locs { o with handles := o.handles ++ [some p] } ↔
      c = .handle o.handles.length ∨ c ∈ o.locs := by
  cases c with
  | field n i =>
      rw [mem_locs_field, mem_locs_field]
      simp [fieldCount]
  | handle h =>
      rw [mem_locs_handle, mem_locs_handle, record?_append, Loc.handle.injEq]
      split
      · next hh => simp [hh]
      · next hh => simp [hh]

theorem Wf.moveConstruct (h : Wf o) (hb : b ∈ o.locs) : Wf (o.moveConstruct b) := by
  have hnew : b ≠ .handle o.handles.length := by
    intro heq
    subst heq
    obtain ⟨x, hx⟩ := Option.isSome_iff_exists.mp (mem_locs_handle.mp hb)
    exact absurd (lt_of_record? hx) (Nat.lt_irrefl _)
  have hb' := (mem_locs_append_handle o (o.load b) b).mpr (Or.inr hb)
  refine h.rearrange (fun n => alive_store _ b none n) (length_store ..) (deleted_store ..)
    (Equiv.swap (.handle o.handles.length) b).injective fun c hc n hn => ?_
  rw [Objects.moveConstruct, mem_locs_store, mem_locs_append_handle] at hc
  rw [Objects.moveConstruct, load_store hb', load_append_handle] at hn
  split at hn
  · cases hn
  · next hbc =>
      split at hn
      · next hac =>
          subst hac
          rw [Equiv.swap_apply_left]
          exact ⟨hb, hn⟩
      · next hac =>
          rw [Equiv.swap_apply_of_ne_of_ne hac (Ne.symm hbc)]
          exact ⟨hc.resolve_left hac, hn⟩

theorem alive_lt (h : o.alive n = true) : n < o.nodes.length := by
  obtain ⟨x, hx, -⟩ := alive_iff.mp h
  exact (List.getElem?_eq_some_iff.mp hx).1

/-- Only the new handle holds the new node. -/
theorem Wf.makeUnique (h : Wf o) (k : Nat) : Wf (o.makeUnique k) := by
  have halive : ∀ n, (o.makeUnique k).alive n = if n = o.nodes.length then true else o.alive n := by
    intro n
    rw [alive, alive, Objects.makeUnique]
    by_cases hn : n = o.nodes.length
    · rw [if_pos hn, hn, List.getElem?_concat_length]
      rfl
    · rw [if_neg hn]
      rcases Nat.lt_or_ge n o.nodes.length with hlt | hge
      · rw [List.getElem?_append_left hlt]
      · rw [List.getElem?_eq_none (by rw [List.length_append, List.length_singleton]; omega),
          List.getElem?_eq_none hge]
  have hold : ∀ c ∈ (o.makeUnique k).locs, ∀ n, (o.makeUnique k).load c = some n →
      (c = .handle o.handles.length ∧ n = o.nodes.length) ∨ c ∈ o.locs ∧ o.load c = some n := by
    intro c hc n hn
    cases c with
    | handle i =>
        rw [mem_locs_handle] at hc ⊢
        simp only [Objects.makeUnique, Objects.load, record?_append] at hc hn
        rw [Loc.handle.injEq]
        split at hn
        · next hi => exact Or.inl ⟨hi, (Option.some.inj hn).symm⟩
        · next hi =>
            rw [if_neg hi] at hc
            exact Or.inr ⟨hc, hn⟩
    | field m i =>
        rcases Nat.lt_trichotomy m o.nodes.length with hm | rfl | hm
        · have hget : (o.makeUnique k).nodes[m]? = o.nodes[m]? :=
            List.getElem?_append_left hm
          rw [mem_locs_field, fieldCount, hget] at hc
          rw [load_congr hget] at hn
          exact Or.inr ⟨mem_locs_field.mpr hc, hn⟩
        · have hget : (o.makeUnique k).nodes[o.nodes.length]? =
              some ⟨true, List.replicate k none⟩ := List.getElem?_concat_length
          rw [Objects.load, hget, Option.bind_some, List.getElem?_replicate] at hn
          split at hn <;> cases hn
        · have := alive_lt (alive_of_mem_locs hc)
          rw [Objects.makeUnique, List.length_append, List.length_singleton] at this
          omega
  have hfresh : ∀ c ∈ o.locs, o.load c ≠ some o.nodes.length := fun c hc hn =>
    absurd (alive_lt (h.no_dangling c hc _ hn)) (Nat.lt_irrefl _)
  refine ⟨⟨h.deleted_once, fun a ha n hn => ?_, fun a ha b hb n hn hn' => ?_⟩, fun n hn => ?_⟩
  · rw [halive]
    split
    · rfl
    · next hne =>
        rcases hold a ha n hn with ⟨-, heq⟩ | ⟨hmem, hload⟩
        · exact absurd heq hne
        · exact h.no_dangling a hmem n hload
  · rcases hold a ha n hn with ⟨ha', heq⟩ | ⟨hma, hla⟩ <;>
      rcases hold b hb n hn' with ⟨hb', heq'⟩ | ⟨hmb, hlb⟩
    · exact ha'.trans hb'.symm
    · exact absurd (heq ▸ hlb) (hfresh b hmb)
    · exact absurd (heq' ▸ hla) (hfresh a hma)
    · exact h.exclusive a hma b hmb n hla hlb
  · obtain ⟨hlt, hdead⟩ := h.deleted_dead n hn
    rw [halive, if_neg (by omega), hdead]
    refine ⟨?_, rfl⟩
    rw [Objects.makeUnique, List.length_append]
    omega

/-- `reset` to a null pointer, or to a node that nobody holds. -/
theorem Wf.reset (h : Wf o) (ha : a ∈ o.locs)
    (hp : ∀ m, p = some m → o.alive m = true ∧ Unheld o m) :
    ∃ o', o.reset a p = some o' ∧ Wf o' := by
  have hwf : Wf (o.store a p) := by
    cases p with
    | none => exact h.store_none ha
    | some m => exact h.store_some ha (hp m rfl).1 (hp m rfl).2
  rw [Objects.reset, resetWith]
  cases hr : o.load a with
  | none => exact ⟨_, rfl, hwf⟩
  | some r =>
      -- What `a` held is held by nobody now.
      have hun : Unheld (o.store a p) r := by
        intro c hc hl
        rw [mem_locs_store] at hc
        rw [load_store ha] at hl
        split at hl
        · exact (hp r hl).2 a ha hr
        · next hac => exact hac (h.exclusive a ha c hc r hr hl)
      obtain ⟨o', L, hdel, hd, hforest⟩ := delete_spec (o.store a p) r
      refine ⟨o', hdel, hwf.deletes hun hd (hforest (hwf.forest ?_ hun))⟩
      rw [alive_store]
      exact h.no_dangling a ha r hr

theorem Wf.destroy (h : Wf o) {i : Nat} (hi : .handle i ∈ o.locs) :
    ∃ o', o.destroy i = some o' ∧ Wf o' := by
  obtain ⟨o₁, hreset, hwf⟩ := h.reset (p := none) hi fun m hm => by cases hm
  refine ⟨_, by rw [Objects.destroy, hreset]; rfl, ?_⟩
  refine hwf.rearrange (fun _ => rfl) rfl rfl Function.injective_id fun c hc n hn => ?_
  cases c with
  | field m j =>
      rw [mem_locs_field] at hc
      exact ⟨mem_locs_field.mpr hc, hn⟩
  | handle j =>
      rw [mem_locs_handle] at hc
      have hlt : i < o₁.handles.length ∨ o₁.handles.length ≤ i := Nat.lt_or_ge ..
      rcases hlt with hlt | hge
      · rw [Objects.load, record?_set hlt] at hn
        rw [record?_set hlt] at hc
        split at hn
        · cases hn
        · next hij =>
            rw [if_neg hij] at hc
            exact ⟨mem_locs_handle.mpr hc, hn⟩
      · rw [List.set_eq_of_length_le hge] at hc
        rw [Objects.load, List.set_eq_of_length_le hge] at hn
        exact ⟨mem_locs_handle.mpr hc, hn⟩

/-! ## Move assignment -/

theorem field_store (ha : a ∈ o.locs) (p : Option Nat) {u : Nat} (hu : ∀ i, a ≠ .field u i) :
    (o.store a p).graph.field u = o.graph.field u := by
  funext i
  rw [graph_field, graph_field, alive_store, load_store ha, if_neg (hu i)]

theorem graph_alive_store (o : Objects) (a : Loc) (p : Option Nat) (m : Nat) :
    (o.store a p).graph.alive m ↔ o.graph.alive m := by
  show (o.store a p).alive m = true ↔ o.alive m = true
  rw [alive_store]

/-- A write outside of what is within reach does not matter to it. -/
theorem reach_store (ha : a ∈ o.locs) (hout : ¬ Inside (o.graph.Reach r) a) (p : Option Nat)
    (m : Nat) : (o.store a p).graph.Reach r m ↔ o.graph.Reach r m :=
  FieldGraph.reach_congr (graph_alive_store o a p) fun _ hu =>
    field_store ha p fun _ heq => hout (heq ▸ hu)

/-- A field that is within reach still is after a write to it. -/
theorem inside_store (ha : a ∈ o.locs) (hin : Inside (o.graph.Reach r) a) (p : Option Nat) :
    Inside ((o.store a p).graph.Reach r) a := by
  cases a with
  | handle i => exact hin
  | field v i =>
      have hoff := FieldGraph.Reach.off (n := v) (graph_alive_store o (.field v i) p)
        (fun u hu => field_store ha p fun j heq => hu (Loc.field.inj heq).1.symm) hin
      exact hoff.elim id id

theorem inside_congr {S' : Nat → Prop} (h : ∀ m, S m ↔ S' m) (c : Loc) :
    Inside S c ↔ Inside S' c := by
  cases c with
  | handle i => exact Iff.rfl
  | field n i => exact h n

theorem moveAssign_eq (hab : a ≠ b) : o.moveAssign a b =
    (match o.load a with
      | none => some (o.store a (o.load b))
      | some r => delete (o.store a (o.load b)) r).map fun o : Objects => o.store b none := by
  rw [moveAssign, if_neg hab, Objects.reset, resetWith]
  exact Option.map_eq_bind.symm

/-- A delete that meets neither `a` nor `b` finds the same nodes before as after
the pointer is handed over. -/
theorem reach_handOver (ha : a ∈ o.locs) (hb : b ∈ o.locs) (haa : ¬ Inside (o.graph.Reach r) a)
    (hbb : ¬ Inside (o.graph.Reach r) b) (m : Nat) :
    (o.handOver a b).graph.Reach r m ↔ (o.store a (o.load b)).graph.Reach r m := by
  refine reach_store ((mem_locs_store ..).mpr hb) (fun hin => hbb ?_) none m
  exact (inside_congr (reach_store ha haa (o.load b)) b).mp hin

/-- So it might as well run afterwards. -/
theorem Wf.moveAssign_deletes (h : Wf o) (ha : a ∈ o.locs) (hb : b ∈ o.locs) (hab : a ≠ b)
    (haa : ¬ Below o a a) (hbb : ¬ Below o a b) (hr : o.load a = some r) :
    Unheld (o.handOver a b) r ∧ ∃ o' L, o.moveAssign a b = some o' ∧
      Deletes (o.handOver a b) ((o.handOver a b).graph.Reach r) o' L ∧
      L.Nodup ∧ ∀ m, m ∈ L ↔ (o.handOver a b).graph.Reach r m := by
  have haa : ¬ Inside (o.graph.Reach r) a := fun hin => haa ⟨r, hr, hin⟩
  have hbb : ¬ Inside (o.graph.Reach r) b := fun hin => hbb ⟨r, hr, hin⟩
  have hreach := reach_handOver ha hb haa hbb
  have hun : Unheld (o.handOver a b) r := by
    intro c hc hl
    rw [mem_locs_handOver] at hc
    rw [load_handOver ha hb] at hl
    split at hl
    · cases hl
    · next hbc =>
        split at hl
        · exact hab (h.exclusive a ha b hb r hr hl)
        · next hac => exact hac (h.exclusive a ha c hc r hr hl)
  have hforest : (o.store a (o.load b)).graph.Forest [r] := by
    refine ((h.handOver ha hb).forest ?_ hun).congr
      (fun m => (graph_alive_store (o.store a (o.load b)) b none m).symm) fun u hu => ?_
    · rw [alive_handOver]
      exact h.no_dangling a ha r hr
    · refine (field_store ((mem_locs_store ..).mpr hb) none fun i hbu => hbb ?_).symm
      rw [hbu]
      exact (reach_store ha haa (o.load b) u).mp ((hreach u).mp hu)
  obtain ⟨o', L, hdel, hd, hL⟩ := delete_spec (o.store a (o.load b)) r
  refine ⟨hun, o'.store b none, L, ?_, (hd.store b none).congr fun m => (hreach m).symm,
    (hL hforest).1, fun m => ((hL hforest).2 m).trans (hreach m).symm⟩
  rw [moveAssign_eq hab, hr]
  simp only [hdel]
  rfl

/-- It leaves `a` and `b` in place. -/
theorem Wf.moveAssign (h : Wf o) (ha : a ∈ o.locs) (hb : b ∈ o.locs) (hab : a ≠ b)
    (haa : ¬ Below o a a) (hbb : ¬ Below o a b) :
    ∃ o', o.moveAssign a b = some o' ∧ Wf o' ∧ a ∈ o'.locs ∧ b ∈ o'.locs ∧
      o'.load a = o.load b := by
  have hla : (o.handOver a b).load a = o.load b := by
    rw [load_handOver ha hb, if_neg (Ne.symm hab), if_pos rfl]
  cases hr : o.load a with
  | none =>
      refine ⟨o.handOver a b, by rw [moveAssign_eq hab, hr]; rfl, h.handOver ha hb,
        (mem_locs_handOver ..).mpr ha, (mem_locs_handOver ..).mpr hb, hla⟩
  | some r =>
      obtain ⟨hun, o', L, hmove, hd, hL⟩ := h.moveAssign_deletes ha hb hab haa hbb hr
      have hout : ∀ c, ¬ Below o a c → ¬ Inside ((o.handOver a b).graph.Reach r) c := by
        intro c hc hin
        have hin := (inside_congr (reach_handOver ha hb (fun hin => haa ⟨r, hr, hin⟩)
          fun hin => hbb ⟨r, hr, hin⟩) c).mp hin
        exact hc ⟨r, hr, (inside_congr
          (reach_store ha (fun hin => haa ⟨r, hr, hin⟩) (o.load b)) c).mp hin⟩
      exact ⟨o', hmove, (h.handOver ha hb).deletes hun hd hL,
        (hd.mem_locs a).mpr ⟨(mem_locs_handOver ..).mpr ha, hout a haa⟩,
        (hd.mem_locs b).mpr ⟨(mem_locs_handOver ..).mpr hb, hout b hbb⟩,
        (hd.load (hout a haa)).trans hla⟩

/-- When the delete meets `a` or `b`, the assignment goes on to one that is gone. -/
theorem moveAssign_lost (ha : a ∈ o.locs) (hab : a ≠ b) (hbelow : Below o a a ∨ Below o a b)
    (hmove : o.moveAssign a b = some o') (hma : a ∈ o'.locs) (hmb : b ∈ o'.locs) : False := by
  obtain ⟨r, hr⟩ : ∃ r, o.load a = some r := by
    rcases hbelow with ⟨r, hr, -⟩ | ⟨r, hr, -⟩ <;> exact ⟨r, hr⟩
  rw [moveAssign_eq hab, hr] at hmove
  obtain ⟨o₂, L, hdel, hd, -⟩ := delete_spec (o.store a (o.load b)) r
  simp only [hdel, Option.map_some, Option.some.injEq] at hmove
  subst hmove
  rw [mem_locs_store, hd.mem_locs] at hma hmb
  have hout : ¬ Inside (o.graph.Reach r) a := fun hin => hma.2 (inside_store ha hin _)
  rcases hbelow with ⟨r', hr', hin⟩ | ⟨r', hr', hin⟩
  · exact hout (Option.some.inj (hr.symm.trans hr') ▸ hin)
  · refine hmb.2 ((inside_congr (reach_store ha hout (o.load b)) b).mpr ?_)
    exact Option.some.inj (hr.symm.trans hr') ▸ hin

/-! ## Runs -/

/-- A move assignment leaves its target with what its source had. The source is
written to last, so it must not have been deleted by then. -/
def Handed (o o' : Objects) : Op → Prop
  | .moveAssign a b => a ∈ o'.locs ∧ b ∈ o'.locs ∧ o'.load a = o.load b
  | _ => True

/-- What a call is to leave behind. -/
def Meets (o : Objects) (op : Op) : Prop :=
  ∃ o', o.step op = some o' ∧ Sound o' ∧ Handed o o' op

/-- The old object of a move assignment reaches neither its target nor its
source. -/
def Apart (o : Objects) : Op → Prop
  | .moveAssign a b => a = b ∨ ¬ Below o a a ∧ ¬ Below o a b
  | _ => True

theorem Wf.step (h : Wf o) {op : Op} (hl : o.Legal op) (hap : Apart o op) :
    ∃ o', o.step op = some o' ∧ Wf o' ∧ Handed o o' op := by
  cases op with
  | makeUnique k => exact ⟨_, rfl, h.makeUnique k, trivial⟩
  | moveConstruct b => exact ⟨_, rfl, h.moveConstruct hl, trivial⟩
  | release a => exact ⟨_, rfl, h.store_none hl, trivial⟩
  | swap a b => exact ⟨_, rfl, h.swap hl.1 hl.2, trivial⟩
  | assignNull a | reset a =>
      obtain ⟨o', hstep, hwf⟩ := h.reset (p := none) hl fun m hm => by cases hm
      exact ⟨o', hstep, hwf, trivial⟩
  | resetTo a p =>
      obtain ⟨o', hstep, hwf⟩ := h.reset (p := some p) hl.1 fun m hm =>
        Option.some.inj hm ▸ hl.2
      exact ⟨o', hstep, hwf, trivial⟩
  | destroy i =>
      obtain ⟨o', hstep, hwf⟩ := h.destroy hl
      exact ⟨o', hstep, hwf, trivial⟩
  | moveAssign a b =>
      by_cases hab : a = b
      · exact ⟨o, if_pos hab, h, hl.1, hl.2, by rw [hab]⟩
      · obtain ⟨haa, hbb⟩ := hap.resolve_left hab
        exact h.moveAssign hl.1 hl.2 hab haa hbb

/-- For a single call, apart is what it takes. -/
theorem Wf.meets_iff (h : Wf o) {op : Op} (hl : o.Legal op) : Meets o op ↔ Apart o op := by
  constructor
  · intro hex
    obtain ⟨o', hstep, -, hmove⟩ := hex
    cases op with
    | moveAssign a b =>
        by_contra hap
        rw [Apart, not_or, not_and_or, not_not, not_not] at hap
        exact moveAssign_lost hl.1 hap.1 hap.2 hstep hmove.1 hmove.2.1
    | _ => trivial
  · intro hap
    obtain ⟨o', hstep, hwf, hmove⟩ := h.step hl hap
    exact ⟨o', hstep, hwf.toSound, hmove⟩

/-- In a run of legal calls from any heap, all of them keep ownership alone,
delete once and leave no pointer behind, exactly when no move assignment has
its target or its source within reach of what it replaces. -/
theorem unique_ptr_owns_alone_iff_apart {o : Objects} (h : Wf o) (ops : List Op)
    (hl : Along step Legal o ops) : Along step Meets o ops ↔ Along step Apart o ops := by
  have hiff : Along step (fun o op => Legal o op ∧ Meets o op) o ops ↔
      Along step (fun o op => Legal o op ∧ Apart o op) o ops := by
    refine along_iff Wf (fun o op hw => and_congr_right fun hlegal => hw.meets_iff hlegal)
      (fun o op o' hw hm hstep => ?_) h ops
    obtain ⟨o'', hstep', hw', -⟩ := hw.step hm.1 ((hw.meets_iff hm.1).mp hm.2)
    rw [hstep, Option.some.injEq] at hstep'
    exact hstep' ▸ hw'
  rw [along_and, along_and] at hiff
  exact ⟨fun hm => (hiff.mp ⟨hl, hm⟩).2, fun ha => (hiff.mpr ⟨hl, ha⟩).2⟩

/-- Two nodes, the second moved into the field of the first and out of it again
on another handle. -/
theorem unique_ptr_owns_alone_iff_apart_run :
    Along step Meets empty
        [.makeUnique 1, .makeUnique 1, .moveAssign (.field 0 0) (.handle 1),
          .moveConstruct (.field 0 0), .reset (.handle 0)] ↔
      Along step Apart empty
        [.makeUnique 1, .makeUnique 1, .moveAssign (.field 0 0) (.handle 1),
          .moveConstruct (.field 0 0), .reset (.handle 0)] :=
  unique_ptr_owns_alone_iff_apart wf_empty _ (by decide)

/-- `head = std::move(head->next)` on a list of two nodes: both are deleted, and
the head points to the second. -/
theorem unique_ptr_keeps_deleted_next :
    Along step Legal empty
        [.makeUnique 1, .makeUnique 1, .moveAssign (.field 0 0) (.handle 1),
          .moveAssign (.handle 0) (.field 0 0)] ∧
      ¬ Along step Meets empty
        [.makeUnique 1, .makeUnique 1, .moveAssign (.field 0 0) (.handle 1),
          .moveAssign (.handle 0) (.field 0 0)] := by
  refine ⟨by decide, fun h => ?_⟩
  have hrun : runFrom step empty
      [.makeUnique 1, .makeUnique 1, .moveAssign (.field 0 0) (.handle 1)] =
        some ⟨[⟨true, [some 1]⟩, ⟨true, [none]⟩], [some (some 0), some none], []⟩ := by
    decide
  have hlast : Along step Meets empty
      ([.makeUnique 1, .makeUnique 1, .moveAssign (.field 0 0) (.handle 1)] ++
        [.moveAssign (.handle 0) (.field 0 0)]) := h
  obtain ⟨o', hstep, hs, -⟩ := along_at hlast hrun
  have hend : o' =
      ⟨[⟨false, [none]⟩, ⟨false, [none]⟩], [some (some 1), some none], [0, 1]⟩ :=
    Option.some.inj (hstep.symm.trans (by decide))
  subst hend
  have hdangling := hs.no_dangling (.handle 0) (by decide) 1 (by decide)
  revert hdangling
  decide

end Ycetl.Ref.UniquePtr.Objects
