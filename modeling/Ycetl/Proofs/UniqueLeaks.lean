import Ycetl.Lib.Cycles
import Ycetl.Proofs.UniquePtr

/-!
# Only cycles leak

A node that is alive has an owner, as long as no call was a `release`: what
loses its owner is deleted by the same call, and everything below it goes along.
Going from an owner to the owner of the node it is in, one comes to a handle
outside, or goes round in a cycle of nodes that own each other. So these are
the only nodes that a program leaks.
-/

namespace Ycetl.Ref.UniquePtr.Objects

open Ycetl.Lib Relation

variable {o o' : Objects} {a b c : Loc} {n m r i : Nat} {L : List Nat} {op : Op}

/-- The `unique_ptr` at `c` owns the node. -/
def Owns (o : Objects) (c : Loc) (n : Nat) : Prop := c ∈ o.locs ∧ o.load c = some n

/-- A field of the one owns the other. -/
def Link (o : Objects) (m n : Nat) : Prop := ∃ i, o.Owns (.field m i) n

/-- A handle outside owns it. -/
def Outside (o : Objects) (n : Nat) : Prop := ∃ i, o.Owns (.handle i) n

/-- Every node that is alive has an owner. -/
def Owned (o : Objects) : Prop := ∀ n, o.alive n = true → ∃ c, o.Owns c n

theorem Wf.owns_alive (h : Wf o) (ha : o.Owns a n) : o.alive n = true :=
  h.no_dangling a ha.1 n ha.2

theorem owned_empty : Owned empty := fun n hn => by
  rw [alive] at hn
  cases hn

/-! ## Handing pointers around -/

/-- The owners change places. -/
theorem Owned.rearrange (h : Owned o) (halive : ∀ n, o'.alive n = o.alive n) (f : Loc → Loc)
    (hf : ∀ c n, o.Owns c n → o'.Owns (f c) n) : Owned o' := by
  intro n hn
  rw [halive] at hn
  obtain ⟨c, hc⟩ := h n hn
  exact ⟨f c, hf c n hc⟩

theorem Owned.handOver (h : Owned o) (ha : a ∈ o.locs) (hb : b ∈ o.locs) (hab : a ≠ b)
    (hnone : o.load a = none) : Owned (o.handOver a b) := by
  refine h.rearrange (alive_handOver o a b) (fun c => if c = b then a else c) fun c n hc => ?_
  have hca : a ≠ c := by
    rintro rfl
    cases hnone.symm.trans hc.2
  split
  · next hcb =>
      refine ⟨(mem_locs_handOver ..).mpr ha, ?_⟩
      rw [load_handOver ha hb, if_neg (Ne.symm hab), if_pos rfl, ← hcb]
      exact hc.2
  · next hcb =>
      refine ⟨(mem_locs_handOver ..).mpr hc.1, ?_⟩
      rw [load_handOver ha hb, if_neg (Ne.symm hcb), if_neg hca]
      exact hc.2

theorem Owned.swap (h : Owned o) (ha : a ∈ o.locs) (hb : b ∈ o.locs) : Owned (o.swap a b) := by
  have hb' := (mem_locs_store o a (o.load b) b).mpr hb
  refine h.rearrange (fun n => by rw [Objects.swap, alive_store, alive_store])
    (Equiv.swap a b) fun c n hc => ?_
  rw [Owns, Objects.swap, mem_locs_store, mem_locs_store, load_store hb', load_store ha]
  by_cases hca : c = a
  · subst hca
    rw [Equiv.swap_apply_left, if_pos rfl]
    exact ⟨hb, hc.2⟩
  · by_cases hcb : c = b
    · subst hcb
      rw [Equiv.swap_apply_right, if_neg hca, if_pos rfl]
      exact ⟨ha, hc.2⟩
    · rw [Equiv.swap_apply_of_ne_of_ne hca hcb, if_neg (Ne.symm hcb), if_neg (Ne.symm hca)]
      exact hc

theorem Owned.moveConstruct (h : Owned o) (hb : b ∈ o.locs) : Owned (o.moveConstruct b) := by
  have hb' := (mem_locs_append_handle o (o.load b) b).mpr (Or.inr hb)
  have hnew : ∀ c ∈ o.locs, c ≠ .handle o.handles.length := by
    rintro c hc rfl
    rw [mem_locs_handle, record?_of_length_le (Nat.le_refl _)] at hc
    cases hc
  refine h.rearrange (fun n => alive_store _ b none n)
    (fun c => if c = b then .handle o.handles.length else c) fun c n hc => ?_
  rw [Owns, Objects.moveConstruct, mem_locs_store, mem_locs_append_handle, load_store hb',
    load_append_handle]
  split
  · next hcb =>
      subst hcb
      rw [if_neg (hnew c hb), if_pos rfl]
      exact ⟨Or.inl rfl, hc.2⟩
  · next hcb =>
      rw [if_neg (Ne.symm hcb), if_neg (hnew c hc.1)]
      exact ⟨Or.inr hc.1, hc.2⟩

theorem Owned.makeUnique (h : Owned o) (k : Nat) : Owned (o.makeUnique k) := by
  intro n hn
  by_cases hnew : n = o.nodes.length
  · subst hnew
    refine ⟨.handle o.handles.length, ?_, ?_⟩
    · rw [mem_locs_handle, Objects.makeUnique, record?_append, if_pos rfl]
      rfl
    · show (record? (o.handles ++ [some (some o.nodes.length)]) o.handles.length).join = _
      rw [record?_append, if_pos rfl]
      rfl
  · have hlt := alive_lt hn
    rw [Objects.makeUnique, List.length_append, List.length_singleton] at hlt
    have hget : ∀ m < o.nodes.length, (o.makeUnique k).nodes[m]? = o.nodes[m]? :=
      fun m hm => List.getElem?_append_left hm
    rw [alive_congr (hget n (by omega))] at hn
    obtain ⟨c, hc⟩ := h n hn
    refine ⟨c, ?_⟩
    cases c with
    | handle j =>
        have hj := lt_of_record? (Option.isSome_iff_exists.mp (mem_locs_handle.mp hc.1)).choose_spec
        have hsame : record? (o.makeUnique k).handles j = record? o.handles j := by
          rw [Objects.makeUnique, record?_append, if_neg (by omega)]
        rw [Owns, mem_locs_handle, Objects.load, hsame, ← mem_locs_handle]
        exact hc
    | field m j =>
        have hm := hget m (alive_lt (alive_of_mem_locs hc.1))
        rw [Owns, mem_locs_field, fieldCount, hm, load_congr hm]
        exact ⟨mem_locs_field.mp hc.1, hc.2⟩

/-! ## Taking a node down -/

/-- What is alive afterwards has kept its owner. -/
theorem Deletes.owned (hd : Deletes o (o.graph.Reach r) o' L)
    (h : ∀ n, o.alive n = true → n = r ∨ ∃ c, o.Owns c n) : Owned o' := by
  intro n hn
  obtain ⟨halive, hout⟩ := (hd.removed.alive_iff n).mp hn
  rcases h n halive with rfl | ⟨c, hc⟩
  · exact absurd (FieldGraph.Reach.root halive) hout
  · have hin : ¬ Inside (o.graph.Reach r) c := by
      intro hin
      cases c with
      | handle j => exact hin
      | field u j =>
          refine hout (.step hin (i := j) ?_ halive)
          rw [graph_field, if_pos (alive_of_mem_locs hc.1)]
          exact hc.2
    exact ⟨c, (hd.mem_locs c).mpr ⟨hc.1, hin⟩, (hd.load hin).trans hc.2⟩

/-- After a `reset` to a null pointer. -/
theorem Owned.reset (h : Owned o) (ha : a ∈ o.locs) (hr : o.reset a none = some o') :
    Owned o' ∧ (a ∈ o'.locs → o'.load a = none) := by
  have hlast : ∀ n, o.alive n = true → o.load a = some n ∨ ∃ c, (o.store a none).Owns c n := by
    intro n hn
    obtain ⟨c, hc⟩ := h n hn
    by_cases hca : a = c
    · exact Or.inl (hca ▸ hc.2)
    · refine Or.inr ⟨c, (mem_locs_store ..).mpr hc.1, ?_⟩
      rw [load_store ha, if_neg hca]
      exact hc.2
  have hload : (o.store a none).load a = none := by rw [load_store ha, if_pos rfl]
  rw [Objects.reset, resetWith] at hr
  cases hl : o.load a with
  | none =>
      rw [hl] at hr
      cases hr
      refine ⟨fun n hn => ?_, fun _ => hload⟩
      rw [alive_store] at hn
      exact (hlast n hn).resolve_left fun he => by cases hl.symm.trans he
  | some r =>
      rw [hl] at hr
      obtain ⟨o₁, L, hdel, hd, -⟩ := delete_spec (o.store a none) r
      cases hr.symm.trans hdel
      refine ⟨hd.owned fun n hn => ?_, fun hmem => ?_⟩
      · rw [alive_store] at hn
        exact (hlast n hn).imp_left fun he => Option.some.inj (he.symm.trans hl)
      · rw [hd.load ((hd.mem_locs a).mp hmem).2, hload]

theorem Owned.destroy (h : Owned o) (hi : .handle i ∈ o.locs) (hr : o.destroy i = some o') :
    Owned o' := by
  rw [Objects.destroy, Option.bind_eq_bind, Option.bind_eq_some_iff] at hr
  obtain ⟨o₁, hreset, hr⟩ := hr
  cases hr
  obtain ⟨howned, hnone⟩ := h.reset hi hreset
  refine howned.rearrange (fun _ => rfl) id fun c n hc => ?_
  cases c with
  | field u j =>
      have hj := hc.1
      rw [mem_locs_field] at hj
      exact ⟨mem_locs_field.mpr hj, hc.2⟩
  | handle j =>
      have hij : i ≠ j := by
        rintro rfl
        cases (hnone hc.1).symm.trans hc.2
      have hsame : record? (o₁.handles.set i none) j = record? o₁.handles j :=
        record?_set_ne hij o₁.handles none
      refine ⟨mem_locs_handle.mpr ?_, ?_⟩
      · show (record? (o₁.handles.set i none) j).isSome = true
        rw [hsame]
        exact mem_locs_handle.mp hc.1
      · show (record? (o₁.handles.set i none) j).join = some n
        rw [hsame]
        exact hc.2

theorem Owned.moveAssign (h : Owned o) (hw : Wf o) (ha : a ∈ o.locs) (hb : b ∈ o.locs)
    (hap : Apart o (.moveAssign a b)) (hmove : o.moveAssign a b = some o') : Owned o' := by
  by_cases hab : a = b
  · rw [Objects.moveAssign, if_pos hab] at hmove
    cases hmove
    exact h
  · obtain ⟨haa, hbb⟩ := hap.resolve_left hab
    cases hr : o.load a with
    | none =>
        rw [moveAssign_eq hab, hr] at hmove
        cases hmove
        exact h.handOver ha hb hab hr
    | some r =>
        obtain ⟨-, o₁, L, hmove', hd, -⟩ := hw.moveAssign_deletes ha hb hab haa hbb hr
        cases hmove.symm.trans hmove'
        refine hd.owned fun n hn => ?_
        rw [alive_handOver] at hn
        obtain ⟨c, hc⟩ := h n hn
        by_cases hca : a = c
        · subst hca
          exact Or.inl (Option.some.inj (hc.2.symm.trans hr))
        · right
          by_cases hcb : b = c
          · subst hcb
            refine ⟨a, (mem_locs_handOver ..).mpr ha, ?_⟩
            rw [load_handOver ha hb, if_neg (Ne.symm hab), if_pos rfl]
            exact hc.2
          · refine ⟨c, (mem_locs_handOver ..).mpr hc.1, ?_⟩
            rw [load_handOver ha hb, if_neg hcb, if_neg hca]
            exact hc.2

/-! ## Runs -/

/-- The only call that leaves a node to nobody. -/
def Op.Releases : Op → Prop
  | .release _ => True
  | _ => False

theorem Owned.step (h : Owned o) (hw : Wf o) (hl : o.Legal op) (hap : Apart o op)
    (hrel : ¬ op.Releases) (hstep : o.step op = some o') : Owned o' := by
  cases op with
  | makeUnique k => cases hstep; exact h.makeUnique k
  | moveConstruct b => cases hstep; exact h.moveConstruct hl
  | release a => exact absurd trivial hrel
  | swap a b => cases hstep; exact h.swap hl.1 hl.2
  | assignNull a | reset a => exact (h.reset hl hstep).1
  | resetTo a p =>
      obtain ⟨c, hc⟩ := h p hl.2.1
      exact absurd hc.2 (hl.2.2 c hc.1)
  | destroy i => exact h.destroy hl hstep
  | moveAssign a b => exact h.moveAssign hw hl.1 hl.2 hap hstep

/-- Where every node has an owner, those that are alive are below a handle
outside or behind a cycle. -/
theorem Owned.alive_iff (h : Owned o) (hw : Wf o) (n : Nat) :
    o.alive n = true ↔ Kept o.Link o.Outside n := by
  constructor
  · intro hn
    refine kept_of_back (s := (Finset.range o.nodes.length).filter fun n => o.alive n = true)
      (fun n hn => ?_) ?_
    · obtain ⟨c, hc⟩ := h n (Finset.mem_filter.mp hn).2
      cases c with
      | handle i => exact Or.inl ⟨i, hc⟩
      | field m i =>
          have hm := alive_of_mem_locs hc.1
          exact Or.inr ⟨m, Finset.mem_filter.mpr ⟨Finset.mem_range.mpr (alive_lt hm), hm⟩, i, hc⟩
    · exact Finset.mem_filter.mpr ⟨Finset.mem_range.mpr (alive_lt hn), hn⟩
  · intro hkept
    rcases hkept.before with ⟨i, hi⟩ | ⟨m, -, i, hi⟩
    · exact hw.owns_alive hi
    · exact hw.owns_alive hi

/-- After a run without `release`, in which no move assignment deletes its own
target or source, the nodes that are alive are those below a handle outside and
those behind a cycle; and those behind a cycle only, once all handles are gone
or empty. -/
theorem only_cycles_leak (ops : List Op) (hl : Along step Legal empty ops)
    (hap : Along step Apart empty ops) (hrel : ∀ op ∈ ops, ¬ op.Releases) :
    ∃ o, runFrom step empty ops = some o ∧
      (∀ n, o.alive n = true ↔ Kept o.Link o.Outside n) ∧
      ((∀ n, ¬ o.Outside n) → ∀ n, o.alive n = true ↔ BehindCycle o.Link n) := by
  have hstep : ∀ (o : Objects) op, (Wf o ∧ Owned o) → (o.Legal op ∧ Apart o op) ∧ ¬ op.Releases →
      ∃ o', o.step op = some o' ∧ Wf o' ∧ Owned o' := by
    intro o op hinv hop
    obtain ⟨hw, h⟩ := hinv
    obtain ⟨⟨hl, hap⟩, hrel⟩ := hop
    obtain ⟨o₁, hstep, hw₁, -⟩ := hw.step hl hap
    exact ⟨o₁, hstep, hw₁, h.step hw hl hap hrel hstep⟩
  obtain ⟨o, ho, hw, howned⟩ := runFrom_defined hstep ⟨wf_empty, owned_empty⟩
    ((along_and _ _).mpr ⟨(along_and _ _).mpr ⟨hl, hap⟩, along_of_forall hrel _⟩)
  refine ⟨o, ho, howned.alive_iff hw, fun hnone n => (howned.alive_iff hw n).trans ?_⟩
  have hroots : o.Outside = fun _ => False := funext fun m => eq_false (hnone m)
  rw [hroots]
  exact kept_no_root

/-- A node that is moved into a field of its own outlives all handles, and another
one does not. -/
theorem only_cycles_leak_self_owned :
    ∃ o, runFrom step empty [.makeUnique 1, .moveAssign (.field 0 0) (.handle 0), .makeUnique 0,
        .destroy 0, .destroy 1] = some o ∧ o.alive 0 = true ∧ BehindCycle o.Link 0 ∧
      o.alive 1 = false := by
  have hap : Along step Apart empty [.makeUnique 1, .moveAssign (.field 0 0) (.handle 0),
      .makeUnique 0, .destroy 0, .destroy 1] := by
    refine ⟨trivial, fun o ho => ⟨Or.inr ⟨?_, ?_⟩, fun o _ => ⟨trivial, fun o _ => ⟨trivial,
      fun o _ => ⟨trivial, fun o _ => trivial⟩⟩⟩⟩⟩
    · rintro ⟨r, hr, -⟩
      cases ho
      cases hr
    · rintro ⟨r, hr, -⟩
      cases ho
      cases hr
  obtain ⟨o, hrun, -, hcycles⟩ := only_cycles_leak _ (by decide) hap (by
    intro op hop
    simp only [List.mem_cons, List.not_mem_nil, or_false] at hop
    rcases hop with rfl | rfl | rfl | rfl | rfl <;> exact fun h => h)
  have hend : o = ⟨[⟨true, [some 0]⟩, ⟨false, []⟩], [none, none], [1]⟩ :=
    Option.some.inj (hrun.symm.trans (by decide))
  have hnone : ∀ n, ¬ o.Outside n := by
    rintro n ⟨i, hi⟩
    have hmem := mem_locs_handle.mp hi.1
    rw [hend] at hmem
    match i with
    | 0 => cases hmem
    | 1 => cases hmem
    | i + 2 => cases hmem
  refine ⟨o, hrun, by rw [hend]; rfl, (hcycles hnone 0).mp (by rw [hend]; rfl), by rw [hend]; rfl⟩

end Ycetl.Ref.UniquePtr.Objects
