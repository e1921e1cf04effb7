import Ycetl.Proofs.SharedFalls

/-!
# Assigning from inside the object that is released

The assignments of `shared_ptr` and `trivial_shared_ptr` release first, and
read the source, or take it over, after that. They do what an assignment is
for exactly when neither of the two places is in a node that falls with the
old object: `head = head->next`, with nothing else on the old head, reads a
field of a node that was deleted. Whatever the ownership graph is, the
condition is one of the heap before the call.
-/

namespace Ycetl.Ref.Shared.Heap

open Ycetl.Lib

variable {C : Type} {K : Counter C} {ok : C → Prop} {fuel : Nat} {H H₁ H₂ H' : Heap C}
  {a b l : Loc} {g h v y : Handle} {c d n m i : Nat}

/-- Neither place is in a node that falls with the old object of `a`. -/
def Apart (H : Heap C) (a b : Loc) : Prop :=
  ∀ n, a.node = some n ∨ b.node = some n → ¬ Falls H a n

/-- What an assignment is for: `a` refers to what `b` referred to, whose object
is alive, and every count is the number of handles. -/
structure Took (K : Counter C) (ok : C → Prop) (H : Heap C) (a b : Loc) (H' : Heap C) :
    Prop where
  load_eq : H'.load a = H.load b
  alive : ∀ y n, H.load b = some y → y.ptr = some n → H'.lifetime? n = some .alive
  counted : Counted K ok H'

/-! ## Filling a vacant place -/

/-- Members that a handle may have: an object only with its counter. -/
def Fits (H : Heap C) (y : Handle) : Prop :=
  (y.counter = none → y.ptr = none) ∧ ∀ c, y.counter = some c → y.ptr = H.object? c

/-- A write of members that fit. One handle more is there than was counted. -/
theorem Vacant.fill (hv : Vacant K ok H a) (hy : H.Fits y) (hs : H.store a y = some H') :
    Sound K ok H' ∧ ∀ c, H'.live c = H'.refs K c + holders [y.counter] c := by
  obtain ⟨v, hl, hvc⟩ := hv.vacant
  have hst := stored hs
  have hcounter : ∀ c, H'.counter? c = H.counter? c := fun c => by
    rw [counter?, counter?, hst.counters_eq]
  have hobject : ∀ c, H'.object? c = H.object? c := fun c => by
    rw [object?, object?, hst.lifetime_eq]
  refine ⟨⟨fun c k hk => hv.ok c k ((hcounter c).symm.trans hk), fun n => ?_,
    fun l g hg hc => ?_, fun l g c hg hc => ?_⟩, fun c => ?_⟩
  · rw [hst.lifetime_eq]
    exact hv.settled n
  · rw [hst.load_eq] at hg
    split at hg
    · cases hg
      exact hy.1 hc
    · next hla => exact hv.empty l g hla hg hc
  · rw [hst.load_eq] at hg
    rw [hobject]
    split at hg
    · cases hg
      exact hy.2 c hc
    · next hla => exact hv.object l g c hla hg hc
  · have hlive := live_store hl hs (fun n hn => alive_of_load hv.settled hl hn) c
    have hnone : holders [v.counter] c = 0 := by
      rw [hvc]
      rfl
    rw [refs_congr (hcounter c), hv.refs_eq c]
    omega

/-- The copy counts itself. -/
theorem acquire_counted (hK : K.Lawful ok) (hs : Sound K ok H)
    (hlive : ∀ c, H.live c = H.refs K c + holders [y.counter] c)
    (hy : ∀ c, y.counter = some c → 0 < H.refs K c) :
    ∃ H', H.acquire K y = some H' ∧ Counted K ok H' ∧ (∀ l, H'.load l = H.load l) ∧
      ∀ n, H'.lifetime? n = H.lifetime? n := by
  cases hc : y.counter with
  | none =>
      refine ⟨H, by rw [acquire, hc], { hs with refs_eq := fun c => ?_ }, fun _ => rfl,
        fun _ => rfl⟩
      rw [hlive c, hc]
      rfl
  | some c =>
      have hpos := hy c hc
      obtain ⟨k, hk, hkrefs⟩ := counter_of_refs hpos
      have hload := load_setCounter (H := H) (c := c) (K.inc k)
      refine ⟨H.setCounter c (K.inc k), ?_, ⟨⟨fun d k' hk' hpos' => ?_, hs.settled,
        fun l g hg => hs.empty l g (hload l ▸ hg), fun l g d hg => hs.object l g d (hload l ▸ hg)⟩,
        fun d => ?_⟩, hload, fun _ => rfl⟩
      · simp only [acquire, hc, hk, Option.bind_eq_bind, Option.bind_some]
      · rw [counter?_setCounter hk] at hk'
        split at hk'
        · cases hk'
          exact hK.ok_inc k (hs.ok c k hk (hkrefs ▸ hpos))
        · exact hs.ok d k' hk' hpos'
      · show _ = H.live d
        rw [refs_setCounter hk, hlive d, hc, holders_singleton]
        by_cases hcd : c = d
        · subst hcd
          rw [if_pos rfl, if_pos rfl, hK.strong_inc, hkrefs]
        · rw [if_neg hcd, if_neg fun he => hcd (Option.some.inj he), Nat.add_zero]

/-- A source that was taken over holds nothing any more. -/
theorem null_counted (hs : Sound K ok H)
    (hlive : ∀ c, H.live c = H.refs K c + holders [y.counter] c) (hl : H.load b = some y)
    (hst : H.store b .null = some H') : Counted K ok H' := by
  have hstored := stored hst
  have hcounter : ∀ c, H'.counter? c = H.counter? c := fun c => by
    rw [counter?, counter?, hstored.counters_eq]
  refine ⟨⟨fun c k hk => hs.ok c k ((hcounter c).symm.trans hk), fun n => ?_,
    fun l g hg hc => ?_, fun l g c hg hc => ?_⟩, fun c => ?_⟩
  · rw [hstored.lifetime_eq]
    exact hs.settled n
  · rw [hstored.load_eq] at hg
    split at hg
    · cases hg
      rfl
    · exact hs.empty l g hg hc
  · rw [hstored.load_eq] at hg
    rw [object?, hstored.lifetime_eq]
    split at hg
    · cases hg
      cases hc
    · exact hs.object l g c hg hc
  · have h₁ := live_store hl hst (fun n hn => hs.alive_of_load hl hn) c
    have h₂ := hlive c
    have hnull : holders [Handle.null.counter] c = 0 := rfl
    rw [refs_congr (hcounter c)]
    omega

/-! ## The three assignments -/

/-- What the source holds when the old object is gone. -/
theorem Released.source (hr : Released K ok H a H₁) (hab : a ≠ b) (hap : Apart H a b)
    (hb : H.load b = some y) :
    H₁.load b = some y ∧ H₁.Fits y ∧ ∀ c, y.counter = some c → 0 < H₁.refs K c := by
  have hv := hr.vacant
  have hba : b ≠ a := Ne.symm hab
  have hb₁ : H₁.load b = some y := by
    rw [hr.load_eq b hba fun n hn => hap n (.inr hn), hb]
  refine ⟨hb₁, ⟨hv.empty b y hba hb₁, fun c => hv.object b y c hba hb₁⟩, fun c hc => ?_⟩
  rw [hv.refs_eq c]
  exact live_pos ⟨y, hb₁, hc⟩ fun n hn => alive_of_load hv.settled hb₁ hn

/-- The object of members that fit is alive. -/
theorem Fits.alive (hy : H.Fits y) (hn : y.ptr = some n) : H.lifetime? n = some .alive := by
  cases hc : y.counter with
  | none =>
      rw [hy.1 hc] at hn
      cases hn
  | some c =>
      rw [hy.2 c hc] at hn
      cases object?_eq hn
      exact object?_self.mp hn

theorem copyAssign_took (hK : K.Lawful ok) (hH : Counted K ok H) (hab : a ≠ b)
    (ha : H.load a = some h) (hb : H.load b = some y) (hap : Apart H a b)
    (hfuel : H.nodes.length ≤ fuel) :
    ∃ H', H.copyAssign K fuel a b = some H' ∧ Took K ok H a b H' := by
  obtain ⟨H₁, hr, hrel⟩ := release_vacant hK hH ha (fun n hn => hap n (.inl hn)) hfuel
  obtain ⟨hb₁, hfits, hpos⟩ := hrel.source hab hap hb
  obtain ⟨v, hv, -⟩ := hrel.vacant.vacant
  obtain ⟨H₂, hs⟩ := exists_store hv y
  have hst := stored hs
  obtain ⟨hsound, hlive⟩ := hrel.vacant.fill hfits hs
  have hrefs : ∀ c, H₂.refs K c = H₁.refs K c := fun c => refs_congr (by
    rw [counter?, counter?, hst.counters_eq])
  obtain ⟨H', hacq, hcounted, hload, hlife⟩ := acquire_counted hK hsound hlive
    fun c hc => by
      rw [hrefs]
      exact hpos c hc
  refine ⟨H', ?_, ?_, fun y' n hy' hn => ?_, hcounted⟩
  · simp only [copyAssign, if_neg hab, hr, hb₁, hs, Option.bind_eq_bind, Option.bind_some]
    exact hacq
  · rw [hload, hst.load_eq, if_pos rfl, hb]
  · cases hb.symm.trans hy'
    rw [hlife, hst.lifetime_eq]
    exact hfits.alive hn

theorem moveAssign_took {H : Heap ControlBlock} {ok : ControlBlock → Prop}
    (hK : sharedCounter.Lawful ok) (hH : Counted sharedCounter ok H) (hab : a ≠ b)
    (ha : H.load a = some h) (hb : H.load b = some y) (hap : Apart H a b)
    (hfuel : H.nodes.length ≤ fuel) :
    ∃ H', H.moveAssign fuel a b = some H' ∧ Took sharedCounter ok H a b H' := by
  obtain ⟨H₁, hr, hrel⟩ := release_vacant hK hH ha (fun n hn => hap n (.inl hn)) hfuel
  obtain ⟨hb₁, hfits, -⟩ := hrel.source hab hap hb
  obtain ⟨v, hv, -⟩ := hrel.vacant.vacant
  obtain ⟨H₂, hs⟩ := exists_store hv y
  have hst := stored hs
  obtain ⟨hsound, hlive⟩ := hrel.vacant.fill hfits hs
  have hb₂ : H₂.load b = some y := by rw [hst.load_eq, if_neg (Ne.symm hab), hb₁]
  obtain ⟨H', hs'⟩ := exists_store hb₂ .null
  have hst' := stored hs'
  refine ⟨H', ?_, ?_, fun y' n hy' hn => ?_, null_counted hsound hlive hb₂ hs'⟩
  · simp only [moveAssign, if_neg hab, hr, hb₁, hs, Option.bind_eq_bind, Option.bind_some]
    exact hs'
  · rw [hst'.load_eq, if_neg hab, hst.load_eq, if_pos rfl, hb]
  · cases hb.symm.trans hy'
    rw [hst'.lifetime_eq, hst.lifetime_eq]
    exact hfits.alive hn

/-- An assignment that has a result has released the old object and read the
source after that. -/
theorem apart_of_copyAssign (hK : K.Lawful ok) (hH : Counted K ok H) (hab : a ≠ b)
    (ha : H.load a = some h) (hb : H.load b = some y)
    (hr : H.copyAssign K fuel a b = some H') : Apart H a b := by
  rw [copyAssign, if_neg hab] at hr
  obtain ⟨H₁, hrel, hr⟩ := Option.bind_eq_some_iff.mp hr
  obtain ⟨y', hy', -⟩ := Option.bind_eq_some_iff.mp hr
  exact release_not_falls hK hH ha hb hrel hy'

theorem apart_of_moveAssign {H H' : Heap ControlBlock} {ok : ControlBlock → Prop}
    (hK : sharedCounter.Lawful ok) (hH : Counted sharedCounter ok H) (hab : a ≠ b)
    (ha : H.load a = some h) (hb : H.load b = some y)
    (hr : H.moveAssign fuel a b = some H') : Apart H a b := by
  rw [moveAssign, if_neg hab] at hr
  obtain ⟨H₁, hrel, hr⟩ := Option.bind_eq_some_iff.mp hr
  obtain ⟨y', hy', -⟩ := Option.bind_eq_some_iff.mp hr
  exact release_not_falls hK hH ha hb hrel hy'

/-! ## A list of two nodes -/

/-- Node 0 with its `next`, node 1, and `m` handles on node 0. -/
def twoNodes (m : Nat) (k₀ k₁ : C) : Heap C :=
  ⟨[⟨.alive, [⟨some 1, some 1⟩]⟩, ⟨.alive, [.null]⟩], [some k₀, some k₁],
    List.replicate m (some ⟨some 0, some 0⟩), [], []⟩

theorem twoNodes_counted {m : Nat} {k₀ k₁ : C} (h₀ : K.strong k₀ = m) (h₁ : K.strong k₁ = 1)
    (hk₀ : ok k₀) (hk₁ : ok k₁) : Counted K ok (twoNodes m k₀ k₁) := by
  have hset : (twoNodes m k₀ k₁).aliveSet = {0, 1} := rfl
  have hhandle : ∀ i g, (twoNodes m k₀ k₁).load (.handle i) = some g →
      g = ⟨some 0, some 0⟩ := by
    intro i g hg
    have hmem := List.mem_of_getElem? (getElem?_of_record? hg)
    exact (Option.some.inj (List.eq_of_mem_replicate hmem))
  have hfield : ∀ n i g, (twoNodes m k₀ k₁).load (.field n i) = some g →
      g = ⟨some 1, some 1⟩ ∨ g = .null := by
    intro n i g hg
    obtain ⟨x, hx, -, hf⟩ := load_field hg
    have hmem := List.mem_of_getElem? hx
    have hg := List.mem_of_getElem? hf
    simp only [twoNodes, List.mem_cons, List.not_mem_nil, or_false] at hmem
    rcases hmem with rfl | rfl
    · exact .inl (List.mem_singleton.mp hg)
    · exact .inr (List.mem_singleton.mp hg)
  refine ⟨⟨fun c k hk _ => ?_, fun n hn => ?_, fun l g hg hc => ?_, fun l g c hg hc => ?_⟩,
    fun c => ?_⟩
  · have hmem := List.mem_of_getElem? (getElem?_of_record? hk)
    simp only [twoNodes, List.mem_cons, List.not_mem_nil, or_false, Option.some.injEq] at hmem
    rcases hmem with rfl | rfl
    · exact hk₀
    · exact hk₁
  · obtain ⟨x, hx, hlife⟩ := Option.map_eq_some_iff.mp hn
    have hmem := List.mem_of_getElem? hx
    simp only [twoNodes, List.mem_cons, List.not_mem_nil, or_false] at hmem
    rcases hmem with rfl | rfl
    · cases hlife
    · cases hlife
  · cases l with
    | handle i =>
        cases hhandle i g hg
        cases hc
    | field n i =>
        rcases hfield n i g hg with rfl | rfl
        · cases hc
        · rfl
  · cases l with
    | handle i =>
        cases hhandle i g hg
        cases hc
        rfl
    | field n i =>
        rcases hfield n i g hg with rfl | rfl
        · cases hc
          rfl
        · cases hc
  · rw [live, hset, outside, twoNodes, List.map_replicate]
    rcases c with _ | _ | c
    · simpa [refs, counter?, record?, holders, targets, Handle.null, List.count_replicate] using h₀
    · simpa [refs, counter?, record?, holders, targets, Handle.null, List.count_replicate] using h₁
    · simp [refs, counter?, record?, holders, targets, Handle.null, List.count_replicate]
/-- A second handle keeps node 0. -/
theorem twoNodes_apart (k₀ k₁ : C) : Apart (twoNodes 2 k₀ k₁) (.handle 0) (.field 0 0) := by
  intro n hn hfalls
  rcases hn with hn | hn
  · cases hn
  · cases hn
    obtain ⟨-, hout, -⟩ := hfalls
    cases hout 1 ⟨⟨some 0, some 0⟩, rfl, rfl⟩

/-! ## The main result -/

/-- Of `shared_ptr`, an assignment and a move assignment, and of
`trivial_shared_ptr` an assignment, between any two places of any counted heap. -/
theorem assignment_takes_iff_apart (a b : Loc) (hab : a ≠ b) (fuel : Nat) :
    (∀ H : Heap ControlBlock, Counted sharedCounter (fun k => 0 < k.weakCount) H →
      (H.load a).isSome = true → (H.load b).isSome = true → H.nodes.length ≤ fuel →
      ((∃ H', H.copyAssign sharedCounter fuel a b = some H' ∧
          Took sharedCounter (fun k => 0 < k.weakCount) H a b H') ↔ Apart H a b) ∧
      ((∃ H', H.moveAssign fuel a b = some H' ∧
          Took sharedCounter (fun k => 0 < k.weakCount) H a b H') ↔ Apart H a b)) ∧
    (∀ H : Heap Nat, Counted trivialCounter (fun _ => True) H →
      (H.load a).isSome = true → (H.load b).isSome = true → H.nodes.length ≤ fuel →
      ((∃ H', H.copyAssign trivialCounter fuel a b = some H' ∧
          Took trivialCounter (fun _ => True) H a b H') ↔ Apart H a b)) := by
  have hK := sharedCounter_lawful
  have hT := trivialCounter_lawful
  refine ⟨fun H hH ha hb hfuel => ?_, fun H hH ha hb hfuel => ?_⟩
  · obtain ⟨h, ha⟩ := Option.isSome_iff_exists.mp ha
    obtain ⟨y, hb⟩ := Option.isSome_iff_exists.mp hb
    refine ⟨⟨fun hr => ?_, fun hap => copyAssign_took hK hH hab ha hb hap hfuel⟩,
      fun hr => ?_, fun hap => moveAssign_took hK hH hab ha hb hap hfuel⟩
    · obtain ⟨H', hr, -⟩ := hr
      exact apart_of_copyAssign hK hH hab ha hb hr
    · obtain ⟨H', hr, -⟩ := hr
      exact apart_of_moveAssign hK hH hab ha hb hr
  · obtain ⟨h, ha⟩ := Option.isSome_iff_exists.mp ha
    obtain ⟨y, hb⟩ := Option.isSome_iff_exists.mp hb
    refine ⟨fun hr => ?_, fun hap => copyAssign_took hT hH hab ha hb hap hfuel⟩
    obtain ⟨H', hr, -⟩ := hr
    exact apart_of_copyAssign hT hH hab ha hb hr

theorem shared_head_next_is_taken :
    (∃ H', (twoNodes 2 ⟨2, 1⟩ ⟨1, 1⟩).copyAssign sharedCounter 2 (.handle 0) (.field 0 0) =
        some H' ∧
      Took sharedCounter (fun k => 0 < k.weakCount) (twoNodes 2 ⟨2, 1⟩ ⟨1, 1⟩) (.handle 0)
        (.field 0 0) H') ∧
    (∃ H', (twoNodes 2 ⟨2, 1⟩ ⟨1, 1⟩).moveAssign 2 (.handle 0) (.field 0 0) = some H' ∧
      Took sharedCounter (fun k => 0 < k.weakCount) (twoNodes 2 ⟨2, 1⟩ ⟨1, 1⟩) (.handle 0)
        (.field 0 0) H') ∧
    ∃ H', (twoNodes 2 2 1).copyAssign trivialCounter 2 (.handle 0) (.field 0 0) = some H' ∧
      Took trivialCounter (fun _ => True) (twoNodes 2 2 1) (.handle 0) (.field 0 0) H' := by
  obtain ⟨hshared, htrivial⟩ := assignment_takes_iff_apart (.handle 0) (.field 0 0) (by decide) 2
  have hcounted : Counted sharedCounter (fun k => 0 < k.weakCount)
      (twoNodes 2 ⟨2, 1⟩ ⟨1, 1⟩) := twoNodes_counted rfl rfl Nat.one_pos Nat.one_pos
  obtain ⟨hcopy, hmove⟩ := hshared _ hcounted (by decide) (by decide) (by decide)
  refine ⟨hcopy.mpr (twoNodes_apart _ _), hmove.mpr (twoNodes_apart _ _), ?_⟩
  exact (htrivial _ (twoNodes_counted rfl rfl trivial trivial) (by decide) (by decide)
    (by decide)).mpr (twoNodes_apart _ _)

/-- With one handle, the release deletes both nodes, and there is no field to
read any more. -/
theorem head_next_is_read_after_delete :
    Counted sharedCounter (fun k => 0 < k.weakCount) (twoNodes 1 ⟨1, 1⟩ ⟨1, 1⟩) ∧
    (twoNodes 1 (⟨1, 1⟩ : ControlBlock) ⟨1, 1⟩).load (.field 0 0) = some ⟨some 1, some 1⟩ ∧
    ((twoNodes 1 ⟨1, 1⟩ ⟨1, 1⟩).release sharedCounter (deleteNode sharedCounter 2)
      (.handle 0)).map (fun H => (H.deleted, H.load (.field 0 0))) = some ([0, 1], none) ∧
    (twoNodes 1 ⟨1, 1⟩ ⟨1, 1⟩).copyAssign sharedCounter 2 (.handle 0) (.field 0 0) = none ∧
    (twoNodes 1 ⟨1, 1⟩ ⟨1, 1⟩).moveAssign 2 (.handle 0) (.field 0 0) = none ∧
    Counted trivialCounter (fun _ => True) (twoNodes 1 1 1) ∧
    (twoNodes 1 1 1).copyAssign trivialCounter 2 (.handle 0) (.field 0 0) = none :=
  ⟨twoNodes_counted rfl rfl Nat.one_pos Nat.one_pos, rfl, by decide, by decide, by decide,
    twoNodes_counted rfl rfl trivial trivial, by decide⟩

end Ycetl.Ref.Shared.Heap
