import Ycetl.Lib.Movable
import Ycetl.Lib.Refinement

/-!
# Containers that are sequences

The data type behind a class of containers that own chains of nodes, for a
program with any number of them: a sequence for each, whose elements are in
nodes of their own. Nodes are numbered over all sequences of a program in the
order in which they are made, so the number made so far is the next number, and
no number is used again.

`SeqOps` says what the member functions do to sequences. `Refines` asks of
the class that each of them, called on an object that holds a sequence, does
that to it, and nothing to the nodes of other objects. From it a program over
the class does what the program over the sequences does, whatever its steps
are; its live nodes are those of the sequences, each of one sequence; and what
is deleted stays deleted.
-/

namespace Ycetl.Lib

/-- The nodes that were dead before are dead. -/
structure StayDead {N : Type} (H H' : List (Option N)) : Prop where
  length_le : H.length ≤ H'.length
  dead : ∀ p < H.length, record? H p = none → record? H' p = none

theorem StayDead.refl {N : Type} (H : List (Option N)) : StayDead H H :=
  ⟨Nat.le_refl _, fun _ _ hp => hp⟩

theorem StayDead.trans {N : Type} {H₁ H₂ H₃ : List (Option N)} (h : StayDead H₁ H₂)
    (h' : StayDead H₂ H₃) : StayDead H₁ H₃ :=
  ⟨h.length_le.trans h'.length_le, fun p hp hdead =>
    h'.dead p (Nat.lt_of_lt_of_le hp h.length_le) (h.dead p hp hdead)⟩

namespace Movable

/-! ## Programs over sequences -/

/-- What the member functions of a class do to sequences, when so many nodes
have been made: the elements that are built of an argument, those that are
copied, and the sequence after a call, with what it answers. -/
structure SeqOps (M : Movable) where
  build : Nat → M.Arg → List (Nat × M.Val)
  copy : Nat → List M.Val → List (Nat × M.Val)
  call : Nat → List (Nat × M.Val) → M.Op → Option (Nat × List (Nat × M.Val) × M.Out)

/-- The sequences of a program. -/
structure SeqWorld (M : Movable) where
  made : Nat
  seqs : Nat → Option (List (Nat × M.Val))

variable {M : Movable}

namespace SeqWorld

def initial : SeqWorld M := ⟨0, fun _ => none⟩

/-- The elements of a sequence, none if there is no such sequence. -/
def held (v : SeqWorld M) (i : Nat) : List (Nat × M.Val) := (v.seqs i).getD []

def put (v : SeqWorld M) (i made : Nat) (es : List (Nat × M.Val)) : SeqWorld M :=
  ⟨made, Function.update v.seqs i (some es)⟩

/-- Sequence `i` gets new elements. -/
def make (v : SeqWorld M) (i : Nat) (es : List (Nat × M.Val)) : SeqWorld M :=
  v.put i (v.made + es.length) es

/-- Sequence `i` takes over the elements of `j`. -/
def moveTo (v : SeqWorld M) (i j : Nat) (es : List (Nat × M.Val)) : SeqWorld M :=
  ⟨v.made, Function.update (Function.update v.seqs j (some [])) i (some es)⟩

def step (ops : SeqOps M) (v : SeqWorld M) : Step M → Option (SeqWorld M × Option M.Out)
  | .construct i a =>
      match v.seqs i with
      | none => some (v.make i (ops.build v.made a), none)
      | some _ => none
  | .copyConstruct i j =>
      match v.seqs i, v.seqs j with
      | none, some fs => some (v.make i (ops.copy v.made (fs.map Prod.snd)), none)
      | _, _ => none
  | .copyAssign i j =>
      match v.seqs i, v.seqs j with
      | some _, some fs =>
          some (if i = j then v else v.make i (ops.copy v.made (fs.map Prod.snd)), none)
      | _, _ => none
  | .moveConstruct i j =>
      match v.seqs i, v.seqs j with
      | none, some fs => some (v.moveTo i j fs, none)
      | _, _ => none
  | .moveAssign i j =>
      match v.seqs i, v.seqs j with
      | some _, some fs => some (if i = j then v else v.moveTo i j fs, none)
      | _, _ => none
  | .call i op =>
      match v.seqs i with
      | some es => (ops.call v.made es op).map fun r => (v.put i r.1 r.2.1, some r.2.2)
      | none => none
  | .destroy i =>
      match v.seqs i with
      | some _ => some (⟨v.made, Function.update v.seqs i none⟩, none)
      | none => none

theorem held_none {v : SeqWorld M} {i : Nat} (hi : v.seqs i = none) : v.held i = [] := by
  rw [held, hi]
  rfl

theorem held_some {v : SeqWorld M} {i : Nat} {es : List (Nat × M.Val)}
    (hi : v.seqs i = some es) : v.held i = es := by
  rw [held, hi]
  rfl

end SeqWorld

/-! ## What an element lives through -/

/-- The steps that take an element out of sequence `i`, where `ends` are the
calls that do. -/
def Step.Ends (ends : M.Op → Prop) (i : Nat) : Step M → Prop
  | .copyAssign k j | .moveAssign k j => k = i ∧ k ≠ j
  | .destroy k => k = i
  | .call k op => k = i ∧ ends op
  | .construct _ _ | .copyConstruct _ _ | .moveConstruct _ _ => False

namespace SeqWorld

variable {ops : SeqOps M} {v v' : SeqWorld M} {i : Nat} {es : List (Nat × M.Val)}
  {x : Nat × M.Val}

theorem put_spares {k made : Nat} {gs : List (Nat × M.Val)} (hi : v.seqs i = some es)
    (hx : x ∈ es) (hik : i ≠ k) : ∃ m fs, (v.put k made gs).seqs m = some fs ∧ x ∈ fs :=
  ⟨i, es, (Function.update_of_ne hik ..).trans hi, hx⟩

/-- A move takes the elements along. -/
theorem moveTo_spares {k j : Nat} {gs : List (Nat × M.Val)} (hi : v.seqs i = some es)
    (hx : x ∈ es) (hik : i ≠ k) (hj : v.seqs j = some gs) :
    ∃ m fs, (v.moveTo k j gs).seqs m = some fs ∧ x ∈ fs := by
  by_cases hij : i = j
  · rw [← hij, hi, Option.some.injEq] at hj
    exact ⟨k, gs, Function.update_self .., hj ▸ hx⟩
  · exact ⟨i, es, (Function.update_of_ne hik ..).trans ((Function.update_of_ne hij ..).trans hi),
      hx⟩

/-- An element a step does not end is in a sequence afterwards, in its node and
with its value, where the calls are like that. -/
theorem step_spares {ends : M.Op → Prop}
    (hcall : ∀ {made op r}, ops.call made es op = some r → ¬ ends op → x ∈ r.2.1)
    {s : Step M} {out : Option M.Out} (h : step ops v s = some (v', out))
    (hi : v.seqs i = some es) (hx : x ∈ es) (hend : ¬ s.Ends ends i) :
    ∃ k fs, v'.seqs k = some fs ∧ x ∈ fs := by
  -- an object that is made is not the one that holds the element
  have hnew : ∀ {k}, v.seqs k = none → i ≠ k := by
    intro k hk hik
    rw [← hik, hi] at hk
    cases hk
  cases s with
  | construct k a =>
      rw [step] at h
      split at h
      next hk =>
        simp only [Option.some.injEq, Prod.mk.injEq] at h
        exact h.1 ▸ put_spares hi hx (hnew hk)
      · cases h
  | copyConstruct k j =>
      rw [step] at h
      split at h
      next hk hj =>
        simp only [Option.some.injEq, Prod.mk.injEq] at h
        exact h.1 ▸ put_spares hi hx (hnew hk)
      · cases h
  | copyAssign k j =>
      rw [step] at h
      split at h
      next hk hj =>
        simp only [Option.some.injEq, Prod.mk.injEq] at h
        by_cases hkj : k = j
        · rw [if_pos hkj] at h
          exact ⟨i, es, h.1 ▸ hi, hx⟩
        · rw [if_neg hkj] at h
          exact h.1 ▸ put_spares hi hx fun hik => hend ⟨hik.symm, hkj⟩
      · cases h
  | moveConstruct k j =>
      rw [step] at h
      split at h
      next hk hj =>
        simp only [Option.some.injEq, Prod.mk.injEq] at h
        exact h.1 ▸ moveTo_spares hi hx (hnew hk) hj
      · cases h
  | moveAssign k j =>
      rw [step] at h
      split at h
      next hk hj =>
        simp only [Option.some.injEq, Prod.mk.injEq] at h
        by_cases hkj : k = j
        · rw [if_pos hkj] at h
          exact ⟨i, es, h.1 ▸ hi, hx⟩
        · rw [if_neg hkj] at h
          exact h.1 ▸ moveTo_spares hi hx (fun hik => hend ⟨hik.symm, hkj⟩) hj
      · cases h
  | call k op =>
      rw [step] at h
      split at h
      next gs hk =>
        obtain ⟨r, hr, heq⟩ := Option.map_eq_some_iff.mp h
        simp only [Prod.mk.injEq] at heq
        by_cases hik : i = k
        · rw [← hik, hi, Option.some.injEq] at hk
          refine ⟨k, r.2.1, ?_, hcall (hk ▸ hr) fun he => hend ⟨hik.symm, he⟩⟩
          rw [← heq.1]
          exact Function.update_self ..
        · exact heq.1 ▸ put_spares hi hx hik
      · cases h
  | destroy k =>
      rw [step] at h
      split at h
      · simp only [Option.some.injEq, Prod.mk.injEq] at h
        refine ⟨i, es, ?_, hx⟩
        rw [← h.1]
        exact (Function.update_of_ne (fun hik => hend hik.symm) ..).trans hi
      · cases h

end SeqWorld

/-! ## What is asked of the class -/

section

variable {N : Type} (records : M.Heap → List (Option N))
  (Shape : M.Heap → M.Obj → List (Nat × M.Val) → Prop)

/-- Work on the nodes of `es` that leaves an object with the new elements
`es'`. -/
def Makes (H : M.Heap) (es es' : List (Nat × M.Val)) (r : Option (M.Heap × M.Obj)) : Prop :=
  ∃ H' x', r = some (H', x') ∧ Shape H' x' es' ∧ Reworks (records H) es (records H') es' ∧
    (records H').length = (records H).length + es'.length

/-- A call does to an object what it does to its sequence, or has no result on
either. -/
def CallAgrees (ops : SeqOps M) (H : M.Heap) (x : M.Obj) (es : List (Nat × M.Val))
    (op : M.Op) : Prop :=
  (∃ H' x' es' out, M.call H x op = some (H', x', out) ∧
    ops.call (records H).length es op = some ((records H').length, es', out) ∧
    Shape H' x' es' ∧ Reworks (records H) es (records H') es') ∨
  (M.call H x op = none ∧ ops.call (records H).length es op = none)

/-- Objects hold sequences: `Shape` is what ties an object to the nodes and the
values of its elements. -/
structure Refines (ops : SeqOps M) : Prop where
  init_eq : records M.init = []
  alive : ∀ {H x es}, Shape H x es → ∀ p ∈ nodesOf es, ∃ n, record? (records H) p = some n
  congr : ∀ {H H' x es}, Shape H x es →
    (∀ p ∈ nodesOf es, record? (records H') p = record? (records H) p) → Shape H' x es
  taken : ∀ {H y es}, Shape H y es → Shape H (M.moveConstruct y).1 es
  left : ∀ H y, Shape H (M.moveConstruct y).2 []
  construct : ∀ H a,
    Makes records Shape H [] (ops.build (records H).length a) (M.construct H a)
  copyConstruct : ∀ {H y fs}, Shape H y fs →
    Makes records Shape H [] (ops.copy (records H).length (fs.map Prod.snd))
      (M.copyConstruct H y)
  copyAssign : ∀ {H x y es fs}, Shape H x es → Shape H y fs →
    (∀ p ∈ nodesOf fs, p ∉ nodesOf es) →
    Makes records Shape H es (ops.copy (records H).length (fs.map Prod.snd))
      (M.copyAssign H x y)
  call : ∀ {H x es}, Shape H x es → ∀ op, CallAgrees records Shape ops H x es op
  destroy : ∀ {H x es}, Shape H x es →
    ∃ H', M.destroy H x = some H' ∧ Reworks (records H) es (records H') [] ∧
      (records H').length = (records H).length
  moveAssign : ∀ H x y,
    M.moveAssign H x y = (M.destroy H x).map fun H' => (H', M.moveConstruct y)

/-- The objects of a program hold the sequences, each in nodes of its own, and
no other node is alive. -/
structure Holds (w : World M) (v : SeqWorld M) : Prop where
  made_eq : v.made = (records w.heap).length
  rep : ∀ i, (w.objs i = none ∧ v.seqs i = none) ∨
    ∃ x es, w.objs i = some x ∧ v.seqs i = some es ∧ Shape w.heap x es
  apart : ∀ i j es fs, i ≠ j → v.seqs i = some es → v.seqs j = some fs →
    ∀ p ∈ nodesOf es, p ∉ nodesOf fs
  owned : ∀ p n, record? (records w.heap) p = some n →
    ∃ i es, v.seqs i = some es ∧ p ∈ nodesOf es

variable {records Shape} {ops : SeqOps M} {w : World M} {v : SeqWorld M}

/-- In particular every object owns the nodes of its sequence. -/
theorem Refines.ownsNodes (hr : Refines records Shape ops)
    (hiter : ∀ {H x es}, Shape H x es → M.iterate H x = es.map fun e => some e.2) :
    OwnsNodes records Shape where
  lt hx p hp := by
    obtain ⟨n, hn⟩ := hr.alive hx p hp
    exact lt_of_record? hn
  congr := hr.congr
  iterate_eq := hiter
  taken := hr.taken
  left := hr.left
  construct {H a H' x'} hc := by
    obtain ⟨H₁, x₁, hrun, hx, hw, -⟩ := hr.construct H a
    cases hrun.symm.trans hc
    exact ⟨_, hx, hw⟩
  copyConstruct hy hc := by
    obtain ⟨H₁, x₁, hrun, hx, hw, -⟩ := hr.copyConstruct hy
    cases hrun.symm.trans hc
    exact ⟨_, hx, hw⟩
  copyAssign hx hy hdis hc := by
    obtain ⟨H₁, x₁, hrun, hx', hw, -⟩ := hr.copyAssign hx hy hdis
    cases hrun.symm.trans hc
    exact ⟨_, hx', hw⟩
  call {H x es op H' x' out} hx hc := by
    rcases hr.call hx op with ⟨H₁, x₁, es', out₁, hrun, -, hx', hw⟩ | ⟨hnone, -⟩
    · cases hrun.symm.trans hc
      exact ⟨es', hx', hw⟩
    · cases hnone.symm.trans hc
  destroy hx := by
    obtain ⟨H', hrun, hw, -⟩ := hr.destroy hx
    exact ⟨H', hrun, hw⟩
  moveAssign := hr.moveAssign

theorem Refines.holds_initial (hr : Refines records Shape ops) :
    Holds records Shape (World.initial M) SeqWorld.initial where
  made_eq := by
    rw [World.initial, hr.init_eq]
    rfl
  rep _ := .inl ⟨rfl, rfl⟩
  apart _ _ _ _ _ h := by cases h
  owned p n h := by
    rw [World.initial, hr.init_eq, record?_of_length_le (Nat.zero_le p)] at h
    cases h

/-! ## One object at a time -/

namespace Holds

theorem shape (h : Holds records Shape w v) {i : Nat} {x : M.Obj} {es : List (Nat × M.Val)}
    (hx : w.objs i = some x) (hes : v.seqs i = some es) : Shape w.heap x es := by
  rcases h.rep i with ⟨hnone, -⟩ | ⟨y, fs, hy, hfs, hshape⟩
  · rw [hx] at hnone
    cases hnone
  · rw [hx, Option.some.injEq] at hy
    rw [hes, Option.some.injEq] at hfs
    exact hy ▸ hfs ▸ hshape

/-- The nodes of a sequence are alive. -/
theorem alive (hr : Refines records Shape ops) (h : Holds records Shape w v) {i p : Nat}
    {es : List (Nat × M.Val)} (hi : v.seqs i = some es) (hp : p ∈ nodesOf es) :
    ∃ n, record? (records w.heap) p = some n := by
  rcases h.rep i with ⟨-, hnone⟩ | ⟨x, fs, -, hfs, hshape⟩
  · rw [hnone] at hi
    cases hi
  · rw [hi, Option.some.injEq] at hfs
    exact hr.alive hshape p (hfs ▸ hp)

theorem lt (hr : Refines records Shape ops) (h : Holds records Shape w v) {i p : Nat}
    {es : List (Nat × M.Val)} (hi : v.seqs i = some es) (hp : p ∈ nodesOf es) :
    p < (records w.heap).length := by
  obtain ⟨n, hn⟩ := h.alive hr hi hp
  exact lt_of_record? hn

/-- A node of another sequence is not one of this sequence. -/
theorem not_held (h : Holds records Shape w v) {i k p : Nat} (hk : k ≠ i)
    {es : List (Nat × M.Val)} (hes : v.seqs k = some es) (hp : p ∈ nodesOf es) :
    p ∉ nodesOf (v.held i) := by
  intro hpi
  cases hi : v.seqs i with
  | none =>
      rw [SeqWorld.held_none hi] at hpi
      exact absurd hpi List.not_mem_nil
  | some fs =>
      rw [SeqWorld.held_some hi] at hpi
      exact h.apart k i es fs hk hes hi p hp hpi

/-- One object is replaced, made or destroyed, by work on its own nodes. -/
theorem update (hr : Refines records Shape ops) (h : Holds records Shape w v) {i : Nat}
    {H' : M.Heap} {o : Option M.Obj} {q : Option (List (Nat × M.Val))}
    (hrep : (o = none ∧ q = none) ∨ ∃ x es, o = some x ∧ q = some es ∧ Shape H' x es)
    (hw : Reworks (records w.heap) (v.held i) (records H') (q.getD [])) :
    Holds records Shape ⟨H', Function.update w.objs i o⟩
      ⟨(records H').length, Function.update v.seqs i q⟩ := by
  have hnew : ∀ k, k ≠ i → ∀ es, v.seqs k = some es → ∀ p ∈ nodesOf es,
      p ∉ nodesOf (q.getD []) := by
    intro k hk es hes p hp hpq
    rcases hw.owned p hpq with hold | hfresh
    · exact h.not_held hk hes hp hold
    · exact Nat.not_lt.mpr hfresh (h.lt hr hes hp)
  refine ⟨rfl, fun k => ?_, fun k m es fs hkm hes hfs p hp => ?_, fun p n hp => ?_⟩
  · by_cases hk : k = i
    · simp only [hk, Function.update_self]
      exact hrep
    · simp only [Function.update_of_ne hk]
      rcases h.rep k with hnone | ⟨x, es, hx, hes, hshape⟩
      · exact .inl hnone
      · refine .inr ⟨x, es, hx, hes, hr.congr hshape fun p hp => ?_⟩
        exact hw.keeps.record_eq p (h.lt hr hes hp) (h.not_held hk hes hp)
  · by_cases hk : k = i
    · have hm : m ≠ i := fun hm => hkm (hk.trans hm.symm)
      simp only [hk, Function.update_self] at hes
      simp only [Function.update_of_ne hm] at hfs
      intro hpf
      exact hnew m hm fs hfs p hpf (by rw [hes]; exact hp)
    · simp only [Function.update_of_ne hk] at hes
      by_cases hm : m = i
      · simp only [hm, Function.update_self] at hfs
        have hpq := hnew k hk es hes p hp
        rw [hfs] at hpq
        exact hpq
      · simp only [Function.update_of_ne hm] at hfs
        exact h.apart k m es fs hkm hes hfs p hp
  · by_cases hpq : p ∈ nodesOf (q.getD [])
    · cases hq : q with
      | none =>
          rw [hq] at hpq
          exact absurd hpq List.not_mem_nil
      | some es =>
          rw [hq] at hpq
          exact ⟨i, es, Function.update_self .., hpq⟩
    · have hpi : ¬ (p ∈ nodesOf (v.held i) ∨ (records w.heap).length ≤ p) := by
        intro hpi
        rw [show record? (records H') p = none from hw.gone p hpi hpq] at hp
        cases hp
      rw [not_or, Nat.not_le] at hpi
      have hp' := (hw.keeps.record_eq p hpi.2 hpi.1).symm.trans hp
      obtain ⟨k, es, hes, hpk⟩ := h.owned p n hp'
      have hk : k ≠ i := by
        intro hk
        apply hpi.1
        rw [SeqWorld.held, ← hk, hes]
        exact hpk
      exact ⟨k, es, by simp only [Function.update_of_ne hk]; exact hes, hpk⟩

/-- An object without elements takes over those of another one. -/
theorem moveTo (hr : Refines records Shape ops) (h : Holds records Shape w v) {i j : Nat}
    (hi : v.held i = []) {y : M.Obj} {fs : List (Nat × M.Val)} (hj : w.objs j = some y)
    (hfs : v.seqs j = some fs) :
    Holds records Shape (w.putBoth i j w.heap (M.moveConstruct y)) (v.moveTo i j fs) := by
  have hshape := h.shape hj hfs
  -- the objects and the sequences afterwards, one by one
  have hseq : ∀ k, (v.moveTo i j fs).seqs k =
      if k = i then some fs else if k = j then some [] else v.seqs k := by
    intro k
    rw [SeqWorld.moveTo]
    simp only [Function.update_apply]
  have hobj : ∀ k, (w.putBoth i j w.heap (M.moveConstruct y)).objs k =
      if k = i then some (M.moveConstruct y).1
      else if k = j then some (M.moveConstruct y).2 else w.objs k := by
    intro k
    rw [World.putBoth]
    simp only [Function.update_apply]
  -- a node of a sequence other than `i` afterwards is not one of `fs`
  have hrest : ∀ k es, k ≠ i → (v.moveTo i j fs).seqs k = some es → ∀ p ∈ nodesOf es,
      p ∉ nodesOf fs ∧ k ≠ j ∧ v.seqs k = some es := by
    intro k es hk hes p hp
    rw [hseq, if_neg hk] at hes
    split at hes
    · rw [← Option.some.inj hes] at hp
      exact absurd hp List.not_mem_nil
    next hkj => exact ⟨h.apart k j es fs hkj hes hfs p hp, hkj, hes⟩
  refine ⟨h.made_eq, fun k => ?_, fun k m es gs hkm hes hgs p hp => ?_, fun p n hp => ?_⟩
  · rw [hseq, hobj]
    split
    · exact .inr ⟨_, fs, rfl, rfl, hr.taken hshape⟩
    · split
      · exact .inr ⟨_, [], rfl, rfl, hr.left w.heap y⟩
      · exact h.rep k
  · by_cases hk : k = i
    · rw [hk, hseq, if_pos rfl, Option.some.injEq] at hes
      intro hpg
      exact (hrest m gs (fun hm => hkm (hk.trans hm.symm)) hgs p hpg).1 (hes ▸ hp)
    · obtain ⟨hpf, hkj, hes'⟩ := hrest k es hk hes p hp
      by_cases hm : m = i
      · rw [hm, hseq, if_pos rfl, Option.some.injEq] at hgs
        exact hgs ▸ hpf
      · intro hpg
        obtain ⟨-, -, hgs'⟩ := hrest m gs hm hgs p hpg
        exact h.apart k m es gs hkm hes' hgs' p hp hpg
  · obtain ⟨k, es, hes, hpk⟩ := h.owned p n hp
    by_cases hkj : k = j
    · rw [hkj, hfs, Option.some.injEq] at hes
      exact ⟨i, fs, by rw [hseq, if_pos rfl], hes ▸ hpk⟩
    · have hki : k ≠ i := by
        intro hki
        rw [SeqWorld.held, ← hki, hes] at hi
        rw [show es = [] from hi] at hpk
        exact absurd hpk List.not_mem_nil
      exact ⟨k, es, by rw [hseq, if_neg hki, if_neg hkj]; exact hes, hpk⟩

/-- Work on a sequence's own nodes revives none, since they are alive. -/
theorem stayDead (hr : Refines records Shape ops) (h : Holds records Shape w v) {i : Nat}
    {H' : M.Heap} {es : List (Nat × M.Val)}
    (hw : Reworks (records w.heap) (v.held i) (records H') es) :
    StayDead (records w.heap) (records H') := by
  refine ⟨hw.keeps.length_le, fun p hp hdead => ?_⟩
  have hout : p ∉ nodesOf (v.held i) := by
    intro hpi
    cases hi : v.seqs i with
    | none =>
        rw [SeqWorld.held_none hi] at hpi
        exact absurd hpi List.not_mem_nil
    | some fs =>
        rw [SeqWorld.held_some hi] at hpi
        obtain ⟨n, hn⟩ := h.alive hr hi hpi
        rw [hdead] at hn
        cases hn
  rw [hw.keeps.record_eq p hp hout, hdead]

/-- Where there is no object, every node is deleted. -/
theorem all_deleted (h : Holds records Shape w v) (hall : ∀ i, w.objs i = none) (p : Nat) :
    record? (records w.heap) p = none := by
  cases hp : record? (records w.heap) p with
  | none => rfl
  | some n =>
      obtain ⟨i, es, hes, -⟩ := h.owned p n hp
      rcases h.rep i with ⟨-, hnone⟩ | ⟨x, fs, hx, -, -⟩
      · rw [hes] at hnone
        cases hnone
      · rw [hall i] at hx
        cases hx

/-- The live nodes are those of the sequences. -/
theorem alive_iff (hr : Refines records Shape ops) (h : Holds records Shape w v) (p : Nat) :
    (record? (records w.heap) p).isSome ↔ ∃ i es, v.seqs i = some es ∧ p ∈ nodesOf es := by
  refine ⟨fun hp => ?_, fun hp => ?_⟩
  · obtain ⟨n, hn⟩ := Option.isSome_iff_exists.mp hp
    exact h.owned p n hn
  · obtain ⟨i, es, hes, hpe⟩ := hp
    exact Option.isSome_iff_exists.mpr (h.alive hr hes hpe)

/-- Each of one sequence. -/
theorem one_owner (h : Holds records Shape w v) {i j p : Nat} {es fs : List (Nat × M.Val)}
    (hes : v.seqs i = some es) (hfs : v.seqs j = some fs) (hp : p ∈ nodesOf es)
    (hpf : p ∈ nodesOf fs) : i = j := by
  by_contra hij
  exact h.apart i j es fs hij hes hfs p hp hpf

end Holds

/-! ## One step, and whole programs -/

variable (records Shape) in
/-- A program after a step from the heap `H`. -/
def Same (H : M.Heap) (w : World M) (v : SeqWorld M) : Prop :=
  Holds records Shape w v ∧ StayDead (records H) (records w.heap)

/-- One object gets the elements `es`. -/
theorem Holds.put (hr : Refines records Shape ops) (h : Holds records Shape w v) {i : Nat}
    {H' : M.Heap} {x' : M.Obj} {es : List (Nat × M.Val)} (hx : Shape H' x' es)
    (hw : Reworks (records w.heap) (v.held i) (records H') es) :
    Same records Shape w.heap (w.put i (H', x')) (v.put i (records H').length es) :=
  ⟨h.update hr (.inr ⟨x', es, rfl, rfl, hx⟩) hw, h.stayDead hr hw⟩

/-- One object gets new elements. -/
theorem Holds.make (hr : Refines records Shape ops) (h : Holds records Shape w v) {i : Nat}
    {es : List (Nat × M.Val)} {r : Option (M.Heap × M.Obj)}
    (hmk : Makes records Shape w.heap (v.held i) es r) :
    ∃ H' x', r = some (H', x') ∧
      Same records Shape w.heap (w.put i (H', x')) (v.make i es) := by
  obtain ⟨H', x', hrun, hx, hw, hlen⟩ := hmk
  refine ⟨H', x', hrun, ?_⟩
  rw [SeqWorld.make, h.made_eq, ← hlen]
  exact h.put hr hx hw

/-- A move that assigns deletes the elements of the target first. -/
theorem Holds.moveAssign (hr : Refines records Shape ops) (h : Holds records Shape w v)
    {i j : Nat} (hij : i ≠ j) {x y : M.Obj} {es fs : List (Nat × M.Val)}
    (hi : w.objs i = some x) (hes : v.seqs i = some es) (hj : w.objs j = some y)
    (hfs : v.seqs j = some fs) :
    ∃ H', M.moveAssign w.heap x y = some (H', M.moveConstruct y) ∧
      Same records Shape w.heap (w.putBoth i j H' (M.moveConstruct y)) (v.moveTo i j fs) := by
  obtain ⟨H', hd, hw, hlen⟩ := hr.destroy (h.shape hi hes)
  rw [← SeqWorld.held_some hes] at hw
  have hgone := h.update hr (i := i) (o := none) (q := none) (.inl ⟨rfl, rfl⟩) hw
  rw [hlen, ← h.made_eq] at hgone
  have hmoved := hgone.moveTo hr (SeqWorld.held_none (Function.update_self ..))
    ((Function.update_of_ne (Ne.symm hij) ..).trans hj)
    ((Function.update_of_ne (Ne.symm hij) ..).trans hfs)
  rw [World.putBoth, SeqWorld.moveTo, Function.update_comm hij, Function.update_idem,
    Function.update_comm hij, Function.update_idem] at hmoved
  exact ⟨H', by rw [hr.moveAssign, hd]; rfl, hmoved, h.stayDead hr hw⟩

/-- A step does to the objects what it does to the sequences, or has no result
on either. -/
theorem Refines.answer_agree (hr : Refines records Shape ops) (h : Holds records Shape w v)
    (s : Step M) :
    Agree (Same records Shape w.heap) (w.answer s) (SeqWorld.step ops v s) := by
  cases s with
  | construct i a =>
      rw [SeqWorld.step]
      rcases h.rep i with ⟨hi, hv⟩ | ⟨x, es, hi, hv, hx⟩
      · have hmk := hr.construct w.heap a
        rw [← SeqWorld.held_none hv, ← h.made_eq] at hmk
        obtain ⟨H', x', hrun, hsame⟩ := h.make hr hmk
        simp only [World.answer, World.step, hi, hv, hrun, Option.map_some]
        exact ⟨hsame, rfl⟩
      · simp only [World.answer, World.step, hi, hv]
        exact agree_none
  | copyConstruct i j =>
      rw [SeqWorld.step]
      rcases h.rep i with ⟨hi, hv⟩ | ⟨x, es, hi, hv, hx⟩
      · rcases h.rep j with ⟨hj, hvj⟩ | ⟨y, fs, hj, hvj, hy⟩
        · simp only [World.answer, World.step, hi, hj, hv, hvj]
          exact agree_none
        · have hmk := hr.copyConstruct hy
          rw [← SeqWorld.held_none hv, ← h.made_eq] at hmk
          obtain ⟨H', x', hrun, hsame⟩ := h.make hr hmk
          simp only [World.answer, World.step, hi, hj, hv, hvj, hrun, Option.map_some]
          exact ⟨hsame, rfl⟩
      · simp only [World.answer, World.step, hi, hv]
        exact agree_none
  | copyAssign i j =>
      rw [SeqWorld.step]
      rcases h.rep i with ⟨hi, hv⟩ | ⟨x, es, hi, hv, hx⟩
      · simp only [World.answer, World.step, hi, hv]
        exact agree_none
      · rcases h.rep j with ⟨hj, hvj⟩ | ⟨y, fs, hj, hvj, hy⟩
        · simp only [World.answer, World.step, hi, hj, hv, hvj]
          exact agree_none
        · by_cases hij : i = j
          · simp only [World.answer, World.step, hi, hj, hv, hvj, if_pos hij, Option.map_some]
            exact ⟨⟨h, .refl _⟩, rfl⟩
          · have hmk := hr.copyAssign hx hy (h.apart j i fs es (Ne.symm hij) hvj hv)
            rw [← SeqWorld.held_some hv, ← h.made_eq] at hmk
            obtain ⟨H', x', hrun, hsame⟩ := h.make hr hmk
            simp only [World.answer, World.step, hi, hj, hv, hvj, if_neg hij, hrun,
              Option.map_some]
            exact ⟨hsame, rfl⟩
  | moveConstruct i j =>
      rw [SeqWorld.step]
      rcases h.rep i with ⟨hi, hv⟩ | ⟨x, es, hi, hv, hx⟩
      · rcases h.rep j with ⟨hj, hvj⟩ | ⟨y, fs, hj, hvj, hy⟩
        · simp only [World.answer, World.step, hi, hj, hv, hvj]
          exact agree_none
        · simp only [World.answer, World.step, hi, hj, hv, hvj, Option.map_some]
          exact ⟨⟨h.moveTo hr (SeqWorld.held_none hv) hj hvj, .refl _⟩, rfl⟩
      · simp only [World.answer, World.step, hi, hv]
        exact agree_none
  | moveAssign i j =>
      rw [SeqWorld.step]
      rcases h.rep i with ⟨hi, hv⟩ | ⟨x, es, hi, hv, hx⟩
      · simp only [World.answer, World.step, hi, hv]
        exact agree_none
      · rcases h.rep j with ⟨hj, hvj⟩ | ⟨y, fs, hj, hvj, hy⟩
        · simp only [World.answer, World.step, hi, hj, hv, hvj]
          exact agree_none
        · by_cases hij : i = j
          · simp only [World.answer, World.step, hi, hj, hv, hvj, if_pos hij, Option.map_some]
            exact ⟨⟨h, .refl _⟩, rfl⟩
          · obtain ⟨H', hrun, hsame⟩ := h.moveAssign hr hij hi hv hj hvj
            simp only [World.answer, World.step, hi, hj, hv, hvj, if_neg hij, hrun,
              Option.map_some]
            exact ⟨hsame, rfl⟩
  | call i op =>
      rw [SeqWorld.step]
      rcases h.rep i with ⟨hi, hv⟩ | ⟨x, es, hi, hv, hx⟩
      · simp only [World.answer, hi, hv]
        exact agree_none
      · rcases hr.call hx op with ⟨H', x', es', out, hrun, hseq, hx', hw⟩ | ⟨hrun, hseq⟩
        · rw [← SeqWorld.held_some hv] at hw
          simp only [World.answer, hi, hv, hrun, h.made_eq, hseq, Option.map_some]
          exact ⟨h.put hr hx' hw, rfl⟩
        · simp only [World.answer, hi, hv, hrun, h.made_eq, hseq, Option.map_none]
          exact agree_none
  | destroy i =>
      rw [SeqWorld.step]
      rcases h.rep i with ⟨hi, hv⟩ | ⟨x, es, hi, hv, hx⟩
      · simp only [World.answer, World.step, hi, hv]
        exact agree_none
      · obtain ⟨H', hrun, hw, hlen⟩ := hr.destroy hx
        rw [← SeqWorld.held_some hv] at hw
        have hgone := h.update hr (i := i) (o := none) (q := none) (.inl ⟨rfl, rfl⟩) hw
        rw [hlen, ← h.made_eq] at hgone
        simp only [World.answer, World.step, hi, hv, hrun, Option.map_some]
        exact ⟨⟨hgone, h.stayDead hr hw⟩, rfl⟩

/-- Whole programs agree. -/
theorem Refines.answersFrom_holds (hr : Refines records Shape ops)
    (h : Holds records Shape w v) (steps : List (Step M)) :
    Agree (Holds records Shape) (answersFrom World.answer w steps)
      (answersFrom (SeqWorld.step ops) v steps) := by
  have hstep : ∀ w v s, Holds records Shape w v →
      Agree (Holds records Shape) (World.answer w s) (SeqWorld.step ops v s) :=
    fun _ _ s h => (hr.answer_agree h s).mono fun _ _ h => h.1
  exact answersFrom_agree hstep h steps

/-- A program that is defined over the objects is defined over the sequences,
with the same answers. -/
theorem Refines.reached (hr : Refines records Shape ops) {steps : List (Step M)}
    {outs : List (Option M.Out)}
    (hrun : answersFrom World.answer (World.initial M) steps = some (w, outs)) :
    ∃ v, answersFrom (SeqWorld.step ops) SeqWorld.initial steps = some (v, outs) ∧
      Holds records Shape w v := by
  have hagree := hr.answersFrom_holds hr.holds_initial steps
  rw [hrun] at hagree
  exact hagree.of_some_left

/-- Through a whole program the dead nodes stay dead. -/
theorem Refines.answersFrom_stayDead (hr : Refines records Shape ops)
    (h : Holds records Shape w v) {w' : World M} {steps : List (Step M)}
    {outs : List (Option M.Out)} (hrun : answersFrom World.answer w steps = some (w', outs)) :
    StayDead (records w.heap) (records w'.heap) := by
  have hstep : ∀ (u : World M) s r, (∃ v, Holds records Shape u v ∧
      StayDead (records w.heap) (records u.heap)) → u.answer s = some r →
      ∃ v, Holds records Shape r.1 v ∧ StayDead (records w.heap) (records r.1.heap) := by
    intro u s r hu hrun
    obtain ⟨v₁, hholds, hdead⟩ := hu
    have hagree := hr.answer_agree hholds s
    rw [hrun] at hagree
    obtain ⟨v', -, hholds', hdead'⟩ := hagree.of_some_left
    exact ⟨v', hholds', hdead.trans hdead'⟩
  obtain ⟨v', -, hdead⟩ := answersFrom_inv hstep ⟨v, h, .refl _⟩ hrun
  exact hdead

end

end Movable

end Ycetl.Lib
