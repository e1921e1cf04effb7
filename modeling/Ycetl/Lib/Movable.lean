import Mathlib.Data.List.ReduceOption
import Mathlib.Data.Set.Insert
import Mathlib.Logic.Function.Basic
import Ycetl.Lib.Chains
import Ycetl.Lib.Runs

/-!
# Containers that are moved

A class of containers over one heap is given by what its member functions do
to the heap and to the object they are called on; a call outside defined
behaviour has no result. A program over the class is any number of its
objects, constructed, copied, moved, used and destroyed in any order.

What is asked of a move is that the target has the elements the source had,
and that the source is usable again: its size counts the elements an iteration
reads, and no list of calls can tell it from a container that was just
constructed. Whether a class has that at every move is a question about runs,
because the source of one move may be the target of the next.

`Footed` is the argument that answers it. Each object owns a set of cells of
the heap, and the sets are disjoint. A call writes the cells of its own object
and cells that were never handed out, so what the others hold stays; a move
writes nothing and hands the set over.
-/

namespace Ycetl.Lib

structure Movable where
  Heap : Type
  Obj : Type
  Arg : Type
  Op : Type
  Out : Type
  Val : Type
  init : Heap
  /-- What the default constructor makes; it allocates nothing. -/
  fresh : Obj
  construct : Heap → Arg → Option (Heap × Obj)
  copyConstruct : Heap → Obj → Option (Heap × Obj)
  copyAssign : Heap → Obj → Obj → Option (Heap × Obj)
  /-- The target, and what is left of the source. -/
  moveConstruct : Obj → Obj × Obj
  moveAssign : Heap → Obj → Obj → Option (Heap × Obj × Obj)
  call : Heap → Obj → Op → Option (Heap × Obj × Out)
  destroy : Heap → Obj → Option Heap
  size : Obj → Nat
  /-- What an iteration reads, `none` where it reads outside the storage. -/
  iterate : Heap → Obj → List (Option Val)

namespace Movable

/-! ## Programs -/

structure World (M : Movable) where
  heap : M.Heap
  objs : Nat → Option M.Obj

inductive Step (M : Movable) where
  | construct (i : Nat) (a : M.Arg)
  | copyConstruct (i j : Nat)
  | copyAssign (i j : Nat)
  | moveConstruct (i j : Nat)
  | moveAssign (i j : Nat)
  | call (i : Nat) (op : M.Op)
  | destroy (i : Nat)

variable {M : Movable}

namespace World

variable (M) in
def initial : World M := ⟨M.init, fun _ => none⟩

def put (w : World M) (i : Nat) (r : M.Heap × M.Obj) : World M :=
  ⟨r.1, Function.update w.objs i (some r.2)⟩

/-- Both ends of a move. -/
def putBoth (w : World M) (i j : Nat) (H : M.Heap) (r : M.Obj × M.Obj) : World M :=
  ⟨H, Function.update (Function.update w.objs j (some r.2)) i (some r.1)⟩

def step (w : World M) : Step M → Option (World M)
  | .construct i a =>
      match w.objs i with
      | none => (M.construct w.heap a).map (w.put i)
      | some _ => none
  | .copyConstruct i j =>
      match w.objs i, w.objs j with
      | none, some y => (M.copyConstruct w.heap y).map (w.put i)
      | _, _ => none
  | .copyAssign i j =>
      match w.objs i, w.objs j with
      | some x, some y =>
          if i = j then some w else (M.copyAssign w.heap x y).map (w.put i)
      | _, _ => none
  | .moveConstruct i j =>
      match w.objs i, w.objs j with
      | none, some y => some (w.putBoth i j w.heap (M.moveConstruct y))
      | _, _ => none
  | .moveAssign i j =>
      match w.objs i, w.objs j with
      | some x, some y =>
          if i = j then some w
          else (M.moveAssign w.heap x y).map fun r => w.putBoth i j r.1 r.2
      | _, _ => none
  | .call i op =>
      match w.objs i with
      | some x => (M.call w.heap x op).map fun r => w.put i (r.1, r.2.1)
      | none => none
  | .destroy i =>
      match w.objs i with
      | some x => (M.destroy w.heap x).map fun H => ⟨H, Function.update w.objs i none⟩
      | none => none

/-- A step, and what it answers when it is a call. -/
def answer (w : World M) : Step M → Option (World M × Option M.Out)
  | .call i op =>
      match w.objs i with
      | some x => (M.call w.heap x op).map fun r => (w.put i (r.1, r.2.1), some r.2.2)
      | none => none
  | s => (w.step s).map fun w' => (w', none)

/-- The move a step makes between two objects: the numbers of the target and
of the source, and the source before it. -/
def moving (w : World M) : Step M → Option (Nat × Nat × M.Obj)
  | .moveConstruct i j =>
      match w.objs i, w.objs j with
      | none, some y => some (i, j, y)
      | _, _ => none
  | .moveAssign i j =>
      match w.objs i, w.objs j with
      | some _, some y => if i = j then none else some (i, j, y)
      | _, _ => none
  | _ => none

end World

/-! ## What is asked of a move -/

/-- What the calls return and leave behind, up to the first one without a
result. -/
def trace (M : Movable) (H : M.Heap) (x : M.Obj) :
    List M.Op → List (M.Out × Nat × List (Option M.Val))
  | [] => []
  | op :: ops =>
      match M.call H x op with
      | none => []
      | some (H', x', out) => (out, M.size x', M.iterate H' x') :: trace M H' x' ops

/-- A container in order: its size is the number of elements there are to
read, an iteration makes that many steps, and every list of calls goes as it
does on a container that was just constructed. -/
structure Usable (M : Movable) (H : M.Heap) (x : M.Obj) : Prop where
  size_eq : M.size x = (M.iterate H x).reduceOption.length
  iterate_length : (M.iterate H x).length = M.size x
  trace_eq : ∀ ops, M.trace H x ops = M.trace H M.fresh ops

/-- Objects that answer the first call alike answer every list of calls
alike. -/
theorem trace_congr {H : M.Heap} {x y : M.Obj} (h : ∀ op, M.call H x op = M.call H y op) :
    ∀ ops, M.trace H x ops = M.trace H y ops := by
  intro ops
  cases ops with
  | nil => rfl
  | cons op ops => rw [trace, trace, h op]

/-- Where nothing is left to read, all depends on the size. -/
theorem usable_iff_size_eq_zero {H : M.Heap} {x : M.Obj}
    (hread : (M.iterate H x).reduceOption = []) (hempty : M.size x = 0 → M.iterate H x = [])
    (hcall : M.size x = 0 → ∀ op, M.call H x op = M.call H M.fresh op) :
    M.Usable H x ↔ M.size x = 0 := by
  constructor
  · intro h
    rw [h.size_eq, hread]
    rfl
  · intro h0
    refine ⟨?_, ?_, trace_congr (hcall h0)⟩
    · rw [hread, h0]
      rfl
    · rw [hempty h0, h0]
      rfl

/-- The target has the elements the source had, and the source is usable. -/
def Handed (w w' : World M) (i j : Nat) (y : M.Obj) : Prop :=
  ∃ x' y', w'.objs i = some x' ∧ w'.objs j = some y' ∧
    M.size x' = M.size y ∧ M.iterate w'.heap x' = M.iterate w.heap y ∧
    M.Usable w'.heap y'

/-- A step that moves is defined, and hands over. -/
def MovesWell (w : World M) (s : Step M) : Prop :=
  ∀ i j y, w.moving s = some (i, j, y) → ∃ w', w.step s = some w' ∧ Handed w w' i j y

/-- A step that moves does so from an object with `cond`. -/
def MovesFrom (cond : M.Obj → Prop) (w : World M) (s : Step M) : Prop :=
  ∀ i j y, w.moving s = some (i, j, y) → cond y

/-- The moves of a run are in order exactly if each is from an object with
`cond`. -/
def MovesWellWhen (M : Movable) (cond : M.Obj → Prop) : Prop :=
  ∀ steps : List (Step M),
    Along World.step MovesWell (World.initial M) steps ↔
      Along World.step (MovesFrom cond) (World.initial M) steps

/-! ## Footprints -/

/-- Cells of a heap by number, and which of them an object owns. Numbers from
`next` on have not been handed out, and those below `base` never are. -/
structure Footing (M : Movable) where
  Cell : Type
  cell : M.Heap → Nat → Cell
  next : M.Heap → Nat
  base : Nat
  Rep : M.Heap → M.Obj → Set Nat → Prop

/-- The heap changed at cells of `F` and at new ones, and `F'` holds no
others. -/
structure Effect (ft : Footing M) (H : M.Heap) (F : Set Nat) (H' : M.Heap) (F' : Set Nat) :
    Prop where
  next_le : ft.next H ≤ ft.next H'
  kept : ∀ p < ft.next H, p ∉ F → ft.cell H' p = ft.cell H p
  owned : ∀ p ∈ F', p ∈ F ∨ ft.next H ≤ p

/-- The member functions of a class, by what they do to footprints. The rules
of `construct`, `copy` and `call` speak of calls that have a result; a
destructor must have one. -/
structure Footed (M : Movable) (ft : Footing M) : Prop where
  base_le : ft.base ≤ ft.next M.init
  below : ∀ {H x F}, ft.Rep H x F → ∀ p ∈ F, p < ft.next H
  frame : ∀ {H H' x F}, ft.Rep H x F → ft.next H ≤ ft.next H' →
    (∀ p ∈ F, ft.cell H' p = ft.cell H p) →
    ft.Rep H' x F ∧ M.iterate H' x = M.iterate H x
  taken : ∀ {H y F}, ft.Rep H y F → ft.Rep H (M.moveConstruct y).1 F
  left : ∀ {H y F}, ft.Rep H y F → ft.Rep H (M.moveConstruct y).2 ∅
  construct : ∀ {H a H' x'}, ft.base ≤ ft.next H → M.construct H a = some (H', x') →
    ∃ F', Effect ft H ∅ H' F' ∧ ft.Rep H' x' F'
  copyConstruct : ∀ {H y G H' x'}, ft.base ≤ ft.next H → ft.Rep H y G →
    M.copyConstruct H y = some (H', x') → ∃ F', Effect ft H ∅ H' F' ∧ ft.Rep H' x' F'
  copyAssign : ∀ {H x y F G H' x'}, ft.base ≤ ft.next H → ft.Rep H x F → ft.Rep H y G →
    (∀ p ∈ F, p ∉ G) → M.copyAssign H x y = some (H', x') →
    ∃ F', Effect ft H F H' F' ∧ ft.Rep H' x' F'
  call : ∀ {H x F op H' x' out}, ft.base ≤ ft.next H → ft.Rep H x F →
    M.call H x op = some (H', x', out) → ∃ F', Effect ft H F H' F' ∧ ft.Rep H' x' F'
  destroy : ∀ {H x F}, ft.Rep H x F →
    ∃ H', M.destroy H x = some H' ∧ Effect ft H F H' ∅
  moveAssign : ∀ H x y,
    M.moveAssign H x y = (M.destroy H x).map fun H' => (H', M.moveConstruct y)

/-- No two footprints meet. -/
def Apart (F : Nat → Set Nat) : Prop := ∀ i j, i ≠ j → ∀ p ∈ F i, p ∉ F j

theorem Apart.update {F : Nat → Set Nat} (h : Apart F) {i : Nat} {G : Set Nat}
    (hnew : ∀ k, k ≠ i → ∀ p ∈ G, p ∉ F k) : Apart (Function.update F i G) := by
  intro k m hkm p hp hm
  by_cases hk : k = i
  · subst hk
    rw [Function.update_self] at hp
    rw [Function.update_of_ne (Ne.symm hkm)] at hm
    exact hnew m (Ne.symm hkm) p hp hm
  · rw [Function.update_of_ne hk] at hp
    by_cases hmi : m = i
    · subst hmi
      rw [Function.update_self] at hm
      exact hnew k hk p hm hp
    · rw [Function.update_of_ne hmi] at hm
      exact h k m hkm p hp hm

/-- Every object has its footprint, and the footprints are apart. -/
structure Placed (ft : Footing M) (w : World M) (F : Nat → Set Nat) : Prop where
  base_le : ft.base ≤ ft.next w.heap
  rep : ∀ i x, w.objs i = some x → ft.Rep w.heap x (F i)
  empty : ∀ i, w.objs i = none → F i = ∅
  apart : Apart F

variable {ft : Footing M} {w w' : World M} {F : Nat → Set Nat}

theorem placed_initial (hf : Footed M ft) : Placed ft (World.initial M) fun _ => ∅ where
  base_le := hf.base_le
  rep i x h := by cases h
  empty _ _ := rfl
  apart _ _ _ _ _ := Set.notMem_empty _

theorem Placed.below (hf : Footed M ft) (h : Placed ft w F) {i p : Nat} (hp : p ∈ F i) :
    p < ft.next w.heap := by
  cases hi : w.objs i with
  | none =>
      rw [h.empty i hi] at hp
      exact absurd hp (Set.notMem_empty p)
  | some x => exact hf.below (h.rep i x hi) p hp

/-- What one object did leaves the cells of the others. -/
theorem Placed.kept (hf : Footed M ft) (h : Placed ft w F) {i k : Nat} (hk : k ≠ i)
    {H' : M.Heap} {G : Set Nat} (he : Effect ft w.heap (F i) H' G) :
    ∀ p ∈ F k, ft.cell H' p = ft.cell w.heap p := by
  intro p hp
  exact he.kept p (h.below hf hp) (h.apart k i hk p hp)

/-- One object is replaced, or goes. -/
theorem Placed.update (hf : Footed M ft) (h : Placed ft w F) {i : Nat} {H' : M.Heap}
    {o : Option M.Obj} {G : Set Nat} (he : Effect ft w.heap (F i) H' G)
    (hrep : ∀ x, o = some x → ft.Rep H' x G) (hnone : o = none → G = ∅) :
    Placed ft ⟨H', Function.update w.objs i o⟩ (Function.update F i G) := by
  refine ⟨h.base_le.trans he.next_le, ?_, ?_, ?_⟩
  · intro k x hx
    by_cases hk : k = i
    · subst hk
      simp only [Function.update_self] at hx ⊢
      exact hrep x hx
    · simp only [Function.update_of_ne hk] at hx ⊢
      exact (hf.frame (h.rep k x hx) he.next_le (h.kept hf hk he)).1
  · intro k hx
    by_cases hk : k = i
    · subst hk
      simp only [Function.update_self] at hx ⊢
      exact hnone hx
    · simp only [Function.update_of_ne hk] at hx ⊢
      exact h.empty k hx
  · refine h.apart.update fun k hk p hp hpk => ?_
    rcases he.owned p hp with hold | hfresh
    · exact h.apart i k (Ne.symm hk) p hold hpk
    · exact Nat.not_lt.mpr hfresh (h.below hf hpk)

theorem Placed.put (hf : Footed M ft) (h : Placed ft w F) {i : Nat} {H' : M.Heap}
    {x' : M.Obj} {G : Set Nat} (he : Effect ft w.heap (F i) H' G) (hrep : ft.Rep H' x' G) :
    ∃ F', Placed ft (w.put i (H', x')) F' :=
  ⟨_, h.update hf he (fun x hx => Option.some.inj hx ▸ hrep) fun hx => by cases hx⟩

/-- A footprint changes hands. -/
theorem Placed.handOver (hf : Footed M ft) (h : Placed ft w F) {i j : Nat} (hij : i ≠ j)
    (hi : F i = ∅) {y : M.Obj} (hj : w.objs j = some y) :
    ∃ F', Placed ft (w.putBoth i j w.heap (M.moveConstruct y)) F' := by
  have hy := h.rep j y hj
  refine ⟨Function.update (Function.update F j ∅) i (F j), h.base_le, ?_, ?_, ?_⟩
  · intro k x hx
    by_cases hk : k = i
    · subst hk
      simp only [World.putBoth, Function.update_self, Option.some.injEq] at hx ⊢
      exact hx ▸ hf.taken hy
    · by_cases hkj : k = j
      · subst hkj
        simp only [World.putBoth, Function.update_of_ne hk, Function.update_self,
          Option.some.injEq] at hx ⊢
        exact hx ▸ hf.left hy
      · simp only [World.putBoth, Function.update_of_ne hk, Function.update_of_ne hkj] at hx ⊢
        exact h.rep k x hx
  · intro k hx
    by_cases hk : k = i
    · subst hk
      simp [World.putBoth] at hx
    · by_cases hkj : k = j
      · subst hkj
        simp [World.putBoth, Function.update_of_ne hk] at hx
      · simp only [World.putBoth, Function.update_of_ne hk, Function.update_of_ne hkj] at hx ⊢
        exact h.empty k hx
  · have hleft : Apart (Function.update F j ∅) :=
      h.apart.update fun _ _ p hp => absurd hp (Set.notMem_empty p)
    refine hleft.update fun k hk p hp hpk => ?_
    by_cases hkj : k = j
    · rw [hkj, Function.update_self] at hpk
      exact Set.notMem_empty p hpk
    · rw [Function.update_of_ne hkj] at hpk
      exact h.apart j k (Ne.symm hkj) p hp hpk

/-! ## Runs -/

/-- A move that assigns drops what the target owned first. -/
theorem Placed.moveAssign (hf : Footed M ft) (h : Placed ft w F) {i j : Nat} (hij : i ≠ j)
    {x y : M.Obj} (hi : w.objs i = some x) (hj : w.objs j = some y) :
    ∃ H', M.moveAssign w.heap x y = some (H', M.moveConstruct y) ∧
      M.iterate H' y = M.iterate w.heap y ∧
      ∃ F', Placed ft (w.putBoth i j H' (M.moveConstruct y)) F' := by
  obtain ⟨H', hd, he⟩ := hf.destroy (h.rep i x hi)
  have hp := h.update hf he (o := none) (fun x hx => by cases hx) fun _ => rfl
  have hj' : Function.update w.objs i none j = some y := by
    rw [Function.update_of_ne (Ne.symm hij), hj]
  have hgone : Function.update F i ∅ i = ∅ := Function.update_self ..
  obtain ⟨F', hF'⟩ := hp.handOver hf hij hgone hj'
  refine ⟨H', by rw [hf.moveAssign, hd]; rfl, ?_, F', ?_⟩
  · exact (hf.frame (h.rep j y hj) he.next_le (h.kept hf (Ne.symm hij) he)).2
  · rwa [World.putBoth, Function.update_comm hij, Function.update_idem] at hF'

theorem step_placed (hf : Footed M ft) (h : Placed ft w F) {s : Step M}
    (hs : w.step s = some w') : ∃ F', Placed ft w' F' := by
  cases s with
  | construct i a =>
      rw [World.step] at hs
      split at hs
      · next hi =>
          obtain ⟨⟨H', x'⟩, hc, rfl⟩ := Option.map_eq_some_iff.mp hs
          obtain ⟨G, he, hr⟩ := hf.construct h.base_le hc
          rw [← h.empty i hi] at he
          exact h.put hf he hr
      · cases hs
  | copyConstruct i j =>
      rw [World.step] at hs
      split at hs
      · next y hi hj =>
          obtain ⟨⟨H', x'⟩, hc, rfl⟩ := Option.map_eq_some_iff.mp hs
          obtain ⟨G, he, hr⟩ := hf.copyConstruct h.base_le (h.rep j y hj) hc
          rw [← h.empty i hi] at he
          exact h.put hf he hr
      · cases hs
  | copyAssign i j =>
      rw [World.step] at hs
      split at hs
      · next x y hi hj =>
          split at hs
          · exact ⟨F, Option.some.inj hs ▸ h⟩
          · next hij =>
              obtain ⟨⟨H', x'⟩, hc, rfl⟩ := Option.map_eq_some_iff.mp hs
              obtain ⟨G, he, hr⟩ := hf.copyAssign h.base_le (h.rep i x hi) (h.rep j y hj)
                (h.apart i j hij) hc
              exact h.put hf he hr
      · cases hs
  | moveConstruct i j =>
      rw [World.step] at hs
      split at hs
      · next y hi hj =>
          have hij : i ≠ j := by
            intro hij
            rw [hij, hj] at hi
            cases hi
          exact Option.some.inj hs ▸ h.handOver hf hij (h.empty i hi) hj
      · cases hs
  | moveAssign i j =>
      rw [World.step] at hs
      split at hs
      · next x y hi hj =>
          split at hs
          · exact ⟨F, Option.some.inj hs ▸ h⟩
          · next hij =>
              obtain ⟨H', hm, -, hF'⟩ := h.moveAssign hf hij hi hj
              rw [hm, Option.map_some] at hs
              exact Option.some.inj hs ▸ hF'
      · cases hs
  | call i op =>
      rw [World.step] at hs
      split at hs
      · next x hi =>
          obtain ⟨⟨H', x', out⟩, hc, rfl⟩ := Option.map_eq_some_iff.mp hs
          obtain ⟨G, he, hr⟩ := hf.call h.base_le (h.rep i x hi) hc
          exact h.put hf he hr
      · cases hs
  | destroy i =>
      rw [World.step] at hs
      split at hs
      · next x hi =>
          obtain ⟨H', hd, rfl⟩ := Option.map_eq_some_iff.mp hs
          obtain ⟨H'', hd', he⟩ := hf.destroy (h.rep i x hi)
          rw [hd, Option.some.injEq] at hd'
          subst hd'
          exact ⟨_, h.update hf he (o := none) (fun x hx => by cases hx) fun _ => rfl⟩
      · cases hs

/-- What a move does, at either end of it. -/
theorem moving_step (hf : Footed M ft) (h : Placed ft w F) {s : Step M} {i j : Nat}
    {y : M.Obj} (hs : w.moving s = some (i, j, y)) :
    i ≠ j ∧ ∃ H', w.step s = some (w.putBoth i j H' (M.moveConstruct y)) ∧
      M.iterate H' y = M.iterate w.heap y := by
  cases s with
  | moveConstruct i j =>
      rw [World.moving] at hs
      split at hs
      · next z hi hj =>
          simp only [Option.some.injEq, Prod.mk.injEq] at hs
          obtain ⟨rfl, rfl, rfl⟩ := hs
          refine ⟨?_, w.heap, ?_, rfl⟩
          · intro hij
            rw [hij, hj] at hi
            cases hi
          · rw [World.step, hi, hj]
      · cases hs
  | moveAssign i j =>
      rw [World.moving] at hs
      split at hs
      · next x z hi hj =>
          split at hs
          · cases hs
          · next hij =>
              simp only [Option.some.injEq, Prod.mk.injEq] at hs
              obtain ⟨rfl, rfl, rfl⟩ := hs
              obtain ⟨H', hm, hit, -⟩ := h.moveAssign hf hij hi hj
              refine ⟨hij, H', ?_, hit⟩
              rw [World.step, hi, hj]
              simp only [if_neg hij, hm, Option.map_some]
      · cases hs
  | construct | copyConstruct | copyAssign | call | destroy => cases hs

/-- In a class whose moves hand the header over, the moves of every run are in
order exactly when they are from the objects that a move leaves usable. -/
theorem Footed.movesWellWhen (hf : Footed M ft) {cond : M.Obj → Prop}
    (htaken : ∀ H y, M.size (M.moveConstruct y).1 = M.size y ∧
      M.iterate H (M.moveConstruct y).1 = M.iterate H y)
    (hleft : ∀ H y, M.Usable H (M.moveConstruct y).2 ↔ cond y) :
    MovesWellWhen M cond := by
  intro steps
  refine along_iff (fun w => ∃ F, Placed ft w F) ?_ ?_ ⟨_, placed_initial hf⟩ steps
  · intro w s hex
    obtain ⟨F, h⟩ := hex
    refine forall_congr' fun i => forall_congr' fun j => forall_congr' fun y =>
      forall_congr' fun hs => ?_
    obtain ⟨hij, H', hstep, hit⟩ := moving_step hf h hs
    constructor
    · rintro ⟨w', hw', x', y', -, hy', -, -, hu⟩
      rw [hstep, Option.some.injEq] at hw'
      subst hw'
      simp only [World.putBoth, Function.update_of_ne (Ne.symm hij), Function.update_self,
        Option.some.injEq] at hy'
      exact (hleft H' y).mp (hy' ▸ hu)
    · intro hc
      obtain ⟨hsize, hiter⟩ := htaken H' y
      refine ⟨_, hstep, (M.moveConstruct y).1, (M.moveConstruct y).2, ?_, ?_, hsize,
        hiter.trans hit, (hleft H' y).mpr hc⟩
      · simp [World.putBoth]
      · simp [World.putBoth, Function.update_of_ne (Ne.symm hij)]
  · intro w s w' hex _ hs
    obtain ⟨F, h⟩ := hex
    exact step_placed hf h hs

/-! ## Containers that hold their elements by value -/

/-- A class without a heap of its own: an object is the value of its members,
and both moves are member by member. The copy assignment is deleted. -/
def ofValues (Obj Op Out Val Arg : Type) (fresh : Obj) (construct : Arg → Option Obj)
    (moveMembers : Obj → Obj × Obj) (call : Obj → Op → Option (Obj × Out))
    (size : Obj → Nat) (iterate : Obj → List (Option Val)) : Movable where
  Heap := Unit
  Obj := Obj
  Arg := Arg
  Op := Op
  Out := Out
  Val := Val
  init := ()
  fresh := fresh
  construct _ a := (construct a).map fun x => ((), x)
  copyConstruct _ y := some ((), y)
  copyAssign _ _ _ := none
  moveConstruct := moveMembers
  moveAssign _ _ y := some ((), moveMembers y)
  call _ x op := (call x op).map fun r => ((), r.1, r.2)
  destroy _ _ := some ()
  size := size
  iterate _ x := iterate x

section

variable {Obj Op Out Val Arg : Type} {fresh : Obj} {construct : Arg → Option Obj}
  {moveMembers : Obj → Obj × Obj} {call : Obj → Op → Option (Obj × Out)}
  {size : Obj → Nat} {iterate : Obj → List (Option Val)}

/-- No object owns a cell. -/
def valueFooting (M : Movable) : Footing M where
  Cell := Unit
  cell _ _ := ()
  next _ := 0
  base := 0
  Rep _ _ F := F = ∅

theorem footed_ofValues :
    Footed (ofValues Obj Op Out Val Arg fresh construct moveMembers call size iterate)
      (valueFooting _) := by
  have hnone : ∀ H H', Effect (valueFooting (ofValues Obj Op Out Val Arg fresh construct
      moveMembers call size iterate)) H ∅ H' ∅ := fun H H' =>
    ⟨Nat.le_refl 0, fun p hp => absurd hp (Nat.not_lt_zero p), fun p hp => absurd hp (by simp)⟩
  refine ⟨Nat.le_refl 0, ?_, ?_, id, fun _ => rfl, ?_, ?_, ?_, ?_, ?_, fun _ _ _ => rfl⟩
  · intro H x F hF p hp
    rw [show F = ∅ from hF] at hp
    exact absurd hp (Set.notMem_empty p)
  · intro H H' x F hF _ _
    exact ⟨hF, rfl⟩
  · intro H a H' x' _ _
    exact ⟨∅, hnone H H', rfl⟩
  · intro H y G H' x' _ _ _
    exact ⟨∅, hnone H H', rfl⟩
  · intro H x y F G H' x' _ _ _ _ hc
    cases hc
  · intro H x F op H' x' out _ hF _
    rw [show F = ∅ from hF]
    exact ⟨∅, hnone H H', rfl⟩
  · intro H x F hF
    rw [show F = ∅ from hF]
    exact ⟨(), rfl, hnone H ()⟩

/-- Where a move hands over the elements and keeps the size, the moves that
are in order are those from empty objects. -/
theorem ofValues_movesWellWhen
    (htaken : ∀ y, size (moveMembers y).1 = size y ∧ iterate (moveMembers y).1 = iterate y)
    (hsize : ∀ y, size (moveMembers y).2 = size y)
    (hread : ∀ y, (iterate (moveMembers y).2).reduceOption = [])
    (hempty : ∀ y, size y = 0 → iterate (moveMembers y).2 = [])
    (hcall : ∀ y op, size y = 0 → call (moveMembers y).2 op = call fresh op) :
    MovesWellWhen (ofValues Obj Op Out Val Arg fresh construct moveMembers call size iterate)
      fun y => size y = 0 := by
  refine footed_ofValues.movesWellWhen (fun _ => htaken) fun H y => ?_
  rw [← hsize y]
  refine usable_iff_size_eq_zero (hread y) (fun h0 => hempty y ?_) fun h0 op => ?_
  · exact (hsize y).symm.trans h0
  · exact congrArg (Option.map fun r => ((), r.1, r.2))
      (hcall y op ((hsize y).symm.trans h0))

end

/-! ## Containers that own a chain of nodes -/

section

variable {M : Movable} {N : Type} (records : M.Heap → List (Option N))
  (Shape : M.Heap → M.Obj → List (Nat × M.Val) → Prop)

/-- An object owns the nodes of its chain. -/
def nodeFooting : Footing M where
  Cell := Option N
  cell H p := record? (records H) p
  next H := (records H).length
  base := 0
  Rep H x F := ∃ es, Shape H x es ∧ F = cellsOf es

/-- The member functions of a class, by what they do to the chain of an
object: `Shape` is what ties an object to its nodes and their values. -/
structure OwnsNodes : Prop where
  lt : ∀ {H x es}, Shape H x es → ∀ p ∈ nodesOf es, p < (records H).length
  congr : ∀ {H H' x es}, Shape H x es →
    (∀ p ∈ nodesOf es, record? (records H') p = record? (records H) p) → Shape H' x es
  iterate_eq : ∀ {H x es}, Shape H x es → M.iterate H x = es.map fun e => some e.2
  taken : ∀ {H y es}, Shape H y es → Shape H (M.moveConstruct y).1 es
  left : ∀ H y, Shape H (M.moveConstruct y).2 []
  construct : ∀ {H a H' x'}, M.construct H a = some (H', x') →
    ∃ es', Shape H' x' es' ∧ Reworks (records H) [] (records H') es'
  copyConstruct : ∀ {H y fs H' x'}, Shape H y fs → M.copyConstruct H y = some (H', x') →
    ∃ es', Shape H' x' es' ∧ Reworks (records H) [] (records H') es'
  copyAssign : ∀ {H x y es fs H' x'}, Shape H x es → Shape H y fs →
    (∀ p ∈ nodesOf fs, p ∉ nodesOf es) → M.copyAssign H x y = some (H', x') →
    ∃ es', Shape H' x' es' ∧ Reworks (records H) es (records H') es'
  call : ∀ {H x es op H' x' out}, Shape H x es → M.call H x op = some (H', x', out) →
    ∃ es', Shape H' x' es' ∧ Reworks (records H) es (records H') es'
  destroy : ∀ {H x es}, Shape H x es →
    ∃ H', M.destroy H x = some H' ∧ Reworks (records H) es (records H') []
  moveAssign : ∀ H x y,
    M.moveAssign H x y = (M.destroy H x).map fun H' => (H', M.moveConstruct y)

variable {records Shape}

/-- An account of nodes is one of cells. -/
theorem effect_of_reworks {H H' : M.Heap} {es es' : List (Nat × M.Val)}
    (h : Reworks (records H) es (records H') es') :
    Effect (nodeFooting records Shape) H (cellsOf es) H' (cellsOf es') :=
  ⟨h.keeps.length_le, h.keeps.record_eq, h.owned⟩

theorem cellsOf_nil : cellsOf ([] : List (Nat × M.Val)) = ∅ :=
  Set.eq_empty_of_forall_notMem fun _ => List.not_mem_nil

theorem OwnsNodes.footed (h : OwnsNodes records Shape) :
    Footed M (nodeFooting records Shape) := by
  refine ⟨Nat.zero_le _, ?_, ?_, ?_, ?_, ?_, ?_, ?_, ?_, ?_, h.moveAssign⟩
  · intro H x F hex p hp
    obtain ⟨es, hs, hF⟩ := hex
    rw [hF] at hp
    exact h.lt hs p hp
  · intro H H' x F hex _ hkeep
    obtain ⟨es, hs, hF⟩ := hex
    have hs' := h.congr hs fun p hp => hkeep p (hF ▸ hp)
    exact ⟨⟨es, hs', hF⟩, by rw [h.iterate_eq hs, h.iterate_eq hs']⟩
  · intro H y F hex
    obtain ⟨es, hs, hF⟩ := hex
    exact ⟨es, h.taken hs, hF⟩
  · intro H y F _
    exact ⟨[], h.left H y, cellsOf_nil.symm⟩
  · intro H a H' x' _ hc
    obtain ⟨es, hs, hw⟩ := h.construct hc
    exact ⟨_, cellsOf_nil ▸ effect_of_reworks hw, es, hs, rfl⟩
  · intro H y G H' x' _ hex hc
    obtain ⟨fs, hy, _⟩ := hex
    obtain ⟨es, hs, hw⟩ := h.copyConstruct hy hc
    exact ⟨_, cellsOf_nil ▸ effect_of_reworks hw, es, hs, rfl⟩
  · intro H x y F G H' x' _ hex hpair hdis hc
    obtain ⟨es, hx, hF⟩ := hex
    obtain ⟨fs, hy, hG⟩ := hpair
    subst hF
    subst hG
    obtain ⟨es', hs, hw⟩ := h.copyAssign hx hy
      (fun p hp hmem => hdis p hmem hp) hc
    exact ⟨_, effect_of_reworks hw, es', hs, rfl⟩
  · intro H x F op H' x' out _ hex hc
    obtain ⟨es, hx, hF⟩ := hex
    subst hF
    obtain ⟨es', hs, hw⟩ := h.call hx hc
    exact ⟨_, effect_of_reworks hw, es', hs, rfl⟩
  · intro H x F hex
    obtain ⟨es, hx, hF⟩ := hex
    subst hF
    obtain ⟨H', hd, hw⟩ := h.destroy hx
    exact ⟨H', hd, cellsOf_nil ▸ effect_of_reworks hw⟩

end

end Movable

end Ycetl.Lib
