import Mathlib.Logic.Function.Basic
import Mathlib.Data.List.Nodup
import Mathlib.Logic.Relation

/-!
# Object lifetimes

Storage is a row of cells, and an object begins its life in a cell when it is
constructed there and ends it when it is destroyed. A cell without an object
is raw. An object that has been moved from is still alive, and only its value
is gone. Every object gets an identity when it is constructed, so that what
became of it can be told apart from what became of the cell.

The primitives are total: a primitive that is applied to a cell in the wrong
state does what the machine would do, and reports the fault. `Ledger` is the
account the store keeps as long as nothing is constructed over a live object:
every object ever constructed is alive in exactly one cell, or was destroyed
exactly once.

Cells are handed out once, from an offset that only grows.
-/

namespace Ycetl.Lib

/-- An object: its identity, and its value unless it has been moved from. -/
structure Obj (T : Type) where
  id : Nat
  value : Option T
deriving Repr, DecidableEq

/-- What an object is constructed or assigned from. -/
inductive Src (T : Type) where
  | value (v : T)
  | copy (p : Nat)
  | move (p : Nat)
deriving Repr, DecidableEq

inductive Fault where
  | constructLive
  | constructSelf
  | destroyRaw
  | readRaw
  | assignRaw
deriving Repr, DecidableEq

structure Store (T : Type) where
  cells : Nat → Option (Obj T)
  offset : Nat
  born : Nat
  destroyed : List Nat
  faults : List Fault

/-- The cell a source reads. -/
def Src.cell {T : Type} : Src T → Option Nat
  | .value _ => none
  | .copy p | .move p => some p

/-- The cell whose value a source takes away. -/
def Src.moved {T : Type} : Src T → Option Nat
  | .value _ | .copy _ => none
  | .move p => some p

theorem Src.cell_copy_ne {T : Type} {p q : Nat} (h : p ≠ q) :
    (Src.copy p : Src T).cell ≠ some q := fun hc => h (Option.some.inj hc)

theorem Src.cell_move_ne {T : Type} {p q : Nat} (h : p ≠ q) :
    (Src.move p : Src T).cell ≠ some q := fun hc => h (Option.some.inj hc)

theorem Src.moved_move_ne {T : Type} {p q : Nat} (h : p ≠ q) :
    (Src.move p : Src T).moved ≠ some q := fun hc => h (Option.some.inj hc)

namespace Store

variable {T : Type}

def fresh (offset : Nat) : Store T := ⟨fun _ => none, offset, 0, [], []⟩

/-- What can be seen of a cell: raw, moved from, or a value. -/
def view (s : Store T) (p : Nat) : Option (Option T) := (s.cells p).map Obj.value

def Live (s : Store T) (p : Nat) : Prop := (s.view p).isSome

instance (s : Store T) (p : Nat) : Decidable (s.Live p) := by
  unfold Live
  infer_instance

def report (s : Store T) (f : Fault) : Store T := { s with faults := f :: s.faults }

def put (s : Store T) (p : Nat) (c : Option (Obj T)) : Store T :=
  { s with cells := Function.update s.cells p c }

/-- Hand out the next `n` cells. -/
def bump (s : Store T) (n : Nat) : Store T := { s with offset := s.offset + n }

def fetch (s : Store T) : Src T → Option T
  | .value v => some v
  | .copy p | .move p => (s.view p).join

/-- What a read does to the cell it reads. -/
def drain (s : Store T) : Src T → Store T
  | .value _ => s
  | .copy p =>
      match s.cells p with
      | some _ => s
      | none => s.report .readRaw
  | .move p =>
      match s.cells p with
      | some o => s.put p (some { o with value := none })
      | none => s.report .readRaw

/-- A new object in cell `p`, whatever was there before. Its life begins before
the source is read: an object that is constructed from itself finds no value. -/
def constructAt (s : Store T) (p : Nat) (src : Src T) : Store T :=
  let s₁ := s.drain src
  let value := if src.cell = some p then none else s.fetch src
  { s₁ with
    cells := Function.update s₁.cells p (some ⟨s₁.born, value⟩)
    born := s₁.born + 1
    faults := (if src.cell = some p then [.constructSelf] else []) ++
      (if (s₁.cells p).isSome then [.constructLive] else []) ++ s₁.faults }

/-- An object that is moved to itself is left without a value, too. -/
def assign (s : Store T) (p : Nat) (src : Src T) : Store T :=
  let s₁ := s.drain src
  let value := if src.moved = some p then none else s.fetch src
  match s₁.cells p with
  | some o => s₁.put p (some { o with value := value })
  | none => s₁.report .assignRaw

def destroyAt (s : Store T) (p : Nat) : Store T :=
  match s.cells p with
  | some o => { s.put p none with destroyed := o.id :: s.destroyed }
  | none => s.report .destroyRaw

/-! ## What the primitives do to the cells -/

theorem live_iff {s : Store T} {p : Nat} : s.Live p ↔ ∃ o, s.cells p = some o := by
  rw [Live, view, Option.isSome_map, Option.isSome_iff_exists]

theorem not_live_iff {s : Store T} {p : Nat} : ¬ s.Live p ↔ s.cells p = none := by
  rw [Live, view, Option.isSome_map, Option.not_isSome_iff_eq_none]

theorem live_congr {s s' : Store T} {p : Nat} (h : s'.view p = s.view p) :
    s'.Live p ↔ s.Live p := by
  rw [Live, Live, h]

@[simp] theorem view_report (s : Store T) (f : Fault) (q : Nat) :
    (s.report f).view q = s.view q := rfl

theorem view_put (s : Store T) (p : Nat) (c : Option (Obj T)) (q : Nat) :
    (s.put p c).view q = if q = p then c.map Obj.value else s.view q := by
  simp only [view, put, Function.update_apply]
  split <;> rfl

/-- What a read leaves behind. -/
theorem view_drain (s : Store T) (src : Src T) (q : Nat) :
    (s.drain src).view q =
      if src.moved = some q then (s.view q).map fun _ => none else s.view q := by
  cases src with
  | value v => rfl
  | copy p =>
      rw [drain]
      split <;> rfl
  | move p =>
      simp only [drain, Src.moved, Option.some.injEq]
      split
      · next o ho =>
          rw [view_put]
          by_cases hq : q = p
          · rw [if_pos hq, if_pos hq.symm, hq, view, ho]
            rfl
          · rw [if_neg hq, if_neg fun h => hq h.symm]
      · next ho =>
          rw [view_report]
          split
          · next hp => rw [view, ← hp, ho]; rfl
          · rfl

theorem view_constructAt (s : Store T) (p : Nat) (src : Src T) (q : Nat) :
    (s.constructAt p src).view q =
      if q = p then some (if src.cell = some p then none else s.fetch src)
      else (s.drain src).view q := by
  simp only [constructAt, view, Function.update_apply]
  split <;> rfl

/-- An object that is not constructed from itself gets the value of its source. -/
theorem view_constructAt_of_ne (s : Store T) {p : Nat} {src : Src T}
    (hsrc : src.cell ≠ some p) (q : Nat) :
    (s.constructAt p src).view q =
      if q = p then some (s.fetch src) else (s.drain src).view q := by
  rw [view_constructAt, if_neg hsrc]

theorem view_assign (s : Store T) {p : Nat} {src : Src T} (hsrc : src.moved ≠ some p)
    (q : Nat) : (s.assign p src).view q =
      if q = p ∧ s.Live p then some (s.fetch src) else (s.drain src).view q := by
  have hdrain : (s.drain src).Live p ↔ s.Live p := by
    rw [Live, Live, view_drain]
    split
    · rw [Option.isSome_map]
    · rfl
  rw [assign, if_neg hsrc]
  split
  · next o ho =>
      have hl : s.Live p := hdrain.mp (live_iff.mpr ⟨o, ho⟩)
      rw [view_put]
      simp only [hl, and_true, Option.map_some]
  · next ho =>
      rw [view_report, if_neg fun h => not_live_iff.mpr ho (hdrain.mpr h.2)]

theorem view_destroyAt (s : Store T) (p q : Nat) :
    (s.destroyAt p).view q = if q = p then none else s.view q := by
  rw [destroyAt]
  split
  · next o _ => exact view_put s p none q
  · next ho =>
      rw [view_report]
      split
      · next hq => rw [view, hq, ho]; rfl
      · rfl

@[simp] theorem offset_drain (s : Store T) (src : Src T) :
    (s.drain src).offset = s.offset := by
  cases src with
  | value v => rfl
  | copy p | move p => rw [drain]; split <;> rfl

@[simp] theorem offset_constructAt (s : Store T) (p : Nat) (src : Src T) :
    (s.constructAt p src).offset = s.offset :=
  offset_drain s src

@[simp] theorem offset_assign (s : Store T) (p : Nat) (src : Src T) :
    (s.assign p src).offset = s.offset := by
  rw [← offset_drain s src, assign]
  split <;> rfl

@[simp] theorem offset_destroyAt (s : Store T) (p : Nat) :
    (s.destroyAt p).offset = s.offset := by
  rw [destroyAt]
  split <;> rfl

/-- A view is all that liveness depends on, and no read ends a life. -/
theorem live_drain {s : Store T} {src : Src T} {q : Nat} :
    (s.drain src).Live q ↔ s.Live q := by
  rw [Live, Live, view_drain]
  split
  · rw [Option.isSome_map]
  · rfl

theorem live_constructAt {s : Store T} {p : Nat} {src : Src T} {q : Nat} :
    (s.constructAt p src).Live q ↔ q = p ∨ s.Live q := by
  rw [Live, view_constructAt]
  split
  · next h => simp [h]
  · next h => rw [or_iff_right h]; exact live_drain

/-! ## Where the primitives write -/

/-- A primitive that writes no cell outside `P`. -/
inductive WritesIn (P : Nat → Prop) (s : Store T) : Store T → Prop where
  | bump (n : Nat) : WritesIn P s (s.bump n)
  | construct (p : Nat) (src : Src T) (hp : P p) (hsrc : ∀ q, src.moved = some q → P q) :
      WritesIn P s (s.constructAt p src)
  | assign (p : Nat) (src : Src T) (hp : P p) (hsrc : ∀ q, src.moved = some q → P q) :
      WritesIn P s (s.assign p src)
  | destroy (p : Nat) (hp : P p) : WritesIn P s (s.destroyAt p)

/-- One primitive after another, none of which writes outside `P`. -/
def WorksIn (P : Nat → Prop) : Store T → Store T → Prop := Relation.ReflTransGen (WritesIn P)

section

variable {P Q : Nat → Prop} {s s₁ s' : Store T}

theorem WritesIn.mono (h : WritesIn P s s') (hPQ : ∀ q, P q → Q q) : WritesIn Q s s' := by
  cases h with
  | bump n => exact .bump n
  | construct p src hp hsrc => exact .construct p src (hPQ p hp) fun q hq => hPQ q (hsrc q hq)
  | assign p src hp hsrc => exact .assign p src (hPQ p hp) fun q hq => hPQ q (hsrc q hq)
  | destroy p hp => exact .destroy p (hPQ p hp)

theorem WorksIn.mono (h : WorksIn P s s') (hPQ : ∀ q, P q → Q q) : WorksIn Q s s' :=
  Relation.ReflTransGen.mono (fun _ _ hw => hw.mono hPQ) _ _ h

theorem WorksIn.refl : WorksIn P s s := Relation.ReflTransGen.refl

theorem WorksIn.trans (h : WorksIn P s s₁) (h' : WorksIn P s₁ s') : WorksIn P s s' :=
  Relation.ReflTransGen.trans h h'

theorem WorksIn.tail (h : WorksIn P s s₁) (h' : WritesIn P s₁ s') : WorksIn P s s' :=
  Relation.ReflTransGen.tail h h'

theorem WritesIn.worksIn (h : WritesIn P s s') : WorksIn P s s' :=
  Relation.ReflTransGen.single h

end

/-! ## The account of the objects -/

def idAt (s : Store T) (p : Nat) : Option Nat := (s.cells p).map Obj.id

/-- The account, over the identities in the cells, the number of objects ever
constructed and the identities of those destroyed: each object is in one cell
or was destroyed once, and not both. -/
structure Ledger (ids : Nat → Option Nat) (born : Nat) (gone : List Nat) : Prop where
  lt : ∀ p i, ids p = some i → i < born
  inj : ∀ p q i, ids p = some i → ids q = some i → p = q
  gone_lt : ∀ i ∈ gone, i < born
  gone_once : gone.Nodup
  not_gone : ∀ p i, ids p = some i → i ∉ gone
  accounted : ∀ i < born, i ∈ gone ∨ ∃ p, ids p = some i

/-- Nothing has gone wrong so far. -/
structure Clean (s : Store T) : Prop where
  faults : s.faults = []
  ledger : Ledger s.idAt s.born s.destroyed

theorem Ledger.construct {ids : Nat → Option Nat} {born : Nat} {gone : List Nat}
    (h : Ledger ids born gone) {p : Nat} (hp : ids p = none) :
    Ledger (Function.update ids p (some born)) (born + 1) gone := by
  have hcase : ∀ q i, Function.update ids p (some born) q = some i →
      (q = p ∧ i = born) ∨ (q ≠ p ∧ ids q = some i) := by
    intro q i hq
    rw [Function.update_apply] at hq
    split at hq
    · next hqp => exact Or.inl ⟨hqp, (Option.some.inj hq).symm⟩
    · next hqp => exact Or.inr ⟨hqp, hq⟩
  constructor
  · intro q i hq
    rcases hcase q i hq with ⟨-, rfl⟩ | ⟨-, hq⟩
    · exact Nat.lt_succ_self i
    · exact Nat.lt_succ_of_lt (h.lt q i hq)
  · intro q r i hq hr
    rcases hcase q i hq with ⟨hqp, hi⟩ | ⟨-, hq'⟩ <;>
      rcases hcase r i hr with ⟨hrp, hi'⟩ | ⟨-, hr'⟩
    · rw [hqp, hrp]
    · exact absurd (h.lt r i hr') (by omega)
    · exact absurd (h.lt q i hq') (by omega)
    · exact h.inj q r i hq' hr'
  · exact fun i hi => Nat.lt_succ_of_lt (h.gone_lt i hi)
  · exact h.gone_once
  · intro q i hq hi
    rcases hcase q i hq with ⟨-, rfl⟩ | ⟨-, hq⟩
    · exact Nat.lt_irrefl i (h.gone_lt i hi)
    · exact h.not_gone q i hq hi
  · intro i hi
    by_cases hib : i = born
    · exact Or.inr ⟨p, by rw [Function.update_self, hib]⟩
    · rcases h.accounted i (by omega) with hgone | ⟨q, hq⟩
      · exact Or.inl hgone
      · refine Or.inr ⟨q, ?_⟩
        rw [Function.update_of_ne, hq]
        rintro rfl
        rw [hp] at hq
        cases hq

theorem Ledger.destroy {ids : Nat → Option Nat} {born : Nat} {gone : List Nat}
    (h : Ledger ids born gone) {p i : Nat} (hp : ids p = some i) :
    Ledger (Function.update ids p none) born (i :: gone) := by
  have hcase : ∀ q j, Function.update ids p none q = some j →
      q ≠ p ∧ ids q = some j := by
    intro q j hq
    rw [Function.update_apply] at hq
    split at hq
    · cases hq
    · next hqp => exact ⟨hqp, hq⟩
  constructor
  · exact fun q j hq => h.lt q j (hcase q j hq).2
  · exact fun q r j hq hr => h.inj q r j (hcase q j hq).2 (hcase r j hr).2
  · intro j hj
    rcases List.mem_cons.mp hj with rfl | hj
    · exact h.lt p j hp
    · exact h.gone_lt j hj
  · exact List.nodup_cons.mpr ⟨h.not_gone p i hp, h.gone_once⟩
  · intro q j hq hj
    obtain ⟨hqp, hq⟩ := hcase q j hq
    rcases List.mem_cons.mp hj with rfl | hj
    · exact hqp (h.inj q p j hq hp)
    · exact h.not_gone q j hq hj
  · intro j hj
    rcases h.accounted j hj with hgone | ⟨q, hq⟩
    · exact Or.inl (List.mem_cons_of_mem i hgone)
    · by_cases hqp : q = p
      · rw [hqp, hp, Option.some.injEq] at hq
        exact Or.inl (List.mem_cons.mpr (Or.inl hq.symm))
      · exact Or.inr ⟨q, by rw [Function.update_of_ne hqp, hq]⟩

theorem clean_fresh (offset : Nat) : (fresh offset : Store T).Clean :=
  ⟨rfl, ⟨by simp [idAt, fresh], by simp [idAt, fresh], by simp [fresh], by simp [fresh],
    by simp [idAt, fresh], by simp [fresh]⟩⟩

theorem Clean.bump {s : Store T} (h : s.Clean) (n : Nat) : (s.bump n).Clean :=
  ⟨h.faults, h.ledger⟩

/-- Reading a live cell is no fault, and moves no object. -/
theorem drain_of_live {s : Store T} {src : Src T}
    (hsrc : ∀ q, src.cell = some q → s.Live q) :
    (s.drain src).faults = s.faults ∧ (s.drain src).idAt = s.idAt ∧
      (s.drain src).born = s.born ∧ (s.drain src).destroyed = s.destroyed := by
  cases src with
  | value v => exact ⟨rfl, rfl, rfl, rfl⟩
  | copy p =>
      obtain ⟨o, ho⟩ := live_iff.mp (hsrc p rfl)
      rw [drain, ho]
      exact ⟨rfl, rfl, rfl, rfl⟩
  | move p =>
      obtain ⟨o, ho⟩ := live_iff.mp (hsrc p rfl)
      rw [drain, ho]
      refine ⟨rfl, ?_, rfl, rfl⟩
      funext q
      simp only [idAt, put, Function.update_apply]
      split
      · next hq => rw [hq, ho]; rfl
      · rfl

theorem Clean.drain {s : Store T} (h : s.Clean) {src : Src T}
    (hsrc : ∀ q, src.cell = some q → s.Live q) : (s.drain src).Clean := by
  obtain ⟨hf, hid, hborn, hgone⟩ := drain_of_live hsrc
  exact ⟨hf.trans h.faults, by rw [hid, hborn, hgone]; exact h.ledger⟩

/-- Constructing in a raw cell from live cells is clean. -/
theorem Clean.constructAt {s : Store T} (h : s.Clean) {p : Nat} {src : Src T}
    (hp : ¬ s.Live p) (hsrc : ∀ q, src.cell = some q → s.Live q) :
    (s.constructAt p src).Clean := by
  have hd := h.drain hsrc
  have hraw : (s.drain src).cells p = none :=
    not_live_iff.mp fun hl => hp (live_drain.mp hl)
  have hself : src.cell ≠ some p := fun hc => hp (hsrc p hc)
  refine ⟨?_, ?_⟩
  · simp only [Store.constructAt]
    rw [if_neg hself, hraw, hd.faults]
    rfl
  · have hid : (s.constructAt p src).idAt =
        Function.update (s.drain src).idAt p (some (s.drain src).born) := by
      funext q
      simp only [idAt, Store.constructAt, Function.update_apply]
      split <;> rfl
    rw [hid]
    exact hd.ledger.construct (by rw [idAt, hraw]; rfl)

/-- Constructing over a live object is a fault, whatever happens later. -/
theorem constructAt_faults_of_live {s : Store T} {p : Nat} {src : Src T}
    (hp : s.Live p) : (s.constructAt p src).faults ≠ [] := by
  have hdrained : (s.drain src).Live p := live_drain.mpr hp
  obtain ⟨o, ho⟩ := live_iff.mp hdrained
  simp only [constructAt, ho]
  simp

theorem drain_faults_ne {s : Store T} (h : s.faults ≠ []) (src : Src T) :
    (s.drain src).faults ≠ [] := by
  cases src with
  | value v => exact h
  | copy p | move p =>
      rw [drain]
      split
      · exact h
      · exact List.cons_ne_nil _ _

theorem constructAt_faults_ne {s : Store T} (h : s.faults ≠ []) (p : Nat)
    (src : Src T) : (s.constructAt p src).faults ≠ [] := by
  simp only [constructAt]
  exact List.append_ne_nil_of_right_ne_nil _ (drain_faults_ne h src)

theorem Clean.destroyAt {s : Store T} (h : s.Clean) {p : Nat} (hp : s.Live p) :
    (s.destroyAt p).Clean := by
  obtain ⟨o, ho⟩ := live_iff.mp hp
  rw [Store.destroyAt, ho]
  refine ⟨h.faults, ?_⟩
  have hid : ({ s.put p none with destroyed := o.id :: s.destroyed } : Store T).idAt =
      Function.update s.idAt p none := by
    funext q
    simp only [idAt, put, Function.update_apply]
    split <;> rfl
  rw [hid]
  exact h.ledger.destroy (by rw [idAt, ho]; rfl)

end Store

end Ycetl.Lib
