import Mathlib.Logic.Basic
import Mathlib.Data.List.Basic

/-!
# Runs of a partial step function

A container or a family of handles is driven by a list of calls. One call is
a function `step : σ → α → Option σ`, and `none` is the call that leaves
defined behaviour: nothing is said about a run past it. Everything that is
claimed about "every sequence of calls" is one of two shapes. Either it is an
invariant of the state, and `runFrom_inv` carries it; or it is a property of
each single call in the state it was made in, and `Along` says that every
call of the run has it.

The last section compares two properties of calls. When they agree on every
state the invariant admits, and the first one is what keeps the invariant,
they agree along whole runs, however those runs go on after the first call
that has neither.
-/

namespace Ycetl.Lib

variable {σ τ α ω : Type*}

/-- The state after a list of calls, if every call was defined. -/
def runFrom (step : σ → α → Option σ) : σ → List α → Option σ
  | s, [] => some s
  | s, a :: as => (step s a).bind fun s' => runFrom step s' as

/-- Every call of the run has `P` in the state it is made in. -/
def Along (step : σ → α → Option σ) (P : σ → α → Prop) : σ → List α → Prop
  | _, [] => True
  | s, a :: as => P s a ∧ ∀ s', step s a = some s' → Along step P s' as

/-- On a concrete run a decidable property of calls can be checked. -/
def decAlong {step : σ → α → Option σ} {P : σ → α → Prop}
    [∀ s a, Decidable (P s a)] : ∀ s as, Decidable (Along step P s as)
  | _, [] => isTrue trivial
  | s, a :: as =>
      match h : step s a with
      | none => decidable_of_iff (P s a)
          ⟨fun hP => ⟨hP, fun s' hs' => by rw [h] at hs'; cases hs'⟩, And.left⟩
      | some s' =>
          have : Decidable (Along step P s' as) := decAlong s' as
          decidable_of_iff (P s a ∧ Along step P s' as)
            ⟨fun hP => ⟨hP.1, fun t ht => by
                rw [h, Option.some.injEq] at ht; exact ht ▸ hP.2⟩,
              fun hP => ⟨hP.1, hP.2 s' h⟩⟩

instance {step : σ → α → Option σ} {P : σ → α → Prop}
    [∀ s a, Decidable (P s a)] (s : σ) (as : List α) :
    Decidable (Along step P s as) :=
  decAlong s as

section

variable {step : σ → α → Option σ} {P Q : σ → α → Prop} {Inv : σ → Prop}

@[simp] theorem runFrom_nil (s : σ) : runFrom step s [] = some s := rfl

theorem runFrom_cons {s s' : σ} {a : α} {as : List α} (h : step s a = some s') :
    runFrom step s (a :: as) = runFrom step s' as := by
  rw [runFrom, h, Option.bind_some]

theorem runFrom_cons_some {s t : σ} {a : α} {as : List α}
    (h : runFrom step s (a :: as) = some t) :
    ∃ s', step s a = some s' ∧ runFrom step s' as = some t := by
  rw [runFrom] at h
  exact Option.bind_eq_some_iff.mp h

/-- What one call preserves, a run preserves. -/
theorem runFrom_inv (hstep : ∀ s a s', Inv s → step s a = some s' → Inv s')
    {s t : σ} {as : List α} (hs : Inv s) (h : runFrom step s as = some t) :
    Inv t := by
  induction as generalizing s with
  | nil =>
      rw [runFrom_nil, Option.some.injEq] at h
      exact h ▸ hs
  | cons a as ih =>
      obtain ⟨s', ha, has⟩ := runFrom_cons_some h
      exact ih (hstep s a s' hs ha) has

/-- The property of the call made after the first part of a run. -/
theorem along_at {s t : σ} {as bs : List α} {a : α}
    (h : Along step P s (as ++ a :: bs)) (hrun : runFrom step s as = some t) :
    P t a := by
  induction as generalizing s with
  | nil =>
      rw [runFrom_nil, Option.some.injEq] at hrun
      exact hrun ▸ h.1
  | cons b as ih =>
      obtain ⟨s', hb, has⟩ := runFrom_cons_some hrun
      exact ih (h.2 s' hb) has

theorem along_and (s : σ) (as : List α) :
    Along step (fun s a => P s a ∧ Q s a) s as ↔ Along step P s as ∧ Along step Q s as := by
  induction as generalizing s with
  | nil => exact (and_self_iff).symm
  | cons a as ih =>
      constructor
      · intro hex
        obtain ⟨⟨hP, hQ⟩, hrest⟩ := hex
        exact ⟨⟨hP, fun s' ha => ((ih s').mp (hrest s' ha)).1⟩,
          hQ, fun s' ha => ((ih s').mp (hrest s' ha)).2⟩
      · intro hex
        obtain ⟨⟨hP, hrestP⟩, hQ, hrestQ⟩ := hex
        exact ⟨⟨hP, hQ⟩, fun s' ha => (ih s').mpr ⟨hrestP s' ha, hrestQ s' ha⟩⟩

theorem along_of_forall {Q : α → Prop} {as : List α} (h : ∀ a ∈ as, Q a) (s : σ) :
    Along step (fun _ a => Q a) s as := by
  induction as generalizing s with
  | nil => trivial
  | cons a as ih =>
      have hrest : ∀ b ∈ as, Q b := fun b hb => h b (List.mem_cons_of_mem a hb)
      exact ⟨h a List.mem_cons_self, fun s' _ => ih hrest s'⟩

/-- A property of calls that comes down, wherever the invariant holds and the
call is one that may be made, to a condition on the call alone: a run has the
property throughout exactly if each of its calls meets the condition. -/
theorem along_iff_forall (Inv : σ → Prop) {L : σ → α → Prop} {Q : α → Prop}
    (hiff : ∀ s a, Inv s → L s a → (P s a ↔ Q a))
    (hstep : ∀ s a, Inv s → L s a → Q a → ∃ s', step s a = some s' ∧ Inv s')
    {s : σ} (hs : Inv s) {as : List α} (hL : Along step L s as) :
    Along step P s as ↔ ∀ a ∈ as, Q a := by
  induction as generalizing s with
  | nil => simp [Along]
  | cons a as ih =>
      obtain ⟨hLa, hLrest⟩ := hL
      rw [List.forall_mem_cons]
      constructor
      · intro hex
        obtain ⟨hP, hrest⟩ := hex
        have hQ := (hiff s a hs hLa).mp hP
        obtain ⟨s', ha, hs'⟩ := hstep s a hs hLa hQ
        exact ⟨hQ, (ih hs' (hLrest s' ha)).mp (hrest s' ha)⟩
      · intro hex
        obtain ⟨hQ, hrest⟩ := hex
        refine ⟨(hiff s a hs hLa).mpr hQ, fun s' ha => ?_⟩
        obtain ⟨u, hu, hInv⟩ := hstep s a hs hLa hQ
        rw [hu, Option.some.injEq] at ha
        subst ha
        exact (ih hInv (hLrest u hu)).mpr hrest

/-- Two machines that take the calls of a run side by side: both runs are
defined, and their states stay related. -/
theorem runFrom_related {step' : τ → α → Option τ} {R : σ → τ → Prop}
    (hstep : ∀ s t a, R s t → P s a →
      ∃ s' t', step s a = some s' ∧ step' t a = some t' ∧ R s' t')
    {s : σ} {t : τ} (h : R s t) {as : List α} (hP : Along step P s as) :
    ∃ s' t', runFrom step s as = some s' ∧ runFrom step' t as = some t' ∧ R s' t' := by
  induction as generalizing s t with
  | nil => exact ⟨s, t, rfl, rfl, h⟩
  | cons a as ih =>
      obtain ⟨hPa, hrest⟩ := hP
      obtain ⟨s₁, t₁, hs, ht, h₁⟩ := hstep s t a h hPa
      obtain ⟨s', t', hs', ht', h'⟩ := ih h₁ (hrest s₁ hs)
      exact ⟨s', t', by rw [runFrom_cons hs, hs'], by rw [runFrom_cons ht, ht'], h'⟩

/-- Calls that are defined wherever they may be made, beside what they do to an
abstract state: a run of them is defined, and does to it what they do in turn. -/
theorem runFrom_foldl {f : τ → α → τ} {R : σ → τ → Prop}
    (hstep : ∀ s t a, R s t → P s a → ∃ s', step s a = some s' ∧ R s' (f t a))
    {s : σ} {t : τ} (h : R s t) {as : List α} (hP : Along step P s as) :
    ∃ s', runFrom step s as = some s' ∧ R s' (as.foldl f t) := by
  induction as generalizing s t with
  | nil => exact ⟨s, rfl, h⟩
  | cons a as ih =>
      obtain ⟨hPa, hrest⟩ := hP
      obtain ⟨s₁, hs, h₁⟩ := hstep s t a h hPa
      obtain ⟨s', hs', h'⟩ := ih h₁ (hrest s₁ hs)
      exact ⟨s', (runFrom_cons hs).trans hs', h'⟩

theorem runFrom_defined (hstep : ∀ s a, Inv s → P s a → ∃ s', step s a = some s' ∧ Inv s')
    {s : σ} (hs : Inv s) {as : List α} (hP : Along step P s as) :
    ∃ t, runFrom step s as = some t ∧ Inv t :=
  runFrom_foldl (f := fun _ _ => ()) (R := fun s _ => Inv s) (t := ())
    (fun s _ a hs hP => hstep s a hs hP) hs hP

/-- Calls that are renamed before they are made. -/
theorem runFrom_map (f : ω → α) (s : σ) (as : List ω) :
    runFrom step s (as.map f) = runFrom (fun s a => step s (f a)) s as := by
  induction as generalizing s with
  | nil => rfl
  | cons a as ih =>
      rw [List.map_cons, runFrom, runFrom]
      congr 1
      funext s'
      exact ih s'

theorem along_map (f : ω → α) (s : σ) (as : List ω) :
    Along step P s (as.map f) ↔
      Along (fun s a => step s (f a)) (fun s a => P s (f a)) s as := by
  induction as generalizing s with
  | nil => exact Iff.rfl
  | cons a as ih =>
      exact and_congr_right fun _ => forall₂_congr fun s' _ => ih s'

/-- Two properties of calls that agree wherever the invariant holds agree
along every run, as long as a call with `P` keeps the invariant. -/
theorem along_iff (Inv : σ → Prop) (hiff : ∀ s a, Inv s → (P s a ↔ Q s a))
    (hstep : ∀ s a s', Inv s → P s a → step s a = some s' → Inv s')
    {s : σ} (hs : Inv s) (as : List α) :
    Along step P s as ↔ Along step Q s as := by
  induction as generalizing s with
  | nil => exact Iff.rfl
  | cons a as ih =>
      constructor
      · intro hex
        obtain ⟨hP, hrest⟩ := hex
        exact ⟨(hiff s a hs).mp hP, fun s' ha =>
          (ih (hstep s a s' hs hP ha)).mp (hrest s' ha)⟩
      · intro hex
        obtain ⟨hQ, hrest⟩ := hex
        have hP := (hiff s a hs).mpr hQ
        exact ⟨hP, fun s' ha =>
          (ih (hstep s a s' hs hP ha)).mpr (hrest s' ha)⟩

end

end Ycetl.Lib
