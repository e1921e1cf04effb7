import Ycetl.Lib.Runs

/-!
# Answers of a run, and refinement call by call

A call on a component answers something and leaves a new state; a call that
leaves defined behaviour does neither. `answersFrom` collects the answers of a
run. A relation between the states of two components under which equal calls
agree, both defined with the same answer or neither defined, makes whole runs
agree: this is how an implementation refines the data type it implements.
-/

namespace Ycetl.Lib

variable {σ τ υ α ω : Type*}

/-- The state after a run, and what its calls answered. -/
def answersFrom (step : σ → α → Option (σ × ω)) : σ → List α → Option (σ × List ω)
  | s, [] => some (s, [])
  | s, a :: as =>
      (step s a).bind fun r => (answersFrom step r.1 as).map fun t => (t.1, r.2 :: t.2)

/-- What every defined call keeps, a run keeps. -/
theorem answersFrom_inv {step : σ → α → Option (σ × ω)} {I : σ → Prop}
    (hstep : ∀ s a r, I s → step s a = some r → I r.1) {s : σ} (h : I s) {as : List α}
    {r : σ × List ω} (hr : answersFrom step s as = some r) : I r.1 := by
  induction as generalizing s r with
  | nil => exact Option.some.inj hr ▸ h
  | cons a as ih =>
      rw [answersFrom] at hr
      obtain ⟨r₁, hr₁, hrest⟩ := Option.bind_eq_some_iff.mp hr
      obtain ⟨t, ht, htr⟩ := Option.map_eq_some_iff.mp hrest
      rw [← htr]
      exact ih (r := t) (hstep s a r₁ h hr₁) ht

/-- Both calls are defined, answer the same and leave related states, or
neither is defined. -/
def Agree (R : σ → τ → Prop) (x : Option (σ × ω)) (y : Option (τ × ω)) : Prop :=
  match x, y with
  | some (s, o), some (t, p) => R s t ∧ o = p
  | none, none => True
  | _, _ => False

section

variable {R : σ → τ → Prop}

@[simp] theorem agree_some {s : σ} {t : τ} {o p : ω} :
    Agree R (some (s, o)) (some (t, p)) ↔ R s t ∧ o = p := Iff.rfl

@[simp] theorem agree_none : Agree R (none : Option (σ × ω)) none := trivial

theorem Agree.of_some_left {s : σ} {o : ω} {y : Option (τ × ω)} (h : Agree R (some (s, o)) y) :
    ∃ t, y = some (t, o) ∧ R s t := by
  cases y with
  | none => exact h.elim
  | some r =>
      obtain ⟨t, p⟩ := r
      rw [agree_some] at h
      exact ⟨t, by rw [h.2], h.1⟩

theorem Agree.of_some_right {x : Option (σ × ω)} {t : τ} {p : ω}
    (h : Agree R x (some (t, p))) : ∃ s, x = some (s, p) ∧ R s t := by
  cases x with
  | none => exact h.elim
  | some r =>
      obtain ⟨s, o⟩ := r
      rw [agree_some] at h
      exact ⟨s, by rw [h.2], h.1⟩

theorem Agree.mono {S : σ → τ → Prop} {x : Option (σ × ω)} {y : Option (τ × ω)}
    (h : Agree R x y) (hRS : ∀ s t, R s t → S s t) : Agree S x y := by
  cases x with
  | none =>
      cases y with
      | none => exact agree_none
      | some r => exact h.elim
  | some r =>
      obtain ⟨t, rfl, ht⟩ := h.of_some_left
      exact ⟨hRS r.1 t ht, rfl⟩

variable {step : σ → α → Option (σ × ω)} {step' : τ → α → Option (τ × ω)}

/-- What one call does on both sides, a run does. -/
theorem answersFrom_agree (hstep : ∀ s t a, R s t → Agree R (step s a) (step' t a)) {s : σ}
    {t : τ} (h : R s t) (as : List α) :
    Agree R (answersFrom step s as) (answersFrom step' t as) := by
  induction as generalizing s t with
  | nil => exact ⟨h, rfl⟩
  | cons a as ih =>
      have ha := hstep s t a h
      rw [answersFrom, answersFrom]
      cases hs : step s a with
      | none =>
          rw [hs] at ha
          cases ht : step' t a with
          | none => exact agree_none
          | some r =>
              rw [ht] at ha
              exact ha.elim
      | some r =>
          rw [hs] at ha
          obtain ⟨u, hu, hru⟩ := ha.of_some_left
          have has := ih hru
          rw [hu, Option.bind_some, Option.bind_some]
          cases hr : answersFrom step r.1 as with
          | none =>
              rw [hr] at has
              cases hu' : answersFrom step' u as with
              | none => exact agree_none
              | some v =>
                  rw [hu'] at has
                  exact has.elim
          | some v =>
              rw [hr] at has
              obtain ⟨w, hw, hvw⟩ := has.of_some_left
              rw [hw]
              exact ⟨hvw, rfl⟩

/-! ### Runs that agree as far as every call allows it -/

/-- Two runs agree from start to end: after every number of calls. -/
def AgreeThroughout (R : σ → τ → Prop) (step : σ → α → Option (σ × ω))
    (step' : τ → α → Option (τ × ω)) (s : σ) (t : τ) (as : List α) : Prop :=
  ∀ k, Agree R (answersFrom step s (as.take k)) (answersFrom step' t (as.take k))

/-- The state after a call, without its answer. -/
def stateAfter (step : σ → α → Option (σ × ω)) (s : σ) (a : α) : Option σ :=
  (step s a).map Prod.fst

theorem agree_singleton {s : σ} {t : τ} {a : α} :
    Agree R (answersFrom step s [a]) (answersFrom step' t [a]) ↔
      Agree R (step s a) (step' t a) := by
  simp only [answersFrom]
  cases step s a with
  | none => cases step' t a <;> exact Iff.rfl
  | some r =>
      cases step' t a with
      | none => exact Iff.rfl
      | some u => exact and_congr_right fun _ => by simp

/-- After a call on which both sides agree, the rest of the run decides. -/
theorem agree_cons {s s' : σ} {t t' : τ} {a : α} {o : ω} {as : List α}
    (hs : step s a = some (s', o)) (ht : step' t a = some (t', o)) :
    Agree R (answersFrom step s (a :: as)) (answersFrom step' t (a :: as)) ↔
      Agree R (answersFrom step s' as) (answersFrom step' t' as) := by
  rw [answersFrom, answersFrom, hs, ht, Option.bind_some, Option.bind_some]
  cases answersFrom step s' as with
  | none => cases answersFrom step' t' as <;> exact Iff.rfl
  | some r =>
      cases answersFrom step' t' as with
      | none => exact Iff.rfl
      | some u => exact and_congr_right fun _ => by simp

/-- Where the calls with `P` keep an invariant of both sides, and the others
break the agreement, whole runs agree throughout exactly if every call of them
has `P`. -/
theorem agreeThroughout_iff {I : σ → τ → Prop} {P : σ → α → Prop}
    (hIR : ∀ s t, I s t → R s t)
    (hgood : ∀ s t a, I s t → P s a → Agree I (step s a) (step' t a))
    (hbad : ∀ s t a, I s t → ¬ P s a → ¬ Agree R (step s a) (step' t a))
    {s : σ} {t : τ} (h : I s t) (as : List α) :
    AgreeThroughout R step step' s t as ↔ Along (stateAfter step) P s as := by
  induction as generalizing s t with
  | nil => exact iff_of_true (fun k => by rw [List.take_nil]; exact ⟨hIR s t h, rfl⟩) trivial
  | cons a as ih =>
      constructor
      · intro hall
        have hP : P s a := by
          by_contra hP
          exact hbad s t a h hP (agree_singleton.mp (hall 1))
        refine ⟨hP, fun s' hs' => ?_⟩
        obtain ⟨r, hr, rfl⟩ := Option.map_eq_some_iff.mp hs'
        have ha := hgood s t a h hP
        rw [hr] at ha
        obtain ⟨u, hu, hru⟩ := ha.of_some_left
        exact (ih hru).mp fun k => (agree_cons hr hu).mp (hall (k + 1))
      · intro hex k
        obtain ⟨hP, hrest⟩ := hex
        cases k with
        | zero => exact ⟨hIR s t h, rfl⟩
        | succ k =>
            have ha := hgood s t a h hP
            rw [List.take_succ_cons]
            cases hr : step s a with
            | none =>
                rw [hr] at ha
                rw [answersFrom, answersFrom, hr]
                cases hu : step' t a with
                | none => exact agree_none
                | some u =>
                    rw [hu] at ha
                    exact ha.elim
            | some r =>
                rw [hr] at ha
                obtain ⟨u, hu, hru⟩ := ha.of_some_left
                have hs' : stateAfter step s a = some r.1 := by rw [stateAfter, hr]; rfl
                exact (agree_cons hr hu).mpr ((ih hru).mpr (hrest r.1 hs') k)

end

end Ycetl.Lib
