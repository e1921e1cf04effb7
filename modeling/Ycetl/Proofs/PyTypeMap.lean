import Ycetl.Ref.Webgpu

/-!
# The loop that fills the type map

What one registration keeps, the passes and the whole loop keep. The loop
stops when a pass has registered nothing, and then there is nothing left that
it would register.
-/

namespace Ycetl.Ref.Webgpu

open Ycetl.Lib

variable {m m' : PyTypeMap} {t : TypedefInfo} {ts us : List TypedefInfo}

/-- All that is done for one typedef. -/
theorem register_cases (h : m.register t = some m') :
    m.typedefToCtypes.lookup t.name = none ∧
      ¬ (m.lookup t.underlying = cVoidP ∧ t.underlying ≠ "void *".toList ∧
        '*' ∉ t.underlying ∧ '[' ∉ t.underlying) ∧
      m' = { m with typedefToCtypes := (t.name, m.lookup t.underlying) :: m.typedefToCtypes } := by
  rw [PyTypeMap.register] at h
  split at h
  · cases h
  · next hnew =>
      split at h
      · cases h
      · next hnamed =>
          rw [Bool.not_eq_true, Option.isSome_eq_false_iff, Option.isNone_iff_eq_none] at hnew
          exact ⟨hnew, hnamed, (Option.some.inj h).symm⟩

section

variable {P : PyTypeMap → Prop}
  (hstep : ∀ {m m' : PyTypeMap} {t : TypedefInfo}, t ∈ ts → P m → m.register t = some m' → P m')

include hstep

theorem pass_keeps (hus : us ⊆ ts) (hm : P m) (progress : Bool) :
    P (m.pass progress us).1 := by
  induction us generalizing m progress with
  | nil => exact hm
  | cons t us ih =>
      have hus' : us ⊆ ts := fun u hu => hus (List.mem_cons_of_mem t hu)
      rw [PyTypeMap.pass]
      split
      · next m' hm' => exact ih hus' (hstep (hus List.mem_cons_self) hm hm') true
      · exact ih hus' hm progress

/-- What holds before the loop, and is kept by every registration, holds after it. -/
theorem resolve_keeps (hm : P m) : P (m.resolve ts) := by
  induction m using PyTypeMap.resolve.induct ts with
  | case1 m hprogress ih =>
      rw [PyTypeMap.resolve, dif_pos hprogress]
      exact ih (pass_keeps hstep (List.Subset.refl ts) hm false)
  | case2 m hstop =>
      rw [PyTypeMap.resolve, dif_neg hstop]
      exact pass_keeps hstep (List.Subset.refl ts) hm false

end

/-- A pass without progress leaves the map as it was. -/
theorem pass_stuck {progress : Bool} (h : (m.pass progress us).2 = false) : progress = false ∧
    (m.pass progress us).1 = m ∧ ∀ t ∈ us, m.register t = none := by
  induction us generalizing m progress with
  | nil => exact ⟨h, rfl, fun t ht => absurd ht List.not_mem_nil⟩
  | cons t us ih =>
      rw [PyTypeMap.pass] at h ⊢
      split at h
      · next m' hm' => exact absurd (ih h).1 (by decide)
      · next hm' =>
          obtain ⟨hprogress, hsame, hnone⟩ := ih h
          refine ⟨hprogress, hsame, fun u hu => ?_⟩
          rcases List.mem_cons.mp hu with hut | hu
          · rw [hut]
            exact hm'
          · exact hnone u hu

/-- After the loop no typedef can be registered. -/
theorem resolve_stuck (m : PyTypeMap) (ts : List TypedefInfo) :
    ∀ t ∈ ts, (m.resolve ts).register t = none := by
  induction m using PyTypeMap.resolve.induct ts with
  | case1 m hprogress ih =>
      rw [PyTypeMap.resolve, dif_pos hprogress]
      exact ih
  | case2 m hstop =>
      rw [PyTypeMap.resolve, dif_neg hstop]
      obtain ⟨-, hsame, hnone⟩ := pass_stuck (Bool.eq_false_iff.mpr hstop)
      rw [hsame]
      exact hnone

/-- The loop stops: every pass but the last registers a typedef. -/
theorem resolve_stops (m : PyTypeMap) (ts : List TypedefInfo) : ∃ k ≤ m.unresolved ts,
    (((fun m : PyTypeMap => (m.pass false ts).1)^[k] m).pass false ts).2 = false := by
  induction m using PyTypeMap.resolve.induct ts with
  | case1 m hprogress ih =>
      obtain ⟨k, hk, hlast⟩ := ih
      have hfewer := (PyTypeMap.unresolved_pass (fun _ h => h) false).2 hprogress
      refine ⟨k + 1, ?_, hlast⟩
      exact Nat.lt_of_le_of_lt hk (hfewer.resolve_left Bool.false_ne_true)
  | case2 m hstop => exact ⟨0, Nat.zero_le _, Bool.eq_false_iff.mpr hstop⟩

/-- What is left after the loop is `c_void_p`. -/
theorem lookup_fill (m : PyTypeMap) (ts : List TypedefInfo) (s : Text) :
    (m.fill ts).typedefToCtypes.lookup s =
      (m.typedefToCtypes.lookup s).or
        (if s ∈ ts.map TypedefInfo.name then some cVoidP else none) := by
  induction ts generalizing m with
  | nil => rw [PyTypeMap.fill, List.map_nil, if_neg List.not_mem_nil, Option.or_none]
  | cons t ts ih =>
      rw [PyTypeMap.fill]
      split
      · next hold =>
          rw [ih]
          by_cases hs : s = t.name
          · obtain ⟨c, hc⟩ := Option.isSome_iff_exists.mp hold
            rw [hs, hc]
            rfl
          · simp [hs]
      · next hnew =>
          rw [ih, List.lookup_cons]
          by_cases hs : s = t.name
          · rw [Bool.not_eq_true, Option.isSome_eq_false_iff, Option.isNone_iff_eq_none] at hnew
            simp [hs, hnew]
          · have hbeq : (s == t.name) = false := beq_eq_false_iff_ne.mpr hs
            simp [hs, hbeq]

end Ycetl.Ref.Webgpu
