import Ycetl.Proofs.WebgpuLiterals

/-!
# The text rebuilt from the pools

The slice of an entry is what its parent had in the tree, so each part of the
module that `build_into` makes is compared with the part that `emit_python`
writes, one kind of entry at a time. Numbers go through `put_int`, which makes
the digits from the last to the first: any number of 64 bits has fewer than the
24 that its buffer holds.
-/

namespace Ycetl.Ref.Webgpu

open Ycetl.Lib

/-! ## `put_int` -/

theorem digitChar_eq : ∀ d < 10, Char.ofNat ('0'.toNat + d) = Nat.digitChar d := by decide

theorem putDigits_eq (u : UInt64) (tmp : Text) (h : u.toNat < 10 ^ (24 - tmp.length)) :
    putDigits u tmp = some (tmp ++ (Nat.digits 10 u.toNat).map Nat.digitChar) := by
  rw [putDigits]
  split
  · next hu =>
      subst hu
      rw [UInt64.toNat_zero, Nat.digits_zero, List.map_nil, List.append_nil]
  · next hu =>
      have hpos : 0 < u.toNat := Nat.pos_of_ne_zero fun h0 => hu (UInt64.toNat_inj.mp h0)
      split
      · next hlt =>
          have hdigit : (u % 10).toNat = u.toNat % 10 := UInt64.toNat_mod u 10
          have hrest : (u / 10).toNat = u.toNat / 10 := UInt64.toNat_div u 10
          have hlen : (tmp ++ [Char.ofNat ('0'.toNat + (u % 10).toNat)]).length =
              tmp.length + 1 := by
            rw [List.length_append, List.length_singleton]
          have hpow : 10 ^ (24 - tmp.length) = 10 ^ (24 - (tmp.length + 1)) * 10 := by
            rw [← Nat.pow_succ]
            congr 1
            omega
          rw [putDigits_eq (u / 10) _ (by
            rw [hlen, hrest]
            exact Nat.div_lt_of_lt_mul (by rw [Nat.mul_comm, ← hpow]; exact h))]
          rw [hrest, hdigit, digitChar_eq _ (Nat.mod_lt _ (by decide)),
            Nat.digits_def' (by decide) hpos, List.map_cons, List.append_assoc,
            List.singleton_append]
      · next hlt =>
          rw [show 24 - tmp.length = 0 by omega] at h
          omega
termination_by 24 - tmp.length
decreasing_by
  rw [hlen]
  omega

/-- The absolute value, as `put_int` finds it. -/
theorem toNat_magnitude (v : Int64) :
    (if v < 0 then (-(v + 1)).toUInt64 + 1 else v.toUInt64).toNat = v.toInt.natAbs := by
  have hlt := v.toInt_lt
  have hle := v.le_toInt
  split
  · next hv =>
      have hneg : v.toInt < 0 := Int64.lt_iff_toInt_lt.mp hv
      have hsucc : (v + 1).toInt = v.toInt + 1 := by
        rw [Int64.toInt_add, show (1 : Int64).toInt = 1 from rfl]
        exact Int.bmod_eq_of_le (by omega) (by omega)
      have hminus : (-(v + 1)).toInt = -(v.toInt + 1) := by
        rw [Int64.toInt_neg, hsucc]
        exact Int.bmod_eq_of_le (by omega) (by omega)
      have hnonneg : 0 ≤ -(v + 1) := Int64.le_iff_toInt_le.mpr (by
        rw [hminus, Int64.toInt_zero]
        omega)
      have hnat : (-(v + 1)).toUInt64.toNat = (-(v.toInt + 1)).toNat := by
        rw [Int64.toNat_toUInt64_of_le hnonneg, Int64.toNatClampNeg, hminus]
      rw [UInt64.toNat_add, hnat, UInt64.toNat_one, Nat.mod_eq_of_lt (by omega)]
      omega
  · next hv =>
      have hnonneg : 0 ≤ v := Int64.le_iff_toInt_le.mpr (by
        rw [Int64.lt_iff_toInt_lt, Int64.toInt_zero] at hv
        rw [Int64.toInt_zero]
        omega)
      have hpos := Int64.le_iff_toInt_le.mp hnonneg
      rw [Int64.toInt_zero] at hpos
      rw [Int64.toNat_toUInt64_of_le hnonneg, Int64.toNatClampNeg]
      omega

/-- `put_int` prints what `<<` prints. -/
theorem putInt_eq (v : Int64) : putInt v = some (decimal v.toInt) := by
  rw [putInt]
  split
  · next hv =>
      subst hv
      rfl
  · next hv =>
      have hne : v.toInt.natAbs ≠ 0 := fun h => hv (Int64.toInt.inj (by
        rw [Int64.toInt_zero]
        omega))
      have hmag := toNat_magnitude v
      have hdigits := putDigits_eq (if v < 0 then (-(v + 1)).toUInt64 + 1 else v.toUInt64) [] (by
        exact Nat.lt_trans (UInt64.toNat_lt _) (by decide))
      rw [hmag, List.nil_append] at hdigits
      simp only [Option.bind_eq_bind, hdigits, Option.bind_some]
      simp only [decimal, numeral, if_neg hne, Int64.lt_iff_toInt_lt, Int64.toInt_zero]

/-! ## The parts of the module -/

variable {p : Pools}

theorem field_eq (f : FieldInfo) : Pools.field f.entry = some (Python.field f) := by
  rw [Pools.field, putInt_eq, putInt_eq]
  rfl

theorem fieldTable_eq {r : RecordInfo} {first : Nat}
    (h : slice p.fields first r.fields.length = some (r.fields.map FieldInfo.entry)) :
    p.fieldTable (r.entry first r.fields.length) = some (Python.fieldTable r) := by
  have hfields : appendAll Pools.field (r.fields.map FieldInfo.entry) =
      some (r.fields.flatMap Python.field) :=
    appendAll_eq (forall₂_map_self fun f _ => field_eq f)
  rw [Pools.fieldTable, Python.fieldTable, RecordInfo.entry]
  split
  · rfl
  · simp only [h, Option.bind_eq_bind, Option.bind_some, hfields]

/-- The entries of the values of an enum. -/
def enumeratorEntries (seen : List Int64) : List EnumValue → List Enumerator
  | [] => []
  | v :: vs =>
      ⟨v.name, v.value, v.value ∈ seen⟩ ::
        enumeratorEntries (if v.value ∈ seen then seen else v.value :: seen) vs

theorem length_enumeratorEntries (seen : List Int64) (vs : List EnumValue) :
    (enumeratorEntries seen vs).length = vs.length := by
  induction vs generalizing seen with
  | nil => rfl
  | cons v vs ih => rw [enumeratorEntries, List.length_cons, ih, List.length_cons]

theorem length_enumeratorLits (seen : List Int64) (vs : List EnumValue) :
    (Tree.enumeratorLits seen vs).length = vs.length := by
  induction vs generalizing seen with
  | nil => rfl
  | cons v vs ih => rw [Tree.enumeratorLits, List.length_cons, ih, List.length_cons]

theorem spells_enumerators (seen : List Int64) {vs : List EnumValue} (hvs : ∀ v ∈ vs, v.Plain) :
    List.Forall₂ (Spells Enumerator.read) (Tree.enumeratorLits seen vs)
      (enumeratorEntries seen vs) := by
  induction vs generalizing seen with
  | nil => exact .nil
  | cons v vs ih =>
      exact .cons (spells_enumerator (hvs v List.mem_cons_self) _)
        (ih _ fun w hw => hvs w (List.mem_cons_of_mem v hw))

/-- The same values are aliases. -/
theorem enumerators_eq (seen : List Int64) (vs : List EnumValue) :
    appendAll Pools.enumerator (enumeratorEntries seen vs) =
      some (Python.enumerators seen vs) := by
  induction vs generalizing seen with
  | nil => rfl
  | cons v vs ih =>
      rw [enumeratorEntries, appendAll_cons, Pools.enumerator, putInt_eq, ih, Python.enumerators]
      by_cases hv : v.value ∈ seen
      · simp only [hv, decide_true, if_true]
        rfl
      · simp only [hv, decide_false, Bool.false_eq_true, if_false]
        rfl

theorem enumClass_eq {e : EnumInfo} {first : Nat}
    (h : slice p.enumValues first e.values.length = some (enumeratorEntries [] e.values)) :
    p.enumClass (e.entry first e.values.length) = some (Python.enumClass e) := by
  unfold Pools.enumClass Python.enumClass EnumInfo.entry
  by_cases he : e.values = []
  · rw [if_pos (by rw [he]; rfl), if_pos (by rw [he]; rfl)]
  · rw [if_neg (fun h0 => he (List.length_eq_zero_iff.mp h0)),
      if_neg (fun h0 => he (List.isEmpty_iff.mp h0))]
    simp only [h, Option.bind_eq_bind, Option.bind_some, enumerators_eq, List.append_assoc]

theorem constantLines_eq (cs : List ConstantInfo) (h : p.constants = cs.map ConstantInfo.entry) :
    p.constantLines = Python.constants cs := by
  rw [Pools.constantLines, Python.constants, h, List.length_map, List.flatMap_map]
  cases cs with
  | nil => rfl
  | cons c cs => rfl

/-- The line of a callback. -/
def TypedefInfo.line (t : TypedefInfo) : Text :=
  t.name ++ " = CFUNCTYPE(".toList ++ Python.orNone t.callbackRet ++
    (t.callbackArgs.flatMap fun a => ", ".toList ++ a) ++ ")\n".toList

theorem callback_eq {t : TypedefInfo} {first : Nat}
    (h : slice p.callbackArgs first t.callbackArgs.length = some t.callbackArgs) :
    p.callback (t.entry first t.callbackArgs.length) = some t.line := by
  rw [Pools.callback, TypedefInfo.entry]
  simp only [h, Option.bind_eq_bind, Option.bind_some]
  rfl

/-- What is not a callback has no line. -/
theorem flatMap_callback (ts : List TypedefInfo) :
    ts.flatMap Python.callback = (ts.filter fun t => t.isCallback).flatMap TypedefInfo.line := by
  induction ts with
  | nil => rfl
  | cons t ts ih =>
      rw [List.flatMap_cons, Python.callback, List.filter_cons, ih]
      split
      · rfl
      · rfl

theorem function_eq {f : FuncInfo} {first : Nat}
    (h : slice p.functionArgs first f.argCtypes.length = some f.argCtypes) :
    p.function (f.entry first f.argCtypes.length) = some (Python.function f) := by
  rw [Pools.function, FuncInfo.entry]
  simp only [h, Option.bind_eq_bind, Option.bind_some]
  rfl

end Ycetl.Ref.Webgpu
