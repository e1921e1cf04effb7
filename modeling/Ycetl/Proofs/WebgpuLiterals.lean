import Ycetl.Ref.Webgpu

/-!
# What the literals of the tree spell

`emit_tree` writes literals, and a compiler reads them. This file shows, for
each kind of literal, that the value read is the one it was written from, and
then the same for a whole array: `dump` writes as many elements as it says, and
each of them is read back.

A string literal is safe as long as it has no line break, which would end the
line that the literal is on, and no null character, at which a `string_view`
of it would stop. `esc` takes care of the rest. A number is safe except for the
least `long long` with the suffix `LL`: its sign is not part of the literal, and
without the sign it does not fit.
-/

namespace Ycetl.Ref.Webgpu

open Ycetl.Lib
open Ycetl.Lib.Reading (Reads before past braced reads_braced reads_decimal reads_boolean)

/-- A text without control characters. -/
def Printable (s : Text) : Prop := ∀ c ∈ s, 32 ≤ c.toNat ∧ c.toNat ≠ 127

instance (s : Text) : Decidable (Printable s) :=
  List.decidableBAll (fun c : Char => 32 ≤ c.toNat ∧ c.toNat ≠ 127) s

theorem Printable.not_mem {s : Text} (hs : Printable s) {c : Char} (hc : c.toNat < 32) : c ∉ s := by
  intro h
  have := (hs c h).1
  omega

/-- A text that is read as a value of the type that `element` reads. -/
def Spells {α : Type} (element : Init → Option α) (w : Text) (x : α) : Prop :=
  ∃ i, Reads w i ∧ element i = some x

/-! ## Strings -/

theorem esc_cons (c : Char) (s : Text) :
    esc (c :: s) = (if c = '"' ∨ c = '\\' then ['\\', c] else [c]) ++ esc s := rfl

/-- Inside the quotes the reader undoes `esc`. -/
theorem run_esc {s : Text} (hs : '\n' ∉ s) (v : Text) (stack : List (List Init)) :
    Reading.run ⟨.quotes v, false, false, stack⟩ (esc s) =
      some ⟨.quotes (v ++ s), false, false, stack⟩ := by
  induction s generalizing v with
  | nil =>
      rw [List.append_nil]
      rfl
  | cons c s ih =>
      have hc : c ≠ '\n' := fun h => hs (by rw [h]; exact List.mem_cons_self)
      have ih := ih (fun h => hs (List.mem_cons_of_mem c h)) (v ++ [c])
      rw [List.append_assoc, List.singleton_append] at ih
      rw [esc_cons]
      split
      · next hq =>
          have hstep : Reading.step ⟨.quotes v, false, false, stack⟩ '\\' =
              some ⟨.escape v, false, false, stack⟩ := rfl
          rw [List.cons_append, List.singleton_append, Reading.run_cons, hstep, Option.bind_some,
            Reading.run_cons, Reading.step_escape, if_pos hq, Option.bind_some, ih]
      · next hq =>
          obtain ⟨hquote, hslash⟩ := not_or.mp hq
          rw [List.singleton_append, Reading.run_cons, Reading.step_quotes, if_neg hquote,
            if_neg hslash, if_neg hc, Option.bind_some, ih]

theorem reads_qstr {s : Text} (hs : '\n' ∉ s) : Reads (qstr s) (.string s) := by
  intro top rest c _
  have hopen : Reading.step (before (top :: rest)) '"' =
      some ⟨.quotes [], false, false, top :: rest⟩ := rfl
  have hclose : Reading.step ⟨.quotes ([] ++ s), false, false, top :: rest⟩ '"' =
      some (past ((top ++ [.string s]) :: rest)) := rfl
  rw [qstr, List.cons_append, List.cons_append, Reading.run_cons, hopen, Option.bind_some,
    List.append_assoc, List.singleton_append, Reading.run_append, run_esc hs, Option.bind_some,
    Reading.run_cons, hclose, Option.bind_some]

theorem spells_qstr {s : Text} (hs : Printable s) : Spells stringView (qstr s) s := by
  refine ⟨.string s, reads_qstr (hs.not_mem (by decide)), ?_⟩
  have hnull : ∀ c ∈ s, decide (c ≠ '\x00') = true := fun c hc =>
    decide_eq_true fun h => hs.not_mem (c := '\x00') (by decide) (by rw [← h]; exact hc)
  rw [stringView, List.takeWhile_eq_self_iff.mpr hnull]

/-! ## Numbers and truth values -/

theorem spells_boolLit (b : Bool) : Spells boolean (boolLit b) b :=
  ⟨.boolean b, reads_boolean b, rfl⟩

theorem spells_sizeLit (n : Nat) : Spells sizeT (sizeLit n) n := by
  have h := reads_decimal (v := n) (.inl rfl)
  rw [List.append_nil] at h
  exact ⟨.integer n, h, rfl⟩

theorem int64_toInt (v : Int64) : int64 (.integer v.toInt) = some v := by
  rw [int64, Int64.ofInt_toInt, if_pos rfl]

theorem spells_int64 (v : Int64) : Spells int64 (decimal v.toInt) v := by
  have h := reads_decimal (v := v.toInt) (.inl rfl)
  rw [List.append_nil] at h
  exact ⟨.integer v.toInt, h, int64_toInt v⟩

theorem spells_longLong {v : Int64} (hv : v ≠ Int64.minValue) :
    Spells int64 (decimal v.toInt ++ ['L', 'L']) v := by
  refine ⟨.integer v.toInt, reads_decimal (.inr ⟨rfl, ?_⟩), int64_toInt v⟩
  have hne : v.toInt ≠ -2 ^ 63 := fun h => hv (Int64.toInt.inj h)
  have hlt := v.toInt_lt
  have hle := v.le_toInt
  omega

/-! ## Members in braces

Each kind of entry, from a tree whose texts are printable. -/

structure FieldInfo.Plain (f : FieldInfo) : Prop where
  name : Printable f.name
  ctypesType : Printable f.ctypesType
  typeSpelling : Printable f.typeSpelling

structure RecordInfo.Plain (r : RecordInfo) : Prop where
  name : Printable r.name
  fields : ∀ f ∈ r.fields, f.Plain

structure EnumValue.Plain (v : EnumValue) : Prop where
  name : Printable v.name
  /-- The literal of the least value is not one. -/
  value : v.value ≠ Int64.minValue

structure EnumInfo.Plain (e : EnumInfo) : Prop where
  name : Printable e.name
  values : ∀ v ∈ e.values, v.Plain

structure TypedefInfo.Plain (t : TypedefInfo) : Prop where
  name : Printable t.name
  underlying : Printable t.underlying
  callbackRet : Printable t.callbackRet
  callbackArgs : ∀ a ∈ t.callbackArgs, Printable a

structure ConstantInfo.Plain (c : ConstantInfo) : Prop where
  name : Printable c.name
  value : Printable c.value

structure FuncInfo.Plain (f : FuncInfo) : Prop where
  name : Printable f.name
  returnCtype : Printable f.returnCtype
  argCtypes : ∀ a ∈ f.argCtypes, Printable a

/-- No text of the tree has a control character, and no enumerator has the least
value. -/
structure ApiTree.Plain (tree : ApiTree) : Prop where
  records : ∀ r ∈ tree.records, r.Plain
  enums : ∀ e ∈ tree.enums, e.Plain
  typedefs : ∀ t ∈ tree.typedefs, t.Plain
  functions : ∀ f ∈ tree.functions, f.Plain
  constants : ∀ c ∈ tree.constants, c.Plain

/-- The entry of a field. -/
def FieldInfo.entry (f : FieldInfo) : Field :=
  ⟨f.name, f.ctypesType, f.typeSpelling, f.offsetBits / 8, f.sizeBytes⟩

def RecordInfo.entry (r : RecordInfo) (first count : Nat) : Record :=
  ⟨r.name, r.isOpaque, first, count⟩

def EnumInfo.entry (e : EnumInfo) (first count : Nat) : Enumeration := ⟨e.name, first, count⟩

def TypedefInfo.entry (t : TypedefInfo) (first count : Nat) : Callback :=
  ⟨t.name, Python.orNone t.callbackRet, first, count⟩

def FuncInfo.entry (f : FuncInfo) (first count : Nat) : Function :=
  ⟨f.name, Python.orNone f.returnCtype, first, count⟩

def ConstantInfo.entry (c : ConstantInfo) : Constant := ⟨c.name, c.value⟩

theorem printable_orNone {s : Text} (hs : Printable s) : Printable (Python.orNone s) := by
  rw [Python.orNone]
  split
  · intro c hc
    have hc : c = 'N' ∨ c = 'o' ∨ c = 'n' ∨ c = 'e' := by simpa using hc
    rcases hc with rfl | rfl | rfl | rfl <;> decide
  · exact hs

theorem spells_field {f : FieldInfo} (hf : f.Plain) :
    Spells Field.read (Tree.fieldLit f) f.entry := by
  obtain ⟨i, hi, hname⟩ := spells_qstr hf.name
  obtain ⟨j, hj, hctype⟩ := spells_qstr hf.ctypesType
  obtain ⟨k, hk, hsrc⟩ := spells_qstr hf.typeSpelling
  obtain ⟨l, hl, hoffset⟩ := spells_int64 (f.offsetBits / 8)
  obtain ⟨m, hm, hsize⟩ := spells_int64 f.sizeBytes
  refine ⟨.braces [i, j, k, l, m], reads_braced (List.cons_ne_nil _ _)
    (.cons hi (.cons hj (.cons hk (.cons hl (.cons hm .nil))))), ?_⟩
  rw [Field.read, hname, hctype, hsrc, hoffset, hsize]
  rfl

theorem spells_record {r : RecordInfo} (hr : r.Plain) (first count : Nat) :
    Spells Record.read (Tree.recordLit r first count) (r.entry first count) := by
  obtain ⟨i, hi, hname⟩ := spells_qstr hr.name
  obtain ⟨j, hj, hopaque⟩ := spells_boolLit r.isOpaque
  obtain ⟨k, hk, hfirst⟩ := spells_sizeLit first
  obtain ⟨l, hl, hcount⟩ := spells_sizeLit count
  refine ⟨.braces [i, j, k, l], reads_braced (List.cons_ne_nil _ _)
    (.cons hi (.cons hj (.cons hk (.cons hl .nil)))), ?_⟩
  rw [Record.read, hname, hopaque, hfirst, hcount]
  rfl

theorem spells_enumerator {v : EnumValue} (hv : v.Plain) (isAlias : Bool) :
    Spells Enumerator.read
      (braced [qstr v.name, decimal v.value.toInt ++ ['L', 'L'], boolLit isAlias])
      ⟨v.name, v.value, isAlias⟩ := by
  obtain ⟨i, hi, hname⟩ := spells_qstr hv.name
  obtain ⟨j, hj, hvalue⟩ := spells_longLong hv.value
  obtain ⟨k, hk, halias⟩ := spells_boolLit isAlias
  refine ⟨.braces [i, j, k], reads_braced (List.cons_ne_nil _ _)
    (.cons hi (.cons hj (.cons hk .nil))), ?_⟩
  rw [Enumerator.read, hname, hvalue, halias]
  rfl

theorem spells_enum {e : EnumInfo} (he : e.Plain) (first count : Nat) :
    Spells Enumeration.read (Tree.enumLit e first count) (e.entry first count) := by
  obtain ⟨i, hi, hname⟩ := spells_qstr he.name
  obtain ⟨j, hj, hfirst⟩ := spells_sizeLit first
  obtain ⟨k, hk, hcount⟩ := spells_sizeLit count
  refine ⟨.braces [i, j, k], reads_braced (List.cons_ne_nil _ _)
    (.cons hi (.cons hj (.cons hk .nil))), ?_⟩
  rw [Enumeration.read, hname, hfirst, hcount]
  rfl

/-- A callback and a function have entries of one shape. -/
theorem reads_call {name ret : Text} (hname : Printable name) (hret : Printable ret)
    (first count : Nat) : ∃ i j k l,
      Reads (braced [qstr name, qstr ret, sizeLit first, sizeLit count]) (.braces [i, j, k, l]) ∧
      stringView i = some name ∧ stringView j = some ret ∧ sizeT k = some first ∧
      sizeT l = some count := by
  obtain ⟨i, hi, hname⟩ := spells_qstr hname
  obtain ⟨j, hj, hret⟩ := spells_qstr hret
  obtain ⟨k, hk, hfirst⟩ := spells_sizeLit first
  obtain ⟨l, hl, hcount⟩ := spells_sizeLit count
  exact ⟨i, j, k, l, reads_braced (List.cons_ne_nil _ _)
    (.cons hi (.cons hj (.cons hk (.cons hl .nil)))), hname, hret, hfirst, hcount⟩

theorem spells_callback {t : TypedefInfo} (ht : t.Plain) (first count : Nat) :
    Spells Callback.read (Tree.callbackLit t first count) (t.entry first count) := by
  obtain ⟨i, j, k, l, hreads, hname, hret, hfirst, hcount⟩ :=
    reads_call ht.name (printable_orNone ht.callbackRet) first count
  refine ⟨_, hreads, ?_⟩
  rw [Callback.read, hname, hret, hfirst, hcount]
  rfl

theorem spells_function {f : FuncInfo} (hf : f.Plain) (first count : Nat) :
    Spells Function.read (Tree.functionLit f first count) (f.entry first count) := by
  obtain ⟨i, j, k, l, hreads, hname, hret, hfirst, hcount⟩ :=
    reads_call hf.name (printable_orNone hf.returnCtype) first count
  refine ⟨_, hreads, ?_⟩
  rw [Function.read, hname, hret, hfirst, hcount]
  rfl

/-- An alias and a constant are two strings. -/
theorem reads_pair {s t : Text} (hs : Printable s) (ht : Printable t) : ∃ i j,
    Reads (braced [qstr s, qstr t]) (.braces [i, j]) ∧ stringView i = some s ∧
      stringView j = some t := by
  obtain ⟨i, hi, hs⟩ := spells_qstr hs
  obtain ⟨j, hj, ht⟩ := spells_qstr ht
  exact ⟨i, j, reads_braced (List.cons_ne_nil _ _) (.cons hi (.cons hj .nil)), hs, ht⟩

theorem spells_alias {s t : Text} (hs : Printable s) (ht : Printable t) :
    Spells Alias.read (braced [qstr s, qstr t]) ⟨s, t⟩ := by
  obtain ⟨i, j, hreads, hs, ht⟩ := reads_pair hs ht
  refine ⟨_, hreads, ?_⟩
  rw [Alias.read, hs, ht]
  rfl

theorem spells_constant {c : ConstantInfo} (hc : c.Plain) :
    Spells Constant.read (Tree.constantLit c) c.entry := by
  obtain ⟨i, j, hreads, hname, hvalue⟩ := reads_pair hc.name hc.value
  refine ⟨_, hreads, ?_⟩
  rw [Constant.read, hname, hvalue]
  rfl

/-! ## Arrays -/

section

variable {α β : Type} {element : Init → Option α} {lits : List Text} {xs : List α}

theorem Spells.all (h : List.Forall₂ (Spells element) lits xs) :
    ∃ is, List.Forall₂ Reads lits is ∧ is.mapM element = some xs := by
  induction h with
  | nil => exact ⟨[], .nil, rfl⟩
  | @cons w x ws xs hw _ ih =>
      obtain ⟨i, hi, hx⟩ := hw
      obtain ⟨is, his, hxs⟩ := ih
      refine ⟨i :: is, .cons hi his, ?_⟩
      rw [List.mapM_cons, hx, hxs]
      rfl

/-- What `dump` writes is read back. -/
theorem read_dump (type name : String) (h : List.Forall₂ (Spells element) lits xs) :
    (dump type name lits).read element = some xs := by
  have hlen := h.length_eq
  obtain ⟨is, his, hxs⟩ := Spells.all h
  have hitems : (dump type name lits).read element =
      (is.mapM element).bind fun xs => if xs.length = lits.length then some xs else none := by
    cases his with
    | nil => rfl
    | @cons a i ws is ha hrest =>
        have hread := Reading.readInit_lines (.cons ha hrest)
        rw [dump, Definition.read]
        simp only [List.isEmpty_cons, Bool.false_eq_true, if_false, hread]
        rfl
  rw [hitems, hxs, Option.bind_some, if_pos hlen.symm]

end

end Ycetl.Ref.Webgpu
