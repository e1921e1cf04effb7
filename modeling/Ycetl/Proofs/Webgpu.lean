import Ycetl.Proofs.PyTypeMap
import Ycetl.Proofs.WebgpuOrder
import Ycetl.Proofs.WebgpuRebuild

/-!
# The two generators agree

The module that `build_into` makes from the arrays of `emit_tree` is the one
that `emit_python` writes. The parts are in the files before this one, except
for the aliases. Their right sides come from `py_type_map`, so what has to be
seen is that no control character comes out of it if none goes in. After that
the arrays are read back by their names, and the parts are put together.
-/

namespace Ycetl.Ref.Webgpu

open Ycetl.Lib
open Ycetl.Lib.Reading (braced)

/-! ## What `py_type_map` answers -/

theorem Printable.subset {s w : Text} (hs : Printable s) (h : w ⊆ s) : Printable w :=
  fun c hc => hs c (h hc)

theorem Printable.append {s w : Text} (hs : Printable s) (hw : Printable w) :
    Printable (s ++ w) := by
  intro c hc
  rcases List.mem_append.mp hc with hc | hc
  · exact hs c hc
  · exact hw c hc

theorem printable_cVoidP : Printable cVoidP := by
  unfold cVoidP
  simp [Printable]

theorem printable_base : ∀ p ∈ base, Printable p.2 := by simp [base, Printable]

theorem strip_subset (s : Text) : strip s ⊆ s := by
  have hends : (stripEnd s).dropWhile (· = ' ') ⊆ s := fun c hc =>
    (List.rdropWhile_prefix (p := (· = ' ')) (l := s)).subset ((List.dropWhile_suffix _).subset hc)
  rw [strip]
  split
  · exact fun c hc => hends ((List.drop_suffix 6 _).subset hc)
  · exact hends

theorem arrayParts_subset {s elem n : Text} (h : arrayParts s = some (elem, n)) :
    elem ⊆ s ∧ n ⊆ s := by
  rw [arrayParts] at h
  split at h
  · cases h
  · next c rest hrest =>
      split at h
      · cases h
        constructor
        · exact fun c hc => (List.takeWhile_prefix _).subset
            ((List.rdropWhile_prefix (p := (· = ' ')) (l := s.takeWhile (· ≠ '['))).subset hc)
        · intro d hd
          refine (List.dropWhile_suffix (· ≠ '[')).subset ?_
          rw [hrest]
          exact List.mem_cons_of_mem c ((List.takeWhile_prefix _).subset hd)
      · cases h

/-- A map with no control characters in what it answers. -/
def PyTypeMap.Plain (m : PyTypeMap) : Prop := ∀ p ∈ m.typedefToCtypes, Printable p.2

theorem printable_of_lookup {m : List (Text × Text)} (hm : ∀ p ∈ m, Printable p.2) {s c : Text}
    (h : m.lookup s = some c) : Printable c :=
  hm (s, c) (lookup_mem h)

theorem printable_lookupName {m : PyTypeMap} (hm : m.Plain) {s : Text} (hs : Printable s) :
    Printable (m.lookupName s) := by
  rw [PyTypeMap.lookupName]
  split
  · next c hc => exact printable_of_lookup printable_base hc
  · next c _ hc => exact printable_of_lookup hm hc
  · split
    · exact hs
    · split
      · exact hs
      · exact printable_cVoidP

theorem printable_lookup {m : PyTypeMap} (hm : m.Plain) {s : Text} (hs : Printable s) :
    Printable (m.lookup s) := by
  induction s using PyTypeMap.lookup.induct with
  | case1 s hptr =>
      rw [PyTypeMap.lookup, if_pos hptr]
      exact printable_cVoidP
  | case2 s hptr elem n hparts ih =>
      obtain ⟨helem, hn⟩ := arrayParts_subset hparts
      have hstar : Printable " * ".toList := by simp [Printable]
      have hstrip := hs.subset (strip_subset s)
      rw [PyTypeMap.lookup, if_neg hptr]
      split
      · next elem' n' h =>
          rw [hparts] at h
          cases h
          exact ((ih (hstrip.subset helem)).append hstar).append (hstrip.subset hn)
      · next h =>
          rw [hparts] at h
          cases h
  | case3 s hptr hparts =>
      rw [PyTypeMap.lookup, if_neg hptr]
      split
      · next h =>
          rw [hparts] at h
          cases h
      · exact printable_lookupName hm (hs.subset (strip_subset s))

theorem PyTypeMap.Plain.register {m m' : PyTypeMap} (hm : m.Plain) {t : TypedefInfo}
    (ht : t.Plain) (h : m.register t = some m') : m'.Plain := by
  obtain ⟨-, -, rfl⟩ := register_cases h
  intro p hp
  rcases List.mem_cons.mp hp with rfl | hp
  · exact printable_lookup hm ht.underlying
  · exact hm p hp

theorem PyTypeMap.Plain.resolve {m : PyTypeMap} (hm : m.Plain) {ts : List TypedefInfo}
    (hts : ∀ t ∈ ts, t.Plain) : (m.resolve ts).Plain :=
  resolve_keeps (fun ht hm hreg => hm.register (hts _ ht) hreg) hm

theorem PyTypeMap.Plain.fill {m : PyTypeMap} (hm : m.Plain) (ts : List TypedefInfo) :
    (m.fill ts).Plain := by
  induction ts generalizing m with
  | nil => exact hm
  | cons t ts ih =>
      rw [PyTypeMap.fill]
      split
      · exact ih hm
      · refine ih fun p hp => ?_
        rcases List.mem_cons.mp hp with rfl | hp
        · exact printable_cVoidP
        · exact hm p hp

theorem buildPyMap_plain {tree : ApiTree} (h : tree.Plain) : (buildPyMap tree).Plain := by
  have hempty : PyTypeMap.Plain
      ⟨[], tree.enums.map EnumInfo.name, tree.records.map RecordInfo.name⟩ :=
    fun p hp => absurd hp List.not_mem_nil
  exact (hempty.resolve h.typedefs).fill tree.typedefs

/-! ## The aliases -/

/-- The two filters keep the same aliases. -/
theorem spells_aliases {tree : ApiTree} (h : tree.Plain) : ∃ aliases,
    List.Forall₂ (Spells Alias.read) (Tree.aliasLits tree (buildPyMap tree)) aliases ∧
      tree.typedefs.flatMap (Python.aliasLine (buildPyMap tree)) =
        aliases.flatMap Pools.aliasLine := by
  refine forall₂_filterMap fun t ht => ?_
  rw [Python.aliasLine]
  split
  · exact .inl ⟨rfl, rfl⟩
  · split
    · exact .inl ⟨rfl, rfl⟩
    · cases hc : (buildPyMap tree).typedefToCtypes.lookup t.name with
      | none => exact .inl ⟨rfl, rfl⟩
      | some c =>
          simp only []
          split
          · exact .inl ⟨rfl, rfl⟩
          · exact .inr ⟨_, ⟨t.name, c⟩, rfl, spells_alias (h.typedefs t ht).name
              (printable_of_lookup (buildPyMap_plain h) hc), rfl⟩

/-! ## The arrays by their names -/

section

variable {α : Type} {type name type' name' : String} {lits lits' : List Text}
  {ds : List Definition} {element : Init → Option α} {xs : List α}

theorem readArray_self (h : List.Forall₂ (Spells element) lits xs) :
    readArray (dump type name lits :: ds) type name element = some xs := by
  rw [readArray, List.find?_cons_of_pos (by exact decide_eq_true rfl), Option.bind_eq_bind,
    Option.bind_some, if_pos (by rfl), read_dump type name h]

theorem readArray_skip (h : name' ≠ name) :
    readArray (dump type' name' lits' :: ds) type name element =
      readArray ds type name element := by
  rw [readArray, readArray, List.find?_cons_of_neg (by rw [decide_eq_true_eq]; exact h)]

end

/-- The pools of a tree, with the order of its records and its aliases. -/
def ApiTree.pools (tree : ApiTree) (order : List Nat) (aliases : List Alias) : Pools where
  fields := tree.records.flatMap fun r => r.fields.map FieldInfo.entry
  records := placed RecordInfo.entry (fun r => r.fields.length) 0 tree.records
  topo := order
  enumValues := tree.enums.flatMap fun e => enumeratorEntries [] e.values
  enums := placed EnumInfo.entry (fun e => e.values.length) 0 tree.enums
  aliases := aliases
  callbackArgs := (tree.typedefs.filter fun t => t.isCallback).flatMap TypedefInfo.callbackArgs
  callbacks := placed TypedefInfo.entry (fun t => t.callbackArgs.length) 0
    (tree.typedefs.filter fun t => t.isCallback)
  functionArgs := tree.functions.flatMap FuncInfo.argCtypes
  functions := placed FuncInfo.entry (fun f => f.argCtypes.length) 0 tree.functions
  constants := tree.constants.map ConstantInfo.entry

/-- The arrays of `emit_tree`, with the pools and the entries apart. -/
theorem emitTree_eq {tree : ApiTree} {order : List Nat}
    (horder : topoSort visitTree tree.records = some order) : emitTree tree = some
      [dump "field" "fields" (tree.records.flatMap fun r => r.fields.map Tree.fieldLit),
        dump "record" "records"
          (placed Tree.recordLit (fun r => r.fields.length) 0 tree.records),
        dump "std::size_t" "topo" (order.map sizeLit),
        dump "enumerator" "enum_values"
          (tree.enums.flatMap fun e => Tree.enumeratorLits [] e.values),
        dump "enumeration" "enums" (placed Tree.enumLit (fun e => e.values.length) 0 tree.enums),
        dump "alias" "aliases" (Tree.aliasLits tree (buildPyMap tree)),
        dump "string_view" "callback_args"
          ((tree.typedefs.filter fun t => t.isCallback).flatMap fun t => t.callbackArgs.map qstr),
        dump "callback" "callbacks" (placed Tree.callbackLit (fun t => t.callbackArgs.length) 0
          (tree.typedefs.filter fun t => t.isCallback)),
        dump "string_view" "function_args" (tree.functions.flatMap fun f => f.argCtypes.map qstr),
        dump "function" "functions"
          (placed Tree.functionLit (fun f => f.argCtypes.length) 0 tree.functions),
        dump "constant" "constants" (tree.constants.map Tree.constantLit)] := by
  have hrecords := pooled_eq (fun r => r.fields.map Tree.fieldLit) Tree.recordLit
    (fun r => List.length_map _) tree.records
  have henums := pooled_eq (fun e => Tree.enumeratorLits [] e.values) Tree.enumLit
    (fun e => length_enumeratorLits [] e.values) tree.enums
  have hcallbacks := pooled_eq (fun t => t.callbackArgs.map qstr) Tree.callbackLit
    (fun t => List.length_map _) (tree.typedefs.filter fun t => t.isCallback)
  have hfunctions := pooled_eq (fun f => f.argCtypes.map qstr) Tree.functionLit
    (fun f => List.length_map _) tree.functions
  rw [emitTree, horder]
  simp only [Option.bind_eq_bind, Option.bind_some, hrecords, henums, hcallbacks, hfunctions]

/-- What a compiler has after it has read the arrays of `emit_tree`. -/
theorem readPools_emitTree {tree : ApiTree} (h : tree.Plain) {order : List Nat}
    (horder : topoSort visitTree tree.records = some order) {aliases : List Alias}
    (haliases : List.Forall₂ (Spells Alias.read) (Tree.aliasLits tree (buildPyMap tree)) aliases) :
    ∃ defs, emitTree tree = some defs ∧ readPools defs = some (tree.pools order aliases) := by
  have hfields : List.Forall₂ (Spells Field.read)
      (tree.records.flatMap fun r => r.fields.map Tree.fieldLit)
      (tree.pools order aliases).fields :=
    forall₂_flatMap fun r hr => forall₂_map_map fun f hf =>
      spells_field ((h.records r hr).fields f hf)
  have hrecords : List.Forall₂ (Spells Record.read)
      (placed Tree.recordLit (fun r => r.fields.length) 0 tree.records)
      (tree.pools order aliases).records :=
    forall₂_placed _ (fun r hr => spells_record (h.records r hr)) 0
  have htopo : List.Forall₂ (Spells sizeT) (order.map sizeLit) order :=
    forall₂_map_self fun n _ => spells_sizeLit n
  have hvalues : List.Forall₂ (Spells Enumerator.read)
      (tree.enums.flatMap fun e => Tree.enumeratorLits [] e.values)
      (tree.pools order aliases).enumValues :=
    forall₂_flatMap fun e he => spells_enumerators [] (h.enums e he).values
  have henums : List.Forall₂ (Spells Enumeration.read)
      (placed Tree.enumLit (fun e => e.values.length) 0 tree.enums)
      (tree.pools order aliases).enums :=
    forall₂_placed _ (fun e he => spells_enum (h.enums e he)) 0
  have hcallbackArgs : List.Forall₂ (Spells stringView)
      ((tree.typedefs.filter fun t => t.isCallback).flatMap fun t => t.callbackArgs.map qstr)
      (tree.pools order aliases).callbackArgs :=
    forall₂_flatMap fun t ht => forall₂_map_self fun a ha =>
      spells_qstr ((h.typedefs t (List.mem_of_mem_filter ht)).callbackArgs a ha)
  have hcallbacks : List.Forall₂ (Spells Callback.read)
      (placed Tree.callbackLit (fun t => t.callbackArgs.length) 0
        (tree.typedefs.filter fun t => t.isCallback)) (tree.pools order aliases).callbacks :=
    forall₂_placed _ (fun t ht => spells_callback (h.typedefs t (List.mem_of_mem_filter ht))) 0
  have hfunctionArgs : List.Forall₂ (Spells stringView)
      (tree.functions.flatMap fun f => f.argCtypes.map qstr)
      (tree.pools order aliases).functionArgs :=
    forall₂_flatMap fun f hf => forall₂_map_self fun a ha =>
      spells_qstr ((h.functions f hf).argCtypes a ha)
  have hfunctions : List.Forall₂ (Spells Function.read)
      (placed Tree.functionLit (fun f => f.argCtypes.length) 0 tree.functions)
      (tree.pools order aliases).functions :=
    forall₂_placed _ (fun f hf => spells_function (h.functions f hf)) 0
  have hconstants : List.Forall₂ (Spells Constant.read) (tree.constants.map Tree.constantLit)
      (tree.pools order aliases).constants :=
    forall₂_map_map fun c hc => spells_constant (h.constants c hc)
  refine ⟨_, emitTree_eq horder, ?_⟩
  rw [readPools]
  simp only [readArray_skip, ne_eq, String.reduceEq, not_false_eq_true, readArray_self hfields,
    readArray_self hrecords, readArray_self htopo, readArray_self hvalues, readArray_self henums,
    readArray_self haliases, readArray_self hcallbackArgs, readArray_self hcallbacks,
    readArray_self hfunctionArgs, readArray_self hfunctions, readArray_self hconstants]
  rfl

/-! ## The module -/

/-- What `build_into` makes of the pools of a tree. -/
theorem buildInto_pools (tree : ApiTree) {order : List Nat}
    (horder : ∀ i ∈ order, i < tree.records.length) (aliases : List Alias) : ∃ tables,
    order.mapM (fun i => (tree.records[i]?).map Python.fieldTable) = some tables ∧
    buildInto (tree.pools order aliases) = some (Python.prelude ++
      tree.enums.flatMap Python.enumClass ++ Python.constants tree.constants ++
      tree.records.flatMap Python.stub ++ "\n".toList ++
      aliases.flatMap Pools.aliasLine ++ "\n".toList ++
      tables.flatten ++
      Python.callbackTitle ++ tree.typedefs.flatMap Python.callback ++ "\n".toList ++
      "_FUNCTIONS = [\n".toList ++ tree.functions.flatMap Python.function ++ "]\n\n".toList ++
      Python.load) := by
  have htables : List.Forall₂
      (fun e r => (tree.pools order aliases).fieldTable e = some (Python.fieldTable r))
      (tree.pools order aliases).records tree.records :=
    rounds_placed (fun r => r.fields.map FieldInfo.entry) RecordInfo.entry
      (fun r => List.length_map _)
      (fun r first => fieldTable_eq (p := tree.pools order aliases)) rfl
  have henums : List.Forall₂
      (fun e i => (tree.pools order aliases).enumClass e = some (Python.enumClass i))
      (tree.pools order aliases).enums tree.enums :=
    rounds_placed (fun e => enumeratorEntries [] e.values) EnumInfo.entry
      (fun e => length_enumeratorEntries [] e.values)
      (fun e first => enumClass_eq (p := tree.pools order aliases)) rfl
  have hcallbacks : List.Forall₂
      (fun c t => (tree.pools order aliases).callback c = some (TypedefInfo.line t))
      (tree.pools order aliases).callbacks (tree.typedefs.filter fun t => t.isCallback) :=
    rounds_placed TypedefInfo.callbackArgs TypedefInfo.entry (fun t => rfl)
      (fun t first => callback_eq (p := tree.pools order aliases)) rfl
  have hfunctions : List.Forall₂
      (fun e f => (tree.pools order aliases).function e = some (Python.function f))
      (tree.pools order aliases).functions tree.functions :=
    rounds_placed FuncInfo.argCtypes FuncInfo.entry (fun f => rfl)
      (fun f first => function_eq (p := tree.pools order aliases)) rfl
  have hstubs : (tree.pools order aliases).records.flatMap Pools.stub =
      tree.records.flatMap Python.stub :=
    flatMap_placed RecordInfo.entry (fun _ _ _ => rfl) (fun r => r.fields.length) 0 tree.records
  have hconstants : (tree.pools order aliases).constantLines = Python.constants tree.constants :=
    constantLines_eq tree.constants rfl
  obtain ⟨rs, tables, hrs, htree, hall⟩ := appendAll_order htables horder
  refine ⟨tables, htree, ?_⟩
  have hprelude : Pools.prelude = Python.prelude := rfl
  have hload : Pools.load = Python.load := rfl
  have htitle : Pools.callbackTitle = Python.callbackTitle := rfl
  have horder : (tree.pools order aliases).topo.mapM
      (fun i => (tree.pools order aliases).records[i]?) = some rs := hrs
  rw [buildInto, appendAll_eq henums, horder, appendAll_eq hcallbacks, appendAll_eq hfunctions]
  simp only [Option.bind_eq_bind, Option.bind_some, hall, hstubs, hconstants, hprelude, hload,
    htitle, flatMap_callback]
  rfl

/-- The module that `build_into` makes from what `emit_tree` writes is the one
that `emit_python` writes, for every tree whose texts have no control
characters, and whose enumerators are not the least number. -/
theorem generators_agree {tree : ApiTree} (h : tree.Plain) : ∃ defs pools text,
    emitTree tree = some defs ∧ readPools defs = some pools ∧ buildInto pools = some text ∧
      emitPython tree = some text := by
  obtain ⟨order, hpython, htree, hlt⟩ := topoSort_eq tree.records
  obtain ⟨aliases, hread, haliases⟩ := spells_aliases h
  obtain ⟨defs, hdefs, hpools⟩ := readPools_emitTree h htree hread
  obtain ⟨tables, htables, hbuild⟩ := buildInto_pools tree hlt aliases
  refine ⟨defs, tree.pools order aliases, _, hdefs, hpools, hbuild, ?_⟩
  rw [emitPython, hpython]
  simp only [Option.bind_eq_bind, Option.bind_some, htables, haliases]

/-- Two records that embed each other, one of them at an unknown offset, an
opaque record, two enumerators of one value, an alias, a callback, a function
with two arguments and a constant. -/
def cyclicTree : ApiTree where
  records :=
    [⟨['A'], 8, [⟨['b'], ['B'], ['B'], ['B'], -1, 8⟩]⟩,
      ⟨['B'], 8, [⟨['a'], ['A'], ['A'], ['A'], 0, 8⟩]⟩, ⟨['C'], -1, []⟩]
  enums := [⟨['E'], [⟨['X'], -1⟩, ⟨['Y'], -1⟩]⟩]
  typedefs := [⟨['T'], ['i', 'n', 't'], false, [], []⟩, ⟨['F'], ['v'], true, [], [['B']]⟩]
  functions := [⟨['f'], [], [['B'], ['T']]⟩]
  constants := [⟨['K'], ['"', '\\']⟩]

theorem cyclicTree_plain : cyclicTree.Plain where
  records := List.forall_mem_cons.mpr
    ⟨⟨by decide, List.forall_mem_singleton.mpr ⟨by decide, by decide, by decide⟩⟩,
      List.forall_mem_cons.mpr
        ⟨⟨by decide, List.forall_mem_singleton.mpr ⟨by decide, by decide, by decide⟩⟩,
          List.forall_mem_singleton.mpr ⟨by decide, List.forall_mem_nil _⟩⟩⟩
  enums := List.forall_mem_singleton.mpr ⟨by decide, List.forall_mem_cons.mpr
    ⟨⟨by decide, by decide⟩, List.forall_mem_singleton.mpr ⟨by decide, by decide⟩⟩⟩
  typedefs := List.forall_mem_cons.mpr ⟨⟨by decide, by decide, by decide, by decide⟩,
    List.forall_mem_singleton.mpr ⟨by decide, by decide, by decide, by decide⟩⟩
  functions := List.forall_mem_singleton.mpr ⟨by decide, by decide, by decide⟩
  constants := List.forall_mem_singleton.mpr ⟨by decide, by decide⟩

theorem generators_agree_cyclic : topoSort visitTree cyclicTree.records = some [1, 0, 2] ∧
    ∃ defs pools text, emitTree cyclicTree = some defs ∧ readPools defs = some pools ∧
      buildInto pools = some text ∧ emitPython cyclicTree = some text :=
  ⟨by decide, generators_agree cyclicTree_plain⟩

end Ycetl.Ref.Webgpu
