import Ycetl.Ref.PyModule

/-!
# What is found in a header

Every cursor adds what it adds to the tree whatever came before it, so the tree
is put together from what the single cursors give.
-/

namespace Ycetl.Ref.Webgpu

open Ycetl.Lib

variable (T : Target)

/-- What a cursor adds. -/
def found (c : Cursor) : ApiTree := tuVisitor T ⟨[], [], [], [], []⟩ c

def ApiTree.append (t u : ApiTree) : ApiTree where
  records := t.records ++ u.records
  enums := t.enums ++ u.enums
  typedefs := t.typedefs ++ u.typedefs
  functions := t.functions ++ u.functions
  constants := t.constants ++ u.constants

theorem ApiTree.append_nil (t : ApiTree) : t.append ⟨[], [], [], [], []⟩ = t := by
  simp [ApiTree.append]

theorem tuVisitor_eq (tree : ApiTree) (c : Cursor) :
    tuVisitor T tree c = tree.append (found T c) := by
  cases c with
  | structDecl s =>
      simp only [found, tuVisitor, visitStruct]
      split
      · exact tree.append_nil.symm
      · split
        · exact tree.append_nil.symm
        · split
          · exact tree.append_nil.symm
          · simp [ApiTree.append]
  | enumDecl e =>
      simp only [found, tuVisitor, visitEnum]
      split
      · exact tree.append_nil.symm
      · split
        · exact tree.append_nil.symm
        · split
          · exact tree.append_nil.symm
          · simp [ApiTree.append]
  | typedefDecl t =>
      simp only [found, tuVisitor, visitTypedef]
      split
      · exact tree.append_nil.symm
      · simp [ApiTree.append]
  | functionDecl f =>
      simp only [found, tuVisitor, visitFunction]
      split
      · exact tree.append_nil.symm
      · simp [ApiTree.append]
  | varDecl v =>
      simp only [found, tuVisitor, visitConstant]
      split
      · exact tree.append_nil.symm
      · split
        · exact tree.append_nil.symm
        · split
          · exact tree.append_nil.symm
          · simp [ApiTree.append]
          · exact tree.append_nil.symm
  | macroDefinition d =>
      simp only [found, tuVisitor, visitMacro]
      split
      · simp [ApiTree.append]
      · exact tree.append_nil.symm
  | other => exact tree.append_nil.symm

theorem collect_eq (cursors : List Cursor) : collect T cursors =
    { records := cursors.flatMap fun c => (found T c).records
      enums := cursors.flatMap fun c => (found T c).enums
      typedefs := cursors.flatMap fun c => (found T c).typedefs
      functions := cursors.flatMap fun c => (found T c).functions
      constants := cursors.flatMap fun c => (found T c).constants } := by
  have hfold : ∀ tree : ApiTree, cursors.foldl (tuVisitor T) tree = tree.append
      { records := cursors.flatMap fun c => (found T c).records
        enums := cursors.flatMap fun c => (found T c).enums
        typedefs := cursors.flatMap fun c => (found T c).typedefs
        functions := cursors.flatMap fun c => (found T c).functions
        constants := cursors.flatMap fun c => (found T c).constants } := by
    induction cursors with
    | nil => exact fun tree => tree.append_nil.symm
    | cons c cursors ih =>
        intro tree
        rw [List.foldl_cons, ih, tuVisitor_eq]
        simp [ApiTree.append]
  rw [collect, hfold]
  simp [ApiTree.append]

/-! ## What the single cursors add -/

theorem found_structDecl (s : StructCursor) : found T (.structDecl s) =
    ⟨if s.fromMainHeader ∧ s.spelling ≠ [] ∧ s.isDefinition then [recordInfo T s] else [],
      [], [], [], []⟩ := by
  simp only [found, tuVisitor, visitStruct]
  split_ifs <;> simp_all

theorem found_enumDecl (e : EnumCursor) : ∃ es, found T (.enumDecl e) = ⟨[], es, [], [], []⟩ := by
  simp only [found, tuVisitor, visitEnum]
  split_ifs <;> exact ⟨_, rfl⟩

theorem found_typedefDecl (t : TypedefCursor) :
    ∃ ts, found T (.typedefDecl t) = ⟨[], [], ts, [], []⟩ := by
  simp only [found, tuVisitor, visitTypedef]
  split_ifs <;> exact ⟨_, rfl⟩

theorem found_functionDecl (f : FunctionCursor) : found T (.functionDecl f) =
    ⟨[], [], [], if f.fromMainHeader then
      [⟨f.spelling, ctypesFor T f.result, f.args.map (ctypesFor T)⟩] else [], []⟩ := by
  simp only [found, tuVisitor, visitFunction]
  split_ifs <;> simp_all

theorem found_varDecl (v : VarCursor) :
    ∃ cs, found T (.varDecl v) = ⟨[], [], [], [], cs⟩ := by
  simp only [found, tuVisitor, visitConstant]
  split_ifs
  · exact ⟨_, rfl⟩
  · exact ⟨_, rfl⟩
  · split <;> exact ⟨_, rfl⟩

theorem found_macroDefinition (d : MacroDefinition) :
    ∃ cs, found T (.macroDefinition d) = ⟨[], [], [], [], cs⟩ := by
  simp only [found, tuVisitor, visitMacro]
  split <;> exact ⟨_, rfl⟩

/-! ## The declarations that are recorded -/

/-- A constant is a variable, written in decimals, or a macro. -/
theorem constants_collect {cursors : List Cursor} {c : ConstantInfo}
    (h : c ∈ (collect T cursors).constants) : (∃ v : Int, c.value = decimal v) ∨
      ∃ d, .macroDefinition d ∈ cursors ∧ macroConstant d = some c := by
  rw [collect_eq, List.mem_flatMap] at h
  obtain ⟨cursor, hcursor, hc⟩ := h
  cases cursor with
  | structDecl s =>
      rw [found_structDecl] at hc
      cases hc
  | enumDecl e =>
      obtain ⟨es, he⟩ := found_enumDecl T e
      rw [he] at hc
      cases hc
  | typedefDecl t =>
      obtain ⟨ts, ht⟩ := found_typedefDecl T t
      rw [ht] at hc
      cases hc
  | functionDecl f =>
      rw [found_functionDecl] at hc
      cases hc
  | varDecl v =>
      simp only [found, tuVisitor, visitConstant] at hc
      split_ifs at hc
      · cases hc
      · cases hc
      · split at hc
        · cases hc
        · rw [List.mem_singleton.mp hc]
          exact .inl ⟨_, rfl⟩
        · cases hc
  | macroDefinition d =>
      simp only [found, tuVisitor, visitMacro] at hc
      split at hc
      · next hd =>
          rw [List.mem_singleton.mp hc]
          exact .inr ⟨d, hcursor, hd⟩
      · cases hc
  | other => cases hc

theorem records_collect (cursors : List Cursor) :
    (collect T cursors).records = (definitions cursors).map (recordInfo T) := by
  rw [collect_eq, definitions, List.map_filterMap, List.filterMap_eq_flatMap_toList]
  refine congrArg (cursors.flatMap ·) (funext fun c => ?_)
  cases c with
  | structDecl s =>
      rw [found_structDecl]
      dsimp only
      split <;> rfl
  | enumDecl e =>
      obtain ⟨es, he⟩ := found_enumDecl T e
      rw [he]
      rfl
  | typedefDecl t =>
      obtain ⟨ts, ht⟩ := found_typedefDecl T t
      rw [ht]
      rfl
  | functionDecl f =>
      rw [found_functionDecl]
      rfl
  | varDecl v =>
      obtain ⟨cs, hv⟩ := found_varDecl T v
      rw [hv]
      rfl
  | macroDefinition d =>
      obtain ⟨cs, hd⟩ := found_macroDefinition T d
      rw [hd]
      rfl
  | other => rfl

theorem functions_collect (cursors : List Cursor) :
    (collect T cursors).functions = (functionDecls cursors).map fun f =>
      ⟨f.spelling, ctypesFor T f.result, f.args.map (ctypesFor T)⟩ := by
  rw [collect_eq, functionDecls, List.map_filterMap, List.filterMap_eq_flatMap_toList]
  refine congrArg (cursors.flatMap ·) (funext fun c => ?_)
  cases c with
  | structDecl s =>
      rw [found_structDecl]
      rfl
  | enumDecl e =>
      obtain ⟨es, he⟩ := found_enumDecl T e
      rw [he]
      rfl
  | typedefDecl t =>
      obtain ⟨ts, ht⟩ := found_typedefDecl T t
      rw [ht]
      rfl
  | functionDecl f =>
      rw [found_functionDecl]
      dsimp only
      split <;> rfl
  | varDecl v =>
      obtain ⟨cs, hv⟩ := found_varDecl T v
      rw [hv]
      rfl
  | macroDefinition d =>
      obtain ⟨cs, hd⟩ := found_macroDefinition T d
      rw [hd]
      rfl
  | other => rfl

/-- The types of a callback are those of a prototype in the header. -/
theorem callback_collect {cursors : List Cursor} {t : TypedefInfo}
    (ht : t ∈ (collect T cursors).typedefs) (hcallback : t.isCallback = true) :
    ∃ sig ∈ signatures cursors, t.callbackRet = ctypesFor T sig.1 ∧
      t.callbackArgs = sig.2.map (ctypesFor T) := by
  rw [collect_eq] at ht
  obtain ⟨c, hc, ht⟩ := List.mem_flatMap.mp ht
  cases c with
  | structDecl s =>
      rw [found_structDecl] at ht
      cases ht
  | enumDecl e =>
      obtain ⟨es, he⟩ := found_enumDecl T e
      rw [he] at ht
      cases ht
  | typedefDecl decl =>
      simp only [found, tuVisitor, visitTypedef] at ht
      split at ht
      · cases ht
      · next hmain =>
          rw [Bool.not_eq_true, Bool.not_eq_false'] at hmain
          have hdecl : decl ∈ typedefDecls cursors :=
            List.mem_filterMap.mpr ⟨_, hc, if_pos hmain⟩
          split at ht
          · next result args hproto =>
              cases List.mem_singleton.mp ht
              have hsig := List.mem_filterMap.mpr ⟨decl, hdecl, hproto⟩
              exact ⟨(result, args), List.mem_append_right _ hsig, rfl, rfl⟩
          · cases List.mem_singleton.mp ht
            cases hcallback
  | functionDecl f =>
      rw [found_functionDecl] at ht
      cases ht
  | varDecl v =>
      obtain ⟨cs, hv⟩ := found_varDecl T v
      rw [hv] at ht
      cases ht
  | macroDefinition d =>
      obtain ⟨cs, hd⟩ := found_macroDefinition T d
      rw [hd] at ht
      cases ht
  | other => cases ht

/-! ## The sorted tree -/

/-- To shuffle what a function gives is to shuffle what it is given. -/
theorem exists_map_of_perm {α β : Type} {f : α → β} {l' : List β} {l : List α}
    (h : l'.Perm (l.map f)) : ∃ k : List α, k.Perm l ∧ l' = k.map f := by
  have hmap : List.Forall₂ (fun b a => b = f a) (l.map f) l :=
    List.forall₂_map_left_iff.mpr (List.forall₂_same.mpr fun _ _ => rfl)
  obtain ⟨k, hall, hperm⟩ := List.perm_comp_forall₂ h hmap
  refine ⟨k, hperm, List.forall₂_eq_eq_eq ▸ ?_⟩
  exact List.forall₂_map_right_iff.mpr hall

/-- The sorted tree has the same declarations. -/
theorem declarations_sorted {T : Target} {cursors : List Cursor} {tree : ApiTree}
    (h : (collect T cursors).SortsTo tree) :
    ∃ (ss : List StructCursor) (fs : List FunctionCursor),
      ss.Perm (definitions cursors) ∧ tree.records = ss.map (recordInfo T) ∧
      fs.Perm (functionDecls cursors) ∧ tree.functions = fs.map fun f =>
        ⟨f.spelling, ctypesFor T f.result, f.args.map (ctypesFor T)⟩ := by
  obtain ⟨ss, hss, hrecords⟩ := exists_map_of_perm (records_collect T cursors ▸ h.records.perm)
  obtain ⟨fs, hfs, hfunctions⟩ :=
    exists_map_of_perm (functions_collect T cursors ▸ h.functions.perm)
  exact ⟨ss, fs, hss, hrecords, hfs, hfunctions⟩

/-! ## The order of the declarations -/

theorem found_skipped {c : Cursor} (h : c.Skipped) : found T c = ⟨[], [], [], [], []⟩ := by
  cases c with
  | structDecl s =>
      rw [found_structDecl, if_neg]
      rintro ⟨hmain, hname, hdef⟩
      rcases h with h | h | h
      · exact absurd hmain (by rw [h]; decide)
      · exact hname h
      · exact absurd hdef (by rw [h]; decide)
  | enumDecl e =>
      simp only [found, tuVisitor, visitEnum]
      rcases h with h | h | h <;> simp [h]
  | typedefDecl t =>
      have h : t.fromMainHeader = false := h
      simp only [found, tuVisitor, visitTypedef]
      simp [h]
  | functionDecl f =>
      have h : f.fromMainHeader = false := h
      rw [found_functionDecl, if_neg (by rw [h]; decide)]
  | varDecl v =>
      simp only [found, tuVisitor, visitConstant]
      rcases h with h | h | h | h <;> simp [h]
  | macroDefinition d =>
      have h : macroConstant d = none := h
      simp only [found, tuVisitor, visitMacro, h]
  | other => rfl

/-- There is one way to sort. -/
theorem SortsTo.unique {α : Type} {name : α → Text} {l l' m m' : List α} (hperm : l'.Perm l)
    (hnamed : Named name l) (h : SortsTo name l m) (h' : SortsTo name l' m') : m' = m := by
  have hm' : m'.Perm l := h'.perm.trans hperm
  refine List.Perm.eq_of_pairwise (fun a b ha hb hab hba => ?_) h'.sorted h.sorted
    (hm'.trans h.perm.symm)
  exact hnamed a (hm'.mem_iff.mp ha) b (h.perm.mem_iff.mp hb)
    (List.le_antisymm (List.not_lt.mp hab) (List.not_lt.mp hba))

/-- What is found in the same cursors, in another order and among others that are
skipped. -/
theorem flatMap_found_perm {α : Type} {cursors cursors' skipped : List Cursor}
    (hperm : cursors'.Perm (cursors ++ skipped)) (hskipped : ∀ c ∈ skipped, c.Skipped)
    (part : ApiTree → List α) (hpart : part ⟨[], [], [], [], []⟩ = []) :
    (cursors'.flatMap fun c => part (found T c)).Perm
      (cursors.flatMap fun c => part (found T c)) := by
  have hnone : skipped.flatMap (fun c => part (found T c)) = [] :=
    List.flatMap_eq_nil_iff.mpr fun c hc => by rw [found_skipped T (hskipped c hc), hpart]
  have hall := hperm.flatMap_right fun c => part (found T c)
  rw [List.flatMap_append, hnone, List.append_nil] at hall
  exact hall

/-- The order of the declarations, and what is skipped among them, do not show
in the sorted tree, nor in the two files that are written from it. -/
theorem files_of_any_order {decls cursors cursors' skipped skipped' : List Cursor}
    {tree tree' : ApiTree} (hperm : cursors.Perm (decls ++ skipped))
    (hperm' : cursors'.Perm (decls ++ skipped')) (hskipped : ∀ c ∈ skipped, c.Skipped)
    (hskipped' : ∀ c ∈ skipped', c.Skipped) (hnamed : (collect T cursors).Named)
    (h : (collect T cursors).SortsTo tree) (h' : (collect T cursors').SortsTo tree') :
    tree' = tree ∧ emitPython tree' = emitPython tree ∧ emitTree tree' = emitTree tree := by
  have hsame : ∀ {α : Type} (part : ApiTree → List α), part ⟨[], [], [], [], []⟩ = [] →
      (cursors'.flatMap fun c => part (found T c)).Perm
        (cursors.flatMap fun c => part (found T c)) := fun part hpart =>
    (flatMap_found_perm T hperm' hskipped' part hpart).trans
      (flatMap_found_perm T hperm hskipped part hpart).symm
  have heq := collect_eq T cursors
  have heq' := collect_eq T cursors'
  have hrecords : tree'.records = tree.records := SortsTo.unique
    (by rw [heq, heq']; exact hsame ApiTree.records rfl) hnamed.records h.records h'.records
  have henums : tree'.enums = tree.enums := SortsTo.unique
    (by rw [heq, heq']; exact hsame ApiTree.enums rfl) hnamed.enums h.enums h'.enums
  have htypedefs : tree'.typedefs = tree.typedefs := SortsTo.unique
    (by rw [heq, heq']; exact hsame ApiTree.typedefs rfl)
    hnamed.typedefs h.typedefs h'.typedefs
  have hfunctions : tree'.functions = tree.functions := SortsTo.unique
    (by rw [heq, heq']; exact hsame ApiTree.functions rfl)
    hnamed.functions h.functions h'.functions
  have hconstants : tree'.constants = tree.constants := SortsTo.unique
    (by rw [heq, heq']; exact hsame ApiTree.constants rfl)
    hnamed.constants h.constants h'.constants
  have htree : tree' = tree := by
    cases tree
    cases tree'
    cases hrecords
    cases henums
    cases htypedefs
    cases hfunctions
    cases hconstants
    rfl
  exact ⟨htree, by rw [htree], by rw [htree]⟩

/-- `const int A = 1; typedef int T;`, where `T` is of another header, and
`const int B = 2;` -/
def constantsAB : List Cursor :=
  [.varDecl ⟨true, "A".toList, true, some (.int 1)⟩,
    .typedefDecl ⟨false, "T".toList, .builtin .int, "int".toList⟩,
    .varDecl ⟨true, "B".toList, true, some (.int 2)⟩]

/-- `const int B = 2; const int A = 1; struct S;` -/
def constantsBA : List Cursor :=
  [.varDecl ⟨true, "B".toList, true, some (.int 2)⟩,
    .varDecl ⟨true, "A".toList, true, some (.int 1)⟩,
    .structDecl ⟨true, "S".toList, false, .record "S".toList none, []⟩]

/-- Both give this tree. -/
def constantsTree : ApiTree :=
  ⟨[], [], [], [], [⟨"A".toList, "1".toList⟩, ⟨"B".toList, "2".toList⟩]⟩

theorem constantsAB_sorts : (collect lp64 constantsAB).SortsTo (collect lp64 constantsAB) :=
  ⟨⟨.refl _, .nil⟩, ⟨.refl _, .nil⟩, ⟨.refl _, .nil⟩, ⟨.refl _, .nil⟩,
    ⟨.refl _, List.pairwise_pair.mpr (by decide)⟩⟩

theorem constantsBA_sorts : (collect lp64 constantsBA).SortsTo constantsTree :=
  ⟨⟨.refl _, .nil⟩, ⟨.refl _, .nil⟩, ⟨.refl _, .nil⟩, ⟨.refl _, .nil⟩,
    ⟨List.Perm.swap _ _ [], List.pairwise_pair.mpr (by decide)⟩⟩

theorem files_of_any_order_constants :
    emitPython constantsTree = emitPython (collect lp64 constantsAB) := by
  have hperm : constantsAB.Perm ([.varDecl ⟨true, "A".toList, true, some (.int 1)⟩,
      .varDecl ⟨true, "B".toList, true, some (.int 2)⟩] ++
      [.typedefDecl ⟨false, "T".toList, .builtin .int, "int".toList⟩]) := .cons _ (.swap _ _ _)
  have hperm' : constantsBA.Perm ([.varDecl ⟨true, "A".toList, true, some (.int 1)⟩,
      .varDecl ⟨true, "B".toList, true, some (.int 2)⟩] ++
      [.structDecl ⟨true, "S".toList, false, .record "S".toList none, []⟩]) := .swap _ _ _
  refine (files_of_any_order lp64 hperm hperm' (fun c hc => ?_) (fun c hc => ?_)
    ⟨?_, ?_, ?_, ?_, fun a ha b hb hab => ?_⟩ constantsAB_sorts constantsBA_sorts).2.1
  · rw [List.mem_singleton.mp hc]
    rfl
  · rw [List.mem_singleton.mp hc]
    exact Or.inr (Or.inr rfl)
  · exact fun a ha => absurd ha List.not_mem_nil
  · exact fun a ha => absurd ha List.not_mem_nil
  · exact fun a ha => absurd ha List.not_mem_nil
  · exact fun a ha => absurd ha List.not_mem_nil
  · rcases List.mem_pair.mp ha with rfl | rfl <;> rcases List.mem_pair.mp hb with rfl | rfl
    · rfl
    · exact absurd hab (by decide)
    · exact absurd hab (by decide)
    · rfl

end Ycetl.Ref.Webgpu
