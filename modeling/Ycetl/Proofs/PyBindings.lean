import Ycetl.Proofs.HeaderTree
import Ycetl.Proofs.PyNames

/-!
# The bindings keep the layouts of the header

Once all tables are run, the types of the callbacks and of the functions are
evaluated, and each of them is a type of the extent that it has in C, or `None`
where nothing is returned.
-/

namespace Ycetl.Ref.Webgpu

open Ycetl.Lib Relation

variable {T : Target} {ss : List StructCursor} {done : List Nat} {m m' : PyModule}

/-! ## Evaluation changes classes only -/

/-- Only the classes have changed. -/
structure PyModule.Same (m m' : PyModule) : Prop where
  names : m'.names = m.names
  functions : m'.functions = m.functions

theorem PyModule.Same.refl (m : PyModule) : m.Same m := ⟨rfl, rfl⟩

theorem PyModule.Same.trans {m'' : PyModule} (h : m.Same m') (h' : m'.Same m'') : m.Same m'' :=
  ⟨h'.names.trans h.names, h'.functions.trans h.functions⟩

theorem PyModule.Same.remembers (h : m.Same m') : m.Remembers m' := by
  intro s hs
  rw [PyModule.lookup] at hs ⊢
  rw [h.names]
  exact hs

theorem layout_same {v : PyValue} {e : Extent} (h : m.layout v = some (e, m')) : m.Same m' := by
  match v with
  | .none => cases h
  | .other => cases h
  | .simple x => cases h; exact .refl m
  | .array x => cases h; exact .refl m
  | .structure k =>
      rw [PyModule.layout, Option.bind_eq_bind, Option.bind_eq_some_iff] at h
      obtain ⟨c, -, h⟩ := h
      cases h
      exact ⟨rfl, rfl⟩

theorem eval_same {ty : CType} {v : PyValue} (h : m.eval ty = some (v, m')) : m.Same m' := by
  induction ty generalizing v m' with
  | named s =>
      rw [PyModule.eval, Option.map_eq_some_iff] at h
      obtain ⟨w, -, h⟩ := h
      cases h
      exact .refl m
  | array n elem ih =>
      rw [PyModule.eval, Option.bind_eq_bind, Option.bind_eq_some_iff] at h
      obtain ⟨⟨w, m₁⟩, heval, h⟩ := h
      rw [Option.bind_eq_bind, Option.bind_eq_some_iff] at h
      obtain ⟨⟨e, m₂⟩, hlayout, h⟩ := h
      cases h
      exact (ih heval).trans (layout_same hlayout)

theorem evalText_same {text : Text} {v : PyValue} (h : m.evalText text = some (v, m')) :
    m.Same m' := by
  rw [PyModule.evalText, Option.bind_eq_bind, Option.bind_eq_some_iff] at h
  obtain ⟨ty, -, h⟩ := h
  exact eval_same h

theorem evalAll_same {texts : List Text} {vs : List PyValue}
    (h : m.evalAll texts = some (vs, m')) : m.Same m' := by
  induction texts generalizing m vs with
  | nil => cases h; exact .refl _
  | cons text texts ih =>
      rw [PyModule.evalAll, Option.bind_eq_bind, Option.bind_eq_some_iff] at h
      obtain ⟨⟨v, m₁⟩, hv, h⟩ := h
      rw [Option.bind_eq_bind, Option.bind_eq_some_iff] at h
      obtain ⟨⟨vs', m₂⟩, hvs, h⟩ := h
      cases h
      exact (evalText_same hv).trans (ih hvs)

/-! ## Signatures -/

theorem ctypesFor_ne_nil (T : Target) (t : CXType) : ctypesFor T t ≠ [] := by
  fun_induction ctypesFor T t with
  | case1 kind => cases kind <;> decide
  | case2 => decide
  | case3 integer ih => exact ih
  | case4 e sizeBytes => simp
  | case5 name e hname => exact hname
  | case6 elem n ih => simp [ih]
  | case7 c ih => exact ih
  | case8 t =>
      rw [ctypesOfSize]
      split_ifs <;> decide

theorem ctypesFor_void {t : CXType} (h : t.canonical = .builtin .void) :
    ctypesFor T t = "None".toList := by
  fun_induction CXType.canonical t with
  | case1 c ih => exact ih h
  | case2 t hsugar => rw [h]; rfl

/-- What stands for a result or a parameter in the signature of a function. -/
def Passes (T : Target) (ss : List StructCursor) (done : List Nat) (t : CXType) (v : PyValue) :
    Prop :=
  t.canonical = .builtin .void ∧ v = .none ∨ ∃ e, t.extent T = some e ∧ Extends T ss done v e

theorem passes_all {ts : List CXType} {vs : List PyValue} {es : List Extent}
    (hes : ts.map (CXType.extent T) = es.map some)
    (h : List.Forall₂ (Extends T ss done) vs es) : List.Forall₂ (Passes T ss done) ts vs := by
  induction h generalizing ts with
  | nil => rw [List.map_eq_nil_iff.mp hes]; exact .nil
  | cons hv _ ih =>
      obtain ⟨t, ts, rfl, ht, hts⟩ := List.map_eq_cons_iff.mp hes
      exact .cons (Or.inr ⟨_, ht, hv⟩) (ih hts)

section

variable (hwords : ∀ s ∈ ss, Word s.spelling) (hlaid : ∀ s ∈ ss, ∃ es, s.Laid T es)

include hwords hlaid

theorem eval_result (h : Tables T ss done m) {t : CXType}
    (ht : t.canonical = .builtin .void ∨ t.Kept T) (havail : Available T ss done t) : ∃ v m',
      m.evalText (Python.orNone (ctypesFor T t)) = some (v, m') ∧ Tables T ss done m' ∧
        Passes T ss done t v := by
  rw [Python.orNone, if_neg (ctypesFor_ne_nil T t)]
  rcases ht with hvoid | hkept
  · refine ⟨.none, m, ?_, h, Or.inl ⟨hvoid, rfl⟩⟩
    rw [ctypesFor_void hvoid, PyModule.evalText, readCtypes_word (by decide)]
    rfl
  · obtain ⟨e, v, m', he, heval, h', hv⟩ := evaluates_text hwords hlaid h hkept havail
    exact ⟨v, m', heval, h', Or.inr ⟨e, he, hv⟩⟩

theorem exec_callback (h : Tables T ss done m) {t : TypedefInfo}
    {sig : CXType × List CXType} (hret : t.callbackRet = ctypesFor T sig.1)
    (hargs : t.callbackArgs = sig.2.map (ctypesFor T))
    (hresult : sig.1.canonical = .builtin .void ∨ sig.1.Kept T) (hkept : ∀ t ∈ sig.2, t.Kept T)
    (havail : ∀ t ∈ sig.1 :: sig.2, Available T ss done t)
    (hname : Python.isName t.name = true)
    (himported : t.name ∉ (PyModule.imported T).map Prod.fst)
    (htag : t.name ∉ ss.map StructCursor.spelling) : ∃ m',
      Python.Statement.exec T m (.callback t) = some m' ∧ Tables T ss done m' ∧
        m.Remembers m' := by
  rw [Python.Statement.exec]
  split
  · obtain ⟨v, m₁, hv, h₁, -⟩ := eval_result hwords hlaid h hresult
      (havail _ List.mem_cons_self)
    obtain ⟨vs, es, m₂, hvs, h₂, -, -⟩ := evalAll_spec hwords hlaid h₁ hkept
      fun t ht => havail t (List.mem_cons_of_mem _ ht)
    refine ⟨m₂.bind t.name .other, ?_, h₂.bind himported htag, ?_⟩
    · rw [hret, hargs, hv]
      show (m₁.evalAll _).bind _ = _
      rw [hvs]
      exact assign_eq hname m₂ _
    · have hsame := (evalText_same hv).trans (evalAll_same hvs)
      exact hsame.remembers.trans (remembers_bind m₂ _ _)
  · exact ⟨m, rfl, h, .refl m⟩

/-- A row of the table of functions. -/
structure Row (T : Target) (ss : List StructCursor) (done : List Nat) (f : FunctionCursor)
    (row : Text × PyValue × List PyValue) : Prop where
  name : row.1 = f.spelling
  result : Passes T ss done f.result row.2.1
  args : List.Forall₂ (Passes T ss done) f.args row.2.2

theorem exec_functionRow (h : Tables T ss done m) {f : FunctionCursor}
    (hresult : f.result.canonical = .builtin .void ∨ f.result.Kept T)
    (hkept : ∀ t ∈ f.args, t.Kept T) (havail : ∀ t ∈ f.result :: f.args, Available T ss done t) :
    ∃ m' row, Python.Statement.functionRow m
        ⟨f.spelling, ctypesFor T f.result, f.args.map (ctypesFor T)⟩ = some m' ∧
      Tables T ss done m' ∧ m'.functions = m.functions ++ [row] ∧ Row T ss done f row := by
  obtain ⟨v, m₁, hv, h₁, hpass⟩ := eval_result hwords hlaid h hresult
    (havail _ List.mem_cons_self)
  obtain ⟨vs, es, m₂, hvs, h₂, hes, hextends⟩ := evalAll_spec hwords hlaid h₁ hkept
    fun t ht => havail t (List.mem_cons_of_mem _ ht)
  refine ⟨{ m₂ with functions := m₂.functions ++ [(f.spelling, v, vs)] }, (f.spelling, v, vs),
    ?_, ⟨⟨h₂.names.imported, h₂.names.tags⟩, h₂.length, h₂.shows, h₂.bare⟩, ?_, rfl, hpass, ?_⟩
  · rw [Python.Statement.functionRow]
    show (m.evalText (Python.orNone (ctypesFor T f.result))).bind _ = _
    rw [hv]
    show (m₁.evalAll (f.args.map (ctypesFor T))).bind _ = _
    rw [hvs]
    rfl
  · show m₂.functions ++ _ = _
    rw [((evalText_same hv).trans (evalAll_same hvs)).functions]
  · exact passes_all hes hextends

theorem exec_functions {fs : List FunctionCursor}
    (hresult : ∀ f ∈ fs, f.result.canonical = .builtin .void ∨ f.result.Kept T)
    (hkept : ∀ f ∈ fs, ∀ t ∈ f.args, t.Kept T)
    (havail : ∀ f ∈ fs, ∀ t ∈ f.result :: f.args, Available T ss done t)
    (h : Tables T ss done m) : ∃ m' rows,
      (fs.map fun f : FunctionCursor =>
        (⟨f.spelling, ctypesFor T f.result, f.args.map (ctypesFor T)⟩ : FuncInfo)).foldlM
          Python.Statement.functionRow m = some m' ∧
      Tables T ss done m' ∧ m'.functions = m.functions ++ rows ∧
      List.Forall₂ (Row T ss done) fs rows := by
  induction fs generalizing m with
  | nil => exact ⟨m, [], rfl, h, (List.append_nil _).symm, .nil⟩
  | cons f fs ih =>
      obtain ⟨m₁, row, hexec, h₁, happend, hrow⟩ := exec_functionRow hwords hlaid h
        (hresult f List.mem_cons_self) (hkept f List.mem_cons_self)
        (havail f List.mem_cons_self)
      obtain ⟨m', rows, hrun, h', hrest, hrows⟩ := ih
        (fun g hg => hresult g (List.mem_cons_of_mem f hg))
        (fun g hg => hkept g (List.mem_cons_of_mem f hg))
        (fun g hg => havail g (List.mem_cons_of_mem f hg)) h₁
      refine ⟨m', row :: rows, ?_, h', ?_, .cons hrow hrows⟩
      · rw [List.map_cons, List.foldlM_cons, hexec]
        exact hrun
      · rw [hrest, happend, List.append_assoc]
        rfl

end

/-! ## The text -/

theorem text_constants (cs : List ConstantInfo) :
    (Python.constantStatements cs).flatMap Python.Statement.text = Python.constants cs := by
  rw [Python.constantStatements, Python.constants]
  split
  · rfl
  · rw [List.cons_append, List.flatMap_cons, List.flatMap_append, List.flatMap_map,
      List.flatMap_singleton, List.append_assoc]
    rfl

theorem text_aliases (pm : PyTypeMap) (t : TypedefInfo) :
    (Python.aliasStatements pm t).flatMap Python.Statement.text = Python.aliasLine pm t := by
  rw [Python.aliasStatements, Python.aliasLine]
  split
  · next hnames => exact (if_pos ((any_names_iff pm t.name).mp hnames)).symm
  · next hnames =>
    rw [if_neg fun h => hnames ((any_names_iff pm t.name).mpr h)]
    split
    · rfl
    · cases pm.typedefToCtypes.lookup t.name with
      | none => rfl
      | some c =>
          rw [Option.elim_some]
          split
          · next hsame => exact (if_pos hsame).symm
          · next hother => exact (List.flatMap_singleton ..).trans (if_neg hother).symm

/-- The statements are what `emit_python` writes. -/
theorem emitPython_statements {tree : ApiTree} {order : List Nat} {tables : List RecordInfo}
    (horder : topoSort visitPython tree.records = some order)
    (htexts : order.mapM (fun i => (tree.records[i]?).map Python.fieldTable) =
      some (tables.map Python.fieldTable)) :
    emitPython tree = some ((Python.statements tree tables).flatMap Python.Statement.text) := by
  have haliases : (tree.typedefs.flatMap (Python.aliasStatements (buildPyMap tree))).flatMap
      Python.Statement.text = tree.typedefs.flatMap (Python.aliasLine (buildPyMap tree)) := by
    rw [List.flatMap_assoc]
    exact congrArg (tree.typedefs.flatMap ·) (funext (text_aliases _))
  have hgap : ∀ text, (Python.Statement.gap text).text = text := fun _ => rfl
  have hfunctions : (Python.Statement.functions tree.functions).text = "_FUNCTIONS = [\n".toList ++
      tree.functions.flatMap Python.function ++ "]\n\n".toList := rfl
  have himports : Python.Statement.imports.text = Python.prelude := rfl
  have hloader : Python.Statement.loader.text = Python.load := rfl
  have henums : (tree.enums.map Python.Statement.enumClass).flatMap Python.Statement.text =
      tree.enums.flatMap Python.enumClass := List.flatMap_map ..
  have hstubs : (tree.records.map Python.Statement.stub).flatMap Python.Statement.text =
      tree.records.flatMap Python.stub := List.flatMap_map ..
  have htables : (tables.map Python.Statement.fieldTable).flatMap Python.Statement.text =
      (tables.map Python.fieldTable).flatten := List.flatMap_map ..
  have hcallbacks : (tree.typedefs.map Python.Statement.callback).flatMap Python.Statement.text =
      tree.typedefs.flatMap Python.callback := List.flatMap_map ..
  rw [emitPython, horder, Python.statements]
  simp only [Option.bind_eq_bind, Option.bind_some, htexts, List.flatMap_append,
    List.flatMap_cons, List.cons_append, henums, hstubs, htables, hcallbacks, haliases, hgap,
    hfunctions, himports, hloader, text_constants, List.flatMap_nil, List.append_nil,
    List.append_assoc]

/-! ## The order of the tables -/

theorem recordDependency_eq {t : CXType} (h : recordDependency t ≠ []) :
    ∃ e, t.innermost = .record (recordDependency t) e := by
  rw [recordDependency] at h ⊢
  split
  · next tag e htag => exact ⟨e, htag⟩
  · next hnot =>
      split at h
      · next tag e htag => exact absurd htag (hnot tag e)
      · exact absurd rfl h

section

variable {cursors : List Cursor} (hvalid : ValidHeader T cursors)
  (hss : ss.Perm (definitions cursors))

include hvalid hss

theorem nodup_spellings : (ss.map StructCursor.spelling).Nodup :=
  (hss.map _).nodup_iff.mpr hvalid.once

theorem lookup_spelling {k : Nat} {s : StructCursor} (hs : ss[k]? = some s) :
    (recordIdx (ss.map (recordInfo T))).lookup s.spelling = some k := by
  have hnd : ((ss.map (recordInfo T)).map (·.name)).Nodup := by
    rw [List.map_map]
    exact nodup_spellings hvalid hss
  exact lookup_own_name hnd (r := recordInfo T s) (by rw [List.getElem?_map, hs]; rfl)

/-- A record that is embedded is defined before the one that embeds it. -/
theorem embeds_earlier {i j : Nat} (h : Embeds (ss.map (recordInfo T)) i j) :
    ∃ pre s post s', ss[i]? = some s ∧ ss[j]? = some s' ∧
      definitions cursors = pre ++ s :: post ∧ s' ∈ pre := by
  obtain ⟨r, f, hr, hf, hne, hlook⟩ := h
  rw [List.getElem?_map, Option.map_eq_some_iff] at hr
  obtain ⟨s, hs, rfl⟩ := hr
  obtain ⟨g, hg, rfl⟩ := List.mem_map.mp hf
  obtain ⟨pre, post, heq⟩ := List.append_of_mem (hss.mem_iff.mp (List.mem_of_getElem? hs))
  obtain ⟨e, hinner⟩ := recordDependency_eq hne
  obtain ⟨s', hs', hname, -⟩ := hvalid.complete pre s post heq g hg _ e hinner hne
  obtain ⟨k, hk⟩ := List.getElem?_of_mem
    (hss.mem_iff.mpr (heq ▸ List.mem_append_left _ hs' : s' ∈ definitions cursors))
  have hfound := lookup_spelling hvalid hss hk
  rw [hname] at hfound
  have hjk : k = j := Option.some.inj (hfound.symm.trans hlook)
  exact ⟨pre, s, post, s', hs, hjk ▸ hk, heq, hs'⟩

/-- So there is no cycle: along the relation one comes to earlier definitions. -/
theorem embeds_acyclic (i : Nat) : ¬ TransGen (Embeds (ss.map (recordInfo T))) i i := by
  refine not_transGen_self (fun i => ((definitions cursors).map StructCursor.spelling).idxOf
    ((ss[i]?).elim [] StructCursor.spelling)) (fun i j hij => ?_) i
  obtain ⟨pre, s, post, s', hi, hj, heq, hs'⟩ := embeds_earlier hvalid hss hij
  have hnd := hvalid.once
  rw [heq, List.map_append, List.map_cons] at hnd
  have hnot : s.spelling ∉ pre.map StructCursor.spelling := fun hmem =>
    (List.nodup_append.mp hnd).2.2 _ hmem _ List.mem_cons_self rfl
  have hmem : s'.spelling ∈ pre.map StructCursor.spelling := List.mem_map_of_mem hs'
  rw [hi, hj, Option.elim_some, Option.elim_some, heq, List.map_append, List.map_cons,
    List.idxOf_append_of_mem hmem, List.idxOf_append_of_notMem hnot]
  exact Nat.lt_of_lt_of_le (List.idxOf_lt_length_of_mem hmem) (Nat.le_add_right _ _)

/-- The records that a record embeds have their tables before its own. -/
theorem available_fields {order pre post : List Nat} {k : Nat} {s : StructCursor}
    (horder : PostOrdered (Embeds (ss.map (recordInfo T))) order)
    (heq : order = pre ++ k :: post) (hs : ss[k]? = some s) :
    ∀ f ∈ s.fields, Available T ss pre f.type := by
  intro f hf tag e hinner hne
  obtain ⟨before, after, hdefs⟩ := List.append_of_mem (hss.mem_iff.mp (List.mem_of_getElem? hs))
  obtain ⟨s', hs', rfl, he⟩ := hvalid.complete before s after hdefs f hf tag e hinner hne
  obtain ⟨j, hj⟩ := List.getElem?_of_mem
    (hss.mem_iff.mpr (hdefs ▸ List.mem_append_left _ hs' : s' ∈ definitions cursors))
  have hdep : recordDependency f.type = s'.spelling := by rw [recordDependency, hinner]
  refine ⟨j, horder pre k post heq j ⟨recordInfo T s, fieldInfo T f, ?_, ?_, ?_, ?_⟩, s', hj, rfl,
    he⟩
  · rw [List.getElem?_map, hs]
    rfl
  · exact List.mem_map_of_mem hf
  · show recordDependency f.type ≠ []
    rw [hdep]
    exact hne
  · show List.lookup (recordDependency f.type) _ = _
    rw [hdep]
    exact lookup_spelling hvalid hss hj

/-- All records of the signatures have their tables in the end. -/
theorem available_signatures {order : List Nat} (horder : order.Perm (List.range ss.length))
    {sig : CXType × List CXType} (hsig : sig ∈ signatures cursors) :
    ∀ t ∈ sig.1 :: sig.2, Available T ss order t := by
  intro t ht tag e hinner hne
  obtain ⟨s, hs, rfl, he⟩ := hvalid.signatures sig hsig t ht tag e hinner hne
  obtain ⟨k, hk⟩ := List.getElem?_of_mem (hss.mem_iff.mpr hs)
  refine ⟨k, horder.mem_iff.mpr (List.mem_range.mpr ?_), s, hk, rfl, he⟩
  exact (List.getElem?_eq_some_iff.mp hk).1

end

/-! ## The whole module -/

/-- The class shows the record, so it is the record. -/
theorem matches_of_shows {s : StructCursor} {c : PyClass} (hc : s.Shows T c)
    (hlaid : ∃ es, s.Laid T es) : c.Matches T s := by
  obtain ⟨es, hes⟩ := hlaid
  refine ⟨Extent.record es, hes.extent, ?_, fun hsize => ?_⟩
  · by_cases hsize : (Extent.record es).size = 0
    · rw [hc.empty _ hes.extent hsize, hsize]
      rfl
    · rw [(hc.full es hes hsize).1]
  · obtain ⟨hextent, hfields⟩ := hc.full es hes hsize
    refine ⟨hextent, ?_⟩
    have hbits : ((s.fields.map FieldCursor.spelling).zip (Extent.offsets es)).map
        (fun f => (f.1, Int64.ofNat (8 * f.2))) =
        (s.fields.map FieldCursor.spelling).zip (s.fields.map FieldCursor.offset) := by
      rw [hes.offsets, List.zip_map_right]
      rfl
    rw [hfields, hbits, List.zip_map']

theorem passes_of_extends {t : CXType} {v : PyValue} (h : Tables T ss done m)
    (hv : Passes T ss done t v) : m.Passes T t v := by
  rcases hv with hvoid | ⟨e, he, hextends⟩
  · exact Or.inl hvoid
  · obtain ⟨m', hlayout, -⟩ := hextends m h
    exact Or.inr ⟨e, he, by rw [hlayout]; rfl⟩

theorem layouts_same {vs : List PyValue} {es : List Extent} (h : m.layouts vs = some (es, m')) :
    m.Same m' := by
  induction vs generalizing m es with
  | nil => cases h; exact .refl _
  | cons v vs ih =>
      rw [PyModule.layouts, Option.bind_eq_bind, Option.bind_eq_some_iff] at h
      obtain ⟨⟨e, m₁⟩, hv, h⟩ := h
      rw [Option.bind_eq_bind, Option.bind_eq_some_iff] at h
      obtain ⟨⟨es', m₂⟩, hvs, h⟩ := h
      cases h
      exact (layout_same hv).trans (ih hvs)

theorem assign_functions {name : Text} {v : PyValue} (h : m.assign name v = some m') :
    m'.functions = m.functions := by
  rw [PyModule.assign] at h
  split at h
  · cases h; rfl
  · cases h

theorem setFields_functions {k : Nat} {names : List Text} {vs : List PyValue}
    (h : m.setFields k names vs = some m') : m'.functions = m.functions := by
  rw [PyModule.setFields, Option.bind_eq_bind, Option.bind_eq_some_iff] at h
  obtain ⟨c, -, h⟩ := h
  split at h
  · cases h
  · rw [Option.bind_eq_bind, Option.bind_eq_some_iff] at h
    obtain ⟨⟨es, m₁⟩, hes, h⟩ := h
    dsimp only at h
    rw [← (layouts_same hes).functions]
    rw [Option.bind_eq_some_iff] at h
    obtain ⟨c', -, h⟩ := h
    split at h
    · cases h
    · cases h; rfl

/-- Only the table of functions adds to the functions. -/
theorem exec_frame {st : Python.Statement} (hst : ∀ fs, st ≠ .functions fs)
    (h : Python.Statement.exec T m st = some m') : m'.functions = m.functions := by
  cases st with
  | imports => cases h; rfl
  | enumClass e =>
      rw [Python.Statement.exec] at h
      split at h
      · exact assign_functions h
      · cases h
  | constant c =>
      rw [Python.Statement.exec, Option.bind_eq_bind, Option.bind_eq_some_iff] at h
      obtain ⟨z, -, h⟩ := h
      exact assign_functions h
  | stub r => exact assign_functions (m := { m with classes := m.classes ++ [PyClass.bare] }) h
  | loader => exact assign_functions h
  | gap text => cases h; rfl
  | functions fs => exact absurd rfl (hst fs)
  | assign name expr =>
      rw [Python.Statement.exec, Option.bind_eq_bind, Option.bind_eq_some_iff] at h
      obtain ⟨⟨v, m₁⟩, hv, h⟩ := h
      exact (assign_functions h).trans (evalText_same hv).functions
  | callback t =>
      rw [Python.Statement.exec] at h
      split at h
      · rw [Option.bind_eq_bind, Option.bind_eq_some_iff] at h
        obtain ⟨⟨v, m₁⟩, hv, h⟩ := h
        rw [Option.bind_eq_bind, Option.bind_eq_some_iff] at h
        obtain ⟨⟨vs, m₂⟩, hvs, h⟩ := h
        exact (assign_functions h).trans ((evalText_same hv).trans (evalAll_same hvs)).functions
      · cases h; rfl
  | fieldTable r =>
      rw [Python.Statement.exec] at h
      split at h
      · cases h; rfl
      · rw [Option.bind_eq_bind, Option.bind_eq_some_iff] at h
        obtain ⟨⟨vs, m₁⟩, hvs, h⟩ := h
        rw [← (evalAll_same hvs).functions]
        dsimp only at h
        split at h
        · exact setFields_functions h
        · cases h

theorem run_frame {sts : List Python.Statement} (hsts : ∀ fs, .functions fs ∉ sts)
    (h : sts.foldlM (Python.Statement.exec T) m = some m') : m'.functions = m.functions := by
  induction sts generalizing m with
  | nil => cases h; rfl
  | cons st sts ih =>
      rw [List.foldlM_cons, Option.bind_eq_bind, Option.bind_eq_some_iff] at h
      obtain ⟨m₁, hst, h⟩ := h
      rw [ih (fun fs hfs => hsts fs (List.mem_cons_of_mem _ hfs)) h]
      exact exec_frame (fun fs heq => hsts fs (heq ▸ List.mem_cons_self)) hst

/-- The statements before the tables. -/
def Python.front (tree : ApiTree) : List Python.Statement :=
  .imports :: tree.enums.map .enumClass ++ constantStatements tree.constants ++
    tree.records.map .stub ++ .gap "\n".toList ::
    tree.typedefs.flatMap (aliasStatements (buildPyMap tree))

/-- The tables and the callbacks. -/
def Python.middle (tree : ApiTree) (tables : List RecordInfo) : List Python.Statement :=
  .gap "\n".toList :: tables.map .fieldTable ++ .gap callbackTitle ::
    tree.typedefs.map .callback ++ [.gap "\n".toList]

theorem statements_eq (tree : ApiTree) (tables : List RecordInfo) :
    Python.statements tree tables = Python.front tree ++ (Python.middle tree tables ++
      [Python.Statement.functions tree.functions, Python.Statement.loader]) := by
  simp only [Python.statements, Python.front, Python.middle, List.append_assoc, List.cons_append,
    List.nil_append]

theorem not_imported {name : Text} (h : name ∉ Python.taken T) :
    name ∉ (PyModule.imported T).map Prod.fst := fun hmem =>
  h (List.mem_cons_of_mem _ (List.mem_cons_of_mem _ hmem))

theorem ApiTree.mem_names {tree : ApiTree} {name : Text} : name ∈ tree.names ↔
    (∃ r ∈ tree.records, r.name = name) ∨ (∃ e ∈ tree.enums, e.name = name) ∨
      (∃ c ∈ tree.constants, c.name = name) ∨ ∃ t ∈ tree.typedefs, t.name = name := by
  simp only [ApiTree.names, List.mem_append, List.mem_map, or_assoc]

/-- What stands before the tables binds the names, and no class has fields yet. -/
theorem exec_front {tree : ApiTree} (hrecords : tree.records = ss.map (recordInfo T))
    (hnd : (ss.map StructCursor.spelling).Nodup)
    (harrays : ∀ t ∈ tree.typedefs, ArraySpelled t.underlying)
    (hnames : ∀ name ∈ tree.names, Python.isName name = true ∧ name ∉ Python.taken T)
    (hmembers : ∀ e ∈ tree.enums, (e.values.map EnumValue.name).Nodup ∧
      ∀ v ∈ e.values, Python.isMember v.name = true)
    (hvalues : ∀ c ∈ tree.constants, (pySigned? c.value).isSome) : ∃ m,
      (Python.front tree).foldlM (Python.Statement.exec T) ⟨[], [], []⟩ = some m ∧
        Tables T ss [] m := by
  have hspellings : tree.records.map RecordInfo.name = ss.map StructCursor.spelling := by
    rw [hrecords, List.map_map]
    rfl
  have hrecord : ∀ s ∈ ss, s.spelling ∈ tree.names := fun s hs =>
    ApiTree.mem_names.mpr (.inl ⟨recordInfo T s, hrecords ▸ List.mem_map_of_mem hs, rfl⟩)
  have henum : ∀ e ∈ tree.enums, e.name ∈ tree.names := fun e he =>
    ApiTree.mem_names.mpr (.inr (.inl ⟨e, he, rfl⟩))
  have hconstant : ∀ c ∈ tree.constants, c.name ∈ tree.names := fun c hc =>
    ApiTree.mem_names.mpr (.inr (.inr (.inl ⟨c, hc, rfl⟩)))
  have htypedef : ∀ t ∈ tree.typedefs, t.name ∈ tree.names := fun t ht =>
    ApiTree.mem_names.mpr (.inr (.inr (.inr ⟨t, ht, rfl⟩)))
  have hwords : ∀ tag ∈ tree.records.map RecordInfo.name ++ tree.enums.map EnumInfo.name,
      Word tag := fun tag htag =>
    word_of_isName (hnames tag (List.mem_append_left _ (List.mem_append_left _ htag))).1
  have hno : ∀ s : Text, s ∉ ([] : List StructCursor).map StructCursor.spelling :=
    fun s => List.not_mem_nil
  obtain ⟨m₂, henums, h₂, hbound⟩ := exec_enums tree.enums tables_imports
    (fun e he => (hnames _ (henum e he)).1) hmembers
    (fun e he => not_imported (hnames _ (henum e he)).2) fun e _ => hno e.name
  obtain ⟨m₃, hconstants, h₃, hkeep₃⟩ := exec_constants tree.constants h₂
    (fun c hc => (hnames _ (hconstant c hc)).1) hvalues
    (fun c hc => not_imported (hnames _ (hconstant c hc)).2) fun c _ => hno c.name
  have hnd' : (([] ++ ss).map StructCursor.spelling).Nodup := hnd
  obtain ⟨m₄, hstubs, h₄, hkeep₄⟩ := exec_stubs hnd'
    (fun s hs => (hnames _ (hrecord s hs)).1)
    (fun s hs => not_imported (hnames _ (hrecord s hs)).2) h₃
  rw [List.nil_append] at h₄
  obtain ⟨m₅, haliases, h₅, -⟩ := exec_aliases hwords harrays
    (fun t ht => (hnames _ (htypedef t ht)).1)
    (fun t ht => not_imported (hnames _ (htypedef t ht)).2)
    hspellings.symm h₄ (fun s hs => by
      rcases List.mem_append.mp hs with hs | hs
      · rcases List.mem_append.mp hs with hs | hs
        · rcases List.mem_cons.mp hs with rfl | hs
          · rfl
          · obtain ⟨p, hp, rfl⟩ := List.mem_map.mp hs
            rw [h₄.names.lookup_imported hp]
            rfl
        · obtain ⟨e, he, rfl⟩ := List.mem_map.mp hs
          exact hkeep₄ _ (hkeep₃ _ (hbound e he))
      · rw [hspellings] at hs
        obtain ⟨k, hk⟩ := List.getElem?_of_mem hs
        rw [h₄.names.lookup_tag hk]
        rfl)
  refine ⟨m₅, ?_, h₅⟩
  rw [← hrecords] at hstubs
  have himports : Python.Statement.exec T ⟨[], [], []⟩ .imports =
      some ⟨PyModule.imported T ++ [], [], []⟩ := rfl
  have hgap : Python.Statement.exec T m₄ (.gap "\n".toList) = some m₄ := rfl
  simp only [Python.front, List.foldlM_append, List.foldlM_cons, List.cons_append,
    Option.bind_eq_bind, himports, henums, hconstants, hstubs, hgap, haliases, Option.bind_some]

theorem functions_not_imported (T : Target) :
    "_FUNCTIONS".toList ∉ (PyModule.imported T).map Prod.fst := by
  simp only [PyModule.imported, List.map_cons, List.map_nil]
  decide

theorem load_not_imported (T : Target) :
    "load".toList ∉ (PyModule.imported T).map Prod.fst := by
  simp only [PyModule.imported, List.map_cons, List.map_nil]
  decide

/-- Python reads the constants of the header. -/
theorem values_read {cursors : List Cursor} (hbindable : Bindable T cursors) {c : ConstantInfo}
    (hc : c ∈ (collect T cursors).constants) : (pySigned? c.value).isSome := by
  rcases constants_collect T hc with ⟨v, hv⟩ | ⟨d, hd, hmacro⟩
  · rw [hv, pySigned?_decimal]
    rfl
  · exact isSome_pySigned? (hbindable.literals d hd c hmacro)

section

variable {cursors : List Cursor} (hvalid : ValidHeader T cursors)
  (hbindable : Bindable T cursors) (hss : ss.Perm (definitions cursors))

include hvalid hbindable hss

omit hvalid in
/-- The name of a record is one that its class may have. -/
theorem record_name {s : StructCursor} (hs : s ∈ ss) :
    s.spelling ∈ (collect T cursors).records.map RecordInfo.name ∧
      Python.isName s.spelling = true ∧ s.spelling ∉ Python.taken T := by
  have hmem : s.spelling ∈ (collect T cursors).records.map RecordInfo.name := by
    rw [records_collect, List.map_map]
    exact List.mem_map_of_mem (f := RecordInfo.name ∘ recordInfo T) (hss.mem_iff.mp hs)
  exact ⟨hmem, hbindable.names _ (List.mem_append_left _ (List.mem_append_left _
    (List.mem_append_left _ hmem)))⟩

omit hvalid in
theorem record_word {s : StructCursor} (hs : s ∈ ss) : Word s.spelling :=
  word_of_isName (record_name hbindable hss hs).2.1

variable {order : List Nat} (honce : order.Perm (List.range ss.length))

include honce

theorem exec_callbacks {tree : ApiTree} (hsorts : (collect T cursors).SortsTo tree)
    (h : Tables T ss order m) : ∃ m',
      (tree.typedefs.map Python.Statement.callback).foldlM (Python.Statement.exec T) m = some m' ∧
      Tables T ss order m' := by
  have hlaid : ∀ s ∈ ss, ∃ es, s.Laid T es := fun s hs => hvalid.laid s (hss.mem_iff.mp hs)
  have hstep : ∀ st ∈ tree.typedefs.map Python.Statement.callback, ∀ m,
      Tables T ss order m → (∀ s ∈ ([] : List Text), (m.lookup s).isSome) → ∃ m',
        Python.Statement.exec T m st = some m' ∧ Tables T ss order m' ∧ m.Remembers m' := by
    intro st hst m hm _
    obtain ⟨t, ht, rfl⟩ := List.mem_map.mp hst
    have ht' := hsorts.typedefs.perm.mem_iff.mp ht
    have htypedef := hbindable.names t.name (List.mem_append_right _ (List.mem_map_of_mem ht'))
    by_cases hcallback : t.isCallback = true
    · obtain ⟨sig, hsig, hret, hargs⟩ := callback_collect T ht' hcallback
      refine exec_callback (fun s => record_word hbindable hss) hlaid hm hret hargs
        (hbindable.results sig hsig) (hbindable.args sig hsig)
        (available_signatures hvalid hss honce hsig) htypedef.1 (not_imported htypedef.2)
        fun hmem => ?_
      obtain ⟨s, hs, hname⟩ := List.mem_map.mp hmem
      exact hbindable.callbacks t ht' hcallback (hname ▸ (record_name hbindable hss hs).1)
    · exact ⟨m, by rw [Python.Statement.exec, if_neg hcallback], hm, .refl m⟩
  obtain ⟨m', hrun, h', -⟩ := exec_keeps [] hstep h fun s hs => absurd hs List.not_mem_nil
  exact ⟨m', hrun, h'⟩

/-- The table of functions, and the function that reads it. -/
theorem exec_ending {fs : List FunctionCursor} (hfs : fs.Perm (functionDecls cursors))
    {funcs : List FuncInfo} (hfuncs : funcs = fs.map fun f =>
      ⟨f.spelling, ctypesFor T f.result, f.args.map (ctypesFor T)⟩)
    (h : Tables T ss order m) : ∃ m' rows,
      [Python.Statement.functions funcs, Python.Statement.loader].foldlM
        (Python.Statement.exec T) m = some m' ∧
      Tables T ss order m' ∧ m'.functions = m.functions ++ rows ∧
      List.Forall₂ (Row T ss order) fs rows := by
  have hlaid : ∀ s ∈ ss, ∃ es, s.Laid T es := fun s hs => hvalid.laid s (hss.mem_iff.mp hs)
  have hother : ∀ name ∈ Python.taken T, name ∉ ss.map StructCursor.spelling := by
    intro name htaken hmem
    obtain ⟨s, hs, rfl⟩ := List.mem_map.mp hmem
    exact (record_name hbindable hss hs).2.2 htaken
  have hsig : ∀ f ∈ fs, (f.result, f.args) ∈ signatures cursors := fun f hf =>
    List.mem_append_left _ (List.mem_map_of_mem (f := fun f : FunctionCursor => (f.result, f.args))
      (hfs.mem_iff.mp hf))
  obtain ⟨m₁, rows, hrun, h₁, happend, hrows⟩ := exec_functions
    (fun s => record_word hbindable hss) hlaid
    (fun f hf => hbindable.results _ (hsig f hf)) (fun f hf => hbindable.args _ (hsig f hf))
    (fun f hf => available_signatures hvalid hss honce (hsig f hf)) h
  have hbind := h₁.bind (v := .other) (functions_not_imported T) (hother _ List.mem_cons_self)
  refine ⟨_, rows, ?_, hbind.bind (v := .other) (load_not_imported T)
    (hother _ (List.mem_cons_of_mem _ List.mem_cons_self)), happend, hrows⟩
  rw [← hfuncs] at hrun
  have hfunctionsName : Python.isName "_FUNCTIONS".toList = true := by decide
  have hloadName : Python.isName "load".toList = true := by decide
  have hfunctions : Python.Statement.exec T m (.functions funcs) =
      some (m₁.bind "_FUNCTIONS".toList .other) := by
    rw [Python.Statement.exec, hrun]
    exact assign_eq hfunctionsName m₁ _
  have hloader : ∀ m, Python.Statement.exec T m .loader = some (m.bind "load".toList .other) :=
    fun m => assign_eq hloadName m _
  rw [List.foldlM_cons, hfunctions, Option.bind_eq_bind, Option.bind_some, List.foldlM_cons,
    hloader]
  rfl

/-- The tables and the callbacks. -/
theorem exec_middle {tree : ApiTree} (hsorts : (collect T cursors).SortsTo tree)
    (hrecords : tree.records = ss.map (recordInfo T)) {tables : List RecordInfo}
    (hpost : PostOrdered (Embeds tree.records) order)
    (htables : order.mapM (fun i => tree.records[i]?) = some tables)
    (h : Tables T ss [] m) : ∃ m',
      (Python.middle tree tables).foldlM (Python.Statement.exec T) m = some m' ∧
      Tables T ss order m' := by
  have hdone : ([] ++ order).Nodup := honce.nodup_iff.mpr List.nodup_range
  obtain ⟨m₁, hrun₁, h₁⟩ := exec_fieldTables (fun s => record_word hbindable hss)
    (fun s hs => hvalid.laid s (hss.mem_iff.mp hs))
    (fun s hs => hbindable.fields s (hss.mem_iff.mp hs)) (hrecords ▸ htables) hdone
    (fun pre k post heq s hs => available_fields hvalid hss (hrecords ▸ hpost) heq hs) h
  rw [List.nil_append] at h₁
  obtain ⟨m₂, hrun₂, h₂⟩ := exec_callbacks hvalid hbindable hss honce hsorts h₁
  refine ⟨m₂, ?_, h₂⟩
  have hgap : ∀ (m : PyModule) text, Python.Statement.exec T m (.gap text) = some m :=
    fun _ _ => rfl
  simp only [Python.middle, List.foldlM_append, List.foldlM_cons, List.cons_append,
    Option.bind_eq_bind, hgap, hrun₁, hrun₂, Option.bind_some, List.foldlM_nil]
  rfl

end

theorem functions_not_mem_front (tree : ApiTree) (fs : List FuncInfo) :
    Python.Statement.functions fs ∉ Python.front tree := by
  have hconstants : Python.Statement.functions fs ∉ Python.constantStatements tree.constants := by
    rw [Python.constantStatements]
    split <;> simp
  have haliases : Python.Statement.functions fs ∉
      tree.typedefs.flatMap (Python.aliasStatements (buildPyMap tree)) := by
    intro h
    obtain ⟨t, -, h⟩ := List.mem_flatMap.mp h
    obtain ⟨c, -, -, h⟩ := mem_aliasStatements h
    cases h
  simp [Python.front, hconstants, haliases]

theorem functions_not_mem_middle (tree : ApiTree) (tables : List RecordInfo)
    (fs : List FuncInfo) : Python.Statement.functions fs ∉ Python.middle tree tables := by
  simp [Python.middle]

/-- `struct Q { int n; };` -/
def structQ : StructCursor :=
  ⟨true, "Q".toList, true, .record "Q".toList (some (Extent.record [lp64.int])),
    [⟨"n".toList, .builtin .int, "int".toList, 0⟩]⟩

/-- `struct P { struct Q q[3]; void *p; };` -/
def structP : StructCursor :=
  ⟨true, "P".toList, true,
    .record "P".toList (some (Extent.record [(Extent.record [lp64.int]).array 3, lp64.pointer])),
    [⟨"q".toList, .constantArray structQ.type 3, "struct Q [3]".toList, 0⟩,
      ⟨"p".toList, .pointer (.builtin .void), "void *".toList, 128⟩]⟩

/-- `void f(struct P);` -/
def functionF : FunctionCursor := ⟨true, "f".toList, .builtin .void, [structP.type]⟩

def smallHeader : List Cursor :=
  [.structDecl structQ, .structDecl structP, .functionDecl functionF]

theorem laid_structQ : structQ.Laid lp64 [lp64.int] := ⟨rfl, rfl, rfl, by decide⟩

theorem laid_structP :
    structP.Laid lp64 [(Extent.record [lp64.int]).array 3, lp64.pointer] :=
  ⟨rfl, rfl, rfl, by decide⟩

theorem smallHeader_valid : ValidHeader lp64 smallHeader where
  laid s hs := by
    rcases List.mem_pair.mp (show s ∈ [structQ, structP] from hs) with rfl | rfl
    · exact ⟨_, laid_structQ⟩
    · exact ⟨_, laid_structP⟩
  once := by decide
  complete pre s post heq f hf tag e hinner hne := by
    have heq : [structQ, structP] = pre ++ s :: post := heq
    match pre with
    | [] =>
        cases heq
        rw [List.mem_singleton.mp hf] at hinner
        cases hinner
    | [q] =>
        cases heq
        rcases List.mem_pair.mp hf with rfl | rfl
        · cases hinner
          exact ⟨structQ, List.mem_singleton_self _, rfl, rfl⟩
        · cases hinner
    | q :: r :: pre =>
        have hlen := congrArg List.length heq
        simp at hlen
  signatures sig hsig t ht tag e hinner hne := by
    cases List.mem_singleton.mp hsig
    rcases List.mem_pair.mp ht with rfl | rfl
    · cases hinner
    · cases hinner
      exact ⟨structP, List.mem_pair.mpr (Or.inr rfl), rfl, rfl⟩

theorem smallHeader_bindable : Bindable lp64 smallHeader where
  fields s hs f hf := by
    rcases List.mem_pair.mp (show s ∈ [structQ, structP] from hs) with rfl | rfl
    · rw [List.mem_singleton.mp hf]
      exact (by decide : Builtin.int ≠ .void)
    · rcases List.mem_pair.mp hf with rfl | rfl
      · exact ⟨_, rfl, fun h => absurd h (by decide), fun h => absurd h (by decide)⟩
      · trivial
  results sig hsig := by
    cases List.mem_singleton.mp hsig
    exact Or.inl rfl
  args sig hsig t ht := by
    cases List.mem_singleton.mp hsig
    rw [List.mem_singleton.mp ht]
    exact ⟨_, rfl, fun h => absurd h (by decide), fun h => absurd h (by decide)⟩
  arrays t ht := absurd ht List.not_mem_nil
  names name hname := by
    have hall : ∀ name ∈ ["Q".toList, "P".toList], Python.isName name = true ∧
        name ∉ Python.taken lp64 := by
      simp only [Python.taken, PyModule.imported, List.map_cons, List.map_nil]
      decide
    exact hall name hname
  members e he := absurd he List.not_mem_nil
  literals d hd := by simp [smallHeader] at hd
  callbacks t ht := absurd ht List.not_mem_nil

/-- The tree of the header, sorted. -/
def smallTree : ApiTree :=
  { collect lp64 smallHeader with records := [recordInfo lp64 structP, recordInfo lp64 structQ] }

theorem smallHeader_sorts : (collect lp64 smallHeader).SortsTo smallTree where
  records := ⟨List.Perm.swap _ _ [], List.pairwise_pair.mpr (by decide)⟩
  enums := ⟨.refl _, List.Pairwise.nil⟩
  typedefs := ⟨.refl _, List.Pairwise.nil⟩
  functions := ⟨.refl _, List.pairwise_singleton _ _⟩
  constants := ⟨.refl _, List.Pairwise.nil⟩

end Ycetl.Ref.Webgpu
