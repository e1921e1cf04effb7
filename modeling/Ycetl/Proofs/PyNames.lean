import Ycetl.Proofs.PyTables
import Ycetl.Proofs.PyResolved

/-!
# The names that the module binds

Before the first table, and after the last, the statements of the module bind
names. None of them hides an imported name or the class of a record, and a name
stays bound. So an expression of `build_py_map` can be evaluated where it
stands: it is a name that has been bound, or an array of objects of an imported
type.
-/

namespace Ycetl.Ref.Webgpu

open Ycetl.Lib

variable {T : Target} {ss : List StructCursor} {done : List Nat} {m m' : PyModule}

/-! ## Names of Python -/

theorem word_of_isName {s : Text} (h : Python.isName s = true) : Word s := by
  intro c hc
  simp only [Python.isName, Bool.and_eq_true, List.all_eq_true] at h
  have hchar := h.1.1.2 c hc
  refine ⟨?_, ?_⟩
  · rintro rfl
    exact absurd hchar (by decide)
  · rintro rfl
    exact absurd hchar (by decide)

theorem ne_none_of_isName {s : Text} (h : Python.isName s = true) : s ≠ "None".toList := by
  rintro rfl
  exact absurd h (by decide)

theorem members_sublist (seen : List Int64) (vs : List EnumValue) :
    (Python.members seen vs).Sublist vs := by
  fun_induction Python.members seen vs with
  | case1 => exact .slnil
  | case2 seen v vs hseen ih => exact ih.cons v
  | case3 seen v vs hnew ih => exact ih.cons_cons v

/-! ## Binding -/

theorem assign_eq {name : Text} (h : Python.isName name = true) (m : PyModule) (v : PyValue) :
    m.assign name v = some (m.bind name v) := if_pos h

/-- What has been bound stays bound. -/
def PyModule.Remembers (m m' : PyModule) : Prop :=
  ∀ s, (m.lookup s).isSome → (m'.lookup s).isSome

theorem PyModule.Remembers.refl (m : PyModule) : m.Remembers m := fun _ h => h

theorem PyModule.Remembers.trans {m'' : PyModule} (h : m.Remembers m') (h' : m'.Remembers m'') :
    m.Remembers m'' := fun s hs => h' s (h s hs)

theorem remembers_bind (m : PyModule) (name : Text) (v : PyValue) :
    m.Remembers (m.bind name v) := by
  intro s hs
  rw [PyModule.lookup] at hs ⊢
  split at hs
  · next hnone => rw [if_pos hnone]; rfl
  · next hnone =>
      rw [if_neg hnone]
      show (List.lookup s ((name, v) :: m.names)).isSome
      rw [List.lookup_cons]
      split
      · rfl
      · exact hs

theorem isSome_lookup_bind (m : PyModule) (name : Text) (v : PyValue) :
    ((m.bind name v).lookup name).isSome := by
  rw [PyModule.lookup]
  split
  · rfl
  · show (List.lookup name ((name, v) :: m.names)).isSome
    rw [List.lookup_cons_self]
    rfl

/-- A name that is not taken yet may be bound. -/
theorem Tables.bind (h : Tables T ss done m) {name : Text} {v : PyValue}
    (himported : name ∉ (PyModule.imported T).map Prod.fst)
    (htag : name ∉ ss.map StructCursor.spelling) : Tables T ss done (m.bind name v) := by
  have hother : ∀ {s}, s ≠ name → (m.bind name v).names.lookup s = m.names.lookup s := by
    intro s hne
    show List.lookup s ((name, v) :: m.names) = _
    rw [List.lookup_cons, beq_eq_false_iff_ne.mpr hne]
  refine ⟨⟨fun p hp => ?_, fun k tag hk => ?_⟩, h.length, h.shows, h.bare⟩
  · rw [hother fun heq => himported (List.mem_map.mpr ⟨p, hp, heq⟩)]
    exact h.names.imported p hp
  · obtain ⟨hne, hlook⟩ := h.names.tags k tag hk
    refine ⟨hne, ?_⟩
    rw [hother fun heq => htag (heq ▸ List.mem_of_getElem? hk)]
    exact hlook

/-- The class of a record without a table. -/
theorem Tables.stub (h : Tables T ss [] m) {s : StructCursor}
    (hname : Python.isName s.spelling = true)
    (himported : s.spelling ∉ (PyModule.imported T).map Prod.fst)
    (hnew : s.spelling ∉ ss.map StructCursor.spelling) : ∃ m',
      Python.Statement.exec T m (.stub (recordInfo T s)) = some m' ∧
        Tables T (ss ++ [s]) [] m' ∧ m.Remembers m' := by
  have hbind := h.bind (v := .structure m.classes.length) himported hnew
  refine ⟨_, assign_eq hname _ _,
    ⟨⟨hbind.names.imported, fun k tag hk => ?_⟩, ?_, ?_, fun k hk _ => ?_⟩,
    remembers_bind m s.spelling (.structure m.classes.length)⟩
  · rw [List.map_append] at hk
    by_cases hlt : k < ss.length
    · rw [List.getElem?_append_left (by rw [List.length_map]; exact hlt)] at hk
      exact hbind.names.tags k tag hk
    · rw [List.getElem?_append_right (by rw [List.length_map]; omega), List.length_map] at hk
      obtain ⟨hzero, hget⟩ := List.getElem?_eq_some_iff.mp hk
      rw [List.length_map, List.length_singleton] at hzero
      have hk' : k = m.classes.length := by rw [h.length]; omega
      have htag : tag = s.spelling := by
        rw [← hget]
        simp
      subst hk' htag
      exact ⟨ne_none_of_isName hname, List.lookup_cons_self⟩
  · show (m.classes ++ [PyClass.bare]).length = _
    rw [List.length_append, List.length_append, h.length]
    rfl
  · exact fun k hk => absurd hk List.not_mem_nil
  · show (m.classes ++ [PyClass.bare])[k]? = _
    by_cases hlt : k < ss.length
    · rw [List.getElem?_append_left (by rw [h.length]; exact hlt)]
      exact h.bare k hlt List.not_mem_nil
    · rw [List.length_append, List.length_singleton] at hk
      have hk' : k = m.classes.length := by rw [h.length]; omega
      rw [hk', List.getElem?_concat_length]

/-- The module after the imports. -/
theorem tables_imports : Tables T [] [] ⟨PyModule.imported T ++ [], [], []⟩ := by
  refine ⟨⟨fun p hp => ?_, fun k tag hk => by cases hk⟩, rfl,
    fun k hk => absurd hk List.not_mem_nil, fun k hk => absurd hk (Nat.not_lt_zero k)⟩
  show (PyModule.imported T ++ []).lookup p.1 = some p.2
  have hnd := nodup_imported T
  rw [List.append_nil, List.lookup_eq_some_iff]
  obtain ⟨l, r, heq⟩ := List.append_of_mem hp
  refine ⟨l, r, heq, fun q hq => bne_iff_ne.mpr fun hname => ?_⟩
  rw [heq, List.map_append, List.nodup_append] at hnd
  exact hnd.2.2 q.1 (List.mem_map_of_mem hq) p.1 (List.mem_map_of_mem List.mem_cons_self)
    hname.symm

/-! ## Statements that bind names -/

/-- Statements that keep the tables and forget nothing, one after the other. -/
theorem exec_keeps (names : List Text) {statements : List Python.Statement}
    (hexec : ∀ st ∈ statements, ∀ m, Tables T ss done m →
      (∀ s ∈ names, (m.lookup s).isSome) → ∃ m',
        Python.Statement.exec T m st = some m' ∧ Tables T ss done m' ∧ m.Remembers m')
    (h : Tables T ss done m) (hnames : ∀ s ∈ names, (m.lookup s).isSome) : ∃ m',
      statements.foldlM (Python.Statement.exec T) m = some m' ∧ Tables T ss done m' ∧
        m.Remembers m' := by
  obtain ⟨m', hrun, hend, hkeep, -⟩ := foldlM_succeeds
    (I := fun m => Tables T ss done m ∧ ∀ s ∈ names, (m.lookup s).isSome)
    (G := fun _ _ => True) PyModule.Remembers.refl (fun _ _ _ => PyModule.Remembers.trans)
    (fun _ _ _ h _ => h)
    (fun m st hst hm => by
      obtain ⟨m', hst', h', hkeep⟩ := hexec st hst m hm.1 hm.2
      exact ⟨m', hst', ⟨h', fun s hs => hkeep s (hm.2 s hs)⟩, hkeep, trivial⟩)
    ⟨h, hnames⟩
  exact ⟨m', hrun, hend.1, hkeep⟩

theorem exec_enumClass {e : EnumInfo} (hname : Python.isName e.name = true)
    (honce : (e.values.map EnumValue.name).Nodup)
    (hmember : ∀ v ∈ e.values, Python.isMember v.name = true) (m : PyModule) :
    Python.Statement.exec T m (.enumClass e) = some (m.bind e.name .other) := by
  have hsub := members_sublist [] e.values
  have hall : ((Python.members [] e.values).map EnumValue.name).all Python.isMember = true := by
    rw [List.all_map, List.all_eq_true]
    exact fun v hv => hmember v (hsub.subset hv)
  rw [Python.Statement.exec]
  exact (if_pos ⟨hall, (hsub.map EnumValue.name).nodup honce⟩).trans (assign_eq hname m _)

theorem exec_constant {c : ConstantInfo} (hname : Python.isName c.name = true)
    (hvalue : (pySigned? c.value).isSome) (m : PyModule) :
    Python.Statement.exec T m (.constant c) = some (m.bind c.name .other) := by
  obtain ⟨z, hz⟩ := Option.isSome_iff_exists.mp hvalue
  rw [Python.Statement.exec, hz]
  exact assign_eq hname m _

theorem exec_enums (es : List EnumInfo) (h : Tables T ss done m)
    (hname : ∀ e ∈ es, Python.isName e.name = true)
    (hmembers : ∀ e ∈ es, (e.values.map EnumValue.name).Nodup ∧
      ∀ v ∈ e.values, Python.isMember v.name = true)
    (himported : ∀ e ∈ es, e.name ∉ (PyModule.imported T).map Prod.fst)
    (htags : ∀ e ∈ es, e.name ∉ ss.map StructCursor.spelling) : ∃ m',
      (es.map Python.Statement.enumClass).foldlM (Python.Statement.exec T) m = some m' ∧
        Tables T ss done m' ∧ ∀ e ∈ es, (m'.lookup e.name).isSome := by
  rw [List.foldlM_map]
  obtain ⟨m', hrun, h', -, hbound⟩ := foldlM_succeeds
    (G := fun (e : EnumInfo) (m : PyModule) => (m.lookup e.name).isSome) PyModule.Remembers.refl
    (fun _ _ _ => PyModule.Remembers.trans) (fun e _ _ he hm => hm _ he)
    (fun m e he hm => ⟨_, exec_enumClass (hname e he) (hmembers e he).1 (hmembers e he).2 m,
      hm.bind (himported e he) (htags e he), remembers_bind m e.name .other,
      isSome_lookup_bind m e.name .other⟩) h
  exact ⟨m', hrun, h', hbound⟩

theorem exec_constants (cs : List ConstantInfo) (h : Tables T ss done m)
    (hname : ∀ c ∈ cs, Python.isName c.name = true)
    (hvalue : ∀ c ∈ cs, (pySigned? c.value).isSome)
    (himported : ∀ c ∈ cs, c.name ∉ (PyModule.imported T).map Prod.fst)
    (htags : ∀ c ∈ cs, c.name ∉ ss.map StructCursor.spelling) : ∃ m',
      (Python.constantStatements cs).foldlM (Python.Statement.exec T) m = some m' ∧
        Tables T ss done m' ∧ m.Remembers m' := by
  refine exec_keeps [] (fun st hst m hm _ => ?_) h fun s hs => absurd hs List.not_mem_nil
  rw [Python.constantStatements] at hst
  split at hst
  · cases hst
  · rcases List.mem_cons.mp hst with rfl | hst
    · exact ⟨m, rfl, hm, .refl m⟩
    · rcases List.mem_append.mp hst with hst | hst
      · obtain ⟨c, hc, rfl⟩ := List.mem_map.mp hst
        exact ⟨_, exec_constant (hname c hc) (hvalue c hc) m,
          hm.bind (himported c hc) (htags c hc), remembers_bind m c.name .other⟩
      · rw [List.mem_singleton.mp hst]
        exact ⟨m, rfl, hm, .refl m⟩

theorem exec_stubs {rs : List StructCursor} (hnd : ((ss ++ rs).map StructCursor.spelling).Nodup)
    (hname : ∀ s ∈ rs, Python.isName s.spelling = true)
    (himported : ∀ s ∈ rs, s.spelling ∉ (PyModule.imported T).map Prod.fst)
    (h : Tables T ss [] m) : ∃ m',
      ((rs.map (recordInfo T)).map Python.Statement.stub).foldlM (Python.Statement.exec T) m =
        some m' ∧ Tables T (ss ++ rs) [] m' ∧ m.Remembers m' := by
  induction rs generalizing ss m with
  | nil => exact ⟨m, rfl, (List.append_nil ss).symm ▸ h, .refl m⟩
  | cons s rs ih =>
      have hassoc : ss ++ [s] ++ rs = ss ++ s :: rs := List.append_assoc ..
      have hnew : s.spelling ∉ ss.map StructCursor.spelling := fun hmem => by
        rw [List.map_append, List.nodup_append] at hnd
        exact hnd.2.2 _ hmem _ List.mem_cons_self rfl
      obtain ⟨m₁, hexec, h₁, hkeep⟩ := h.stub (hname s List.mem_cons_self)
        (himported s List.mem_cons_self) hnew
      obtain ⟨m', hrun, h', hkeep'⟩ := ih (hassoc ▸ hnd)
        (fun r hr => hname r (List.mem_cons_of_mem s hr))
        (fun r hr => himported r (List.mem_cons_of_mem s hr)) h₁
      refine ⟨m', ?_, hassoc ▸ h', hkeep.trans hkeep'⟩
      rw [List.map_cons, List.map_cons, List.foldlM_cons, hexec]
      exact hrun

/-! ## The typedefs -/

/-- What `build_py_map` has for a typedef: one of these names, or an array of
objects of an imported type. -/
inductive Aliased (T : Target) (names : List Text) : Text → Prop
  | name {s : Text} (hword : Word s) (h : s ∈ names) : Aliased T names s
  | times {s : Text} {e : Extent} (hword : Word s) (h : (s, .simple e) ∈ PyModule.imported T)
      (n : Nat) : Aliased T names (s ++ " * ".toList ++ numeral n)

/-- Such an expression can be evaluated, and changes nothing. -/
theorem Aliased.evalText {names : List Text} {text : Text} (htext : Aliased T names text)
    (h : Tables T ss done m) (hnames : ∀ s ∈ names, (m.lookup s).isSome) :
    ∃ v, m.evalText text = some (v, m) := by
  cases htext with
  | name hword hs =>
      obtain ⟨v, hv⟩ := Option.isSome_iff_exists.mp (hnames text hs)
      refine ⟨v, ?_⟩
      rw [PyModule.evalText, readCtypes_word hword]
      show (m.lookup text).map _ = _
      rw [hv]
      rfl
  | @times s e hword hs n =>
      refine ⟨.array (e.array n), ?_⟩
      rw [PyModule.evalText, readCtypes_times, readCtypes_word hword]
      show (m.eval (.named _)).bind _ = _
      rw [eval_imported h hs]
      rfl

/-- What is imported besides the simple types. -/
theorem imported_simple {p : Text × PyValue} (h : p ∈ PyModule.imported T)
    (hother : p.1 ∉ ["Structure".toList, "CFUNCTYPE".toList, "POINTER".toList,
      "IntEnum".toList]) : ∃ e, p.2 = .simple e := by
  have hall : ∀ p ∈ PyModule.imported T, p.1 ∈ ["Structure".toList, "CFUNCTYPE".toList,
      "POINTER".toList, "IntEnum".toList] ∨ ∃ e, p.2 = .simple e := by
    simp [PyModule.imported]
  exact (hall p h).resolve_left hother

/-- The names of the base types are imported. -/
theorem base_imported {s c : Text} (h : base.lookup s = some c) :
    c = "None".toList ∨ ∃ e, (c, .simple e) ∈ PyModule.imported T := by
  have hall : ∀ p ∈ base, p.2 = "None".toList ∨ p.2 ∈ (PyModule.imported T).map Prod.fst ∧
      p.2 ∉ ["Structure".toList, "CFUNCTYPE".toList, "POINTER".toList, "IntEnum".toList] := by
    simp only [PyModule.imported, List.map_cons, List.map_nil]
    decide
  refine (hall (s, c) (lookup_mem h)).imp id fun hc => ?_
  obtain ⟨p, hp, rfl⟩ := List.mem_map.mp hc.1
  obtain ⟨e, he⟩ := imported_simple hp hc.2
  exact ⟨e, he ▸ hp⟩

theorem word_imported : ∀ p ∈ PyModule.imported T, Word p.1 := by
  have hall : ∀ s ∈ (PyModule.imported T).map Prod.fst, Word s := by
    simp only [PyModule.imported, List.map_cons, List.map_nil]
    decide
  exact fun p hp => hall p.1 (List.mem_map_of_mem hp)

/-- The names that are bound when the typedefs are: `None`, what was imported,
the enums and the records. -/
def bound (T : Target) (tree : ApiTree) : List Text :=
  "None".toList :: (PyModule.imported T).map Prod.fst ++ tree.enums.map EnumInfo.name ++
    tree.records.map RecordInfo.name

/-- A type map with such expressions only. -/
structure AliasesOnly (T : Target) (names : List Text) (pm : PyTypeMap) : Prop where
  enumNames : ∀ s ∈ pm.enumNames, Aliased T names s
  recordNames : ∀ s ∈ pm.recordNames, Aliased T names s
  entries : ∀ {name text}, pm.typedefToCtypes.lookup name = some text → Aliased T names text

section

variable {tree : ApiTree} {pm pm' : PyTypeMap} {t : TypedefInfo}

theorem aliased_imported {s : Text} {v : PyValue} (h : (s, v) ∈ PyModule.imported T) :
    Aliased T (bound T tree) s := by
  refine .name (word_imported _ h) (List.mem_append_left _ (List.mem_append_left _ ?_))
  exact List.mem_cons_of_mem _ (List.mem_map_of_mem (f := Prod.fst) h)

theorem aliased_base {s c : Text} (h : base.lookup s = some c) : Aliased T (bound T tree) c := by
  rcases base_imported (T := T) h with rfl | ⟨e, he⟩
  · exact .name (by decide) (List.mem_append_left _ (List.mem_append_left _ List.mem_cons_self))
  · exact aliased_imported he

theorem aliased_cVoidP : Aliased T (bound T tree) cVoidP := aliased_imported (imported_cVoidP T)

theorem AliasesOnly.lookupName (h : AliasesOnly T (bound T tree) pm) (s : Text) :
    Aliased T (bound T tree) (pm.lookupName s) := by
  rw [PyTypeMap.lookupName]
  split
  · next hbase => exact aliased_base hbase
  · next hentry => exact h.entries hentry
  · split
    · next henum => exact h.enumNames s henum
    · split
      · next hrecord => exact h.recordNames s hrecord
      · exact aliased_cVoidP

/-- A base name is looked up as itself. -/
theorem lookup_base {s c : Text} (h : base.lookup (strip s) = some c) : pm.lookup s = c := by
  have hspell := spellable_base h
  have hstar : (strip s).getLast? ≠ some '*' := fun hlast =>
    (hspell.plain _ (List.mem_of_getLast? hlast)).1 rfl
  have hparts : arrayParts (strip s) = none := by
    have hdrop : (strip s).dropWhile (· ≠ '[') = [] := List.dropWhile_eq_nil_iff.mpr
      fun c hc => decide_eq_true (hspell.plain c hc).2
    rw [arrayParts, hdrop]
  rw [PyTypeMap.lookup, if_neg hstar]
  split
  · next hsome => rw [hparts] at hsome; cases hsome
  · rw [PyTypeMap.lookupName, h]

theorem AliasesOnly.lookup (h : AliasesOnly T (bound T tree) pm) {s : Text}
    (hs : ArraySpelled s) : Aliased T (bound T tree) (pm.lookup s) := by
  rw [PyTypeMap.lookup]
  split
  · exact aliased_cVoidP
  · split
    · next elem n hparts =>
        obtain ⟨⟨k, rfl⟩, helem⟩ := hs elem n hparts
        rcases helem with hstar | ⟨c, hc, hne⟩
        · rw [PyTypeMap.lookup, if_pos hstar]
          exact .times word_cVoidP (imported_cVoidP T) k
        · obtain ⟨e, he⟩ := (base_imported (T := T) hc).resolve_left hne
          rw [lookup_base hc]
          exact .times (word_imported _ he) he k
    · exact h.lookupName _

theorem AliasesOnly.register (h : AliasesOnly T (bound T tree) pm)
    (ht : ArraySpelled t.underlying) (hregister : pm.register t = some pm') :
    AliasesOnly T (bound T tree) pm' := by
  obtain ⟨-, -, rfl⟩ := register_cases hregister
  refine ⟨h.enumNames, h.recordNames, fun {name text} hentry => ?_⟩
  rw [List.lookup_cons] at hentry
  split at hentry
  · exact Option.some.inj hentry ▸ h.lookup ht
  · exact h.entries hentry

/-- The map of a tree has such expressions. -/
theorem aliased_buildPyMap
    (hwords : ∀ tag ∈ tree.records.map RecordInfo.name ++ tree.enums.map EnumInfo.name, Word tag)
    (harrays : ∀ t ∈ tree.typedefs, ArraySpelled t.underlying) {name text : Text}
    (h : (buildPyMap tree).typedefToCtypes.lookup name = some text) :
    Aliased T (bound T tree) text := by
  have hstart : AliasesOnly T (bound T tree) tree.start :=
    ⟨fun s hs => .name (hwords s (List.mem_append_right _ hs))
        (List.mem_append_left _ (List.mem_append_right _ hs)),
      fun s hs => .name (hwords s (List.mem_append_left _ hs)) (List.mem_append_right _ hs),
      fun h => by cases h⟩
  have hloop := resolve_keeps (fun ht hm => hm.register (harrays _ ht)) hstart
  have hfill := lookup_fill (tree.start.resolve tree.typedefs) tree.typedefs name
  rw [show (buildPyMap tree).typedefToCtypes.lookup name = _ from hfill] at h
  cases hentry : (tree.start.resolve tree.typedefs).typedefToCtypes.lookup name with
  | some text' =>
      rw [hentry, Option.some_or] at h
      exact Option.some.inj h ▸ hloop.entries hentry
  | none =>
      rw [hentry, Option.none_or] at h
      split at h
      · exact Option.some.inj h ▸ aliased_cVoidP
      · cases h

theorem recordNames_fill (ts : List TypedefInfo) : (pm.fill ts).recordNames = pm.recordNames := by
  induction ts generalizing pm with
  | nil => rfl
  | cons t ts ih =>
      rw [PyTypeMap.fill]
      split
      · exact ih
      · exact ih

/-- The map knows the records of the tree. -/
theorem recordNames_build (tree : ApiTree) :
    (buildPyMap tree).recordNames = tree.records.map RecordInfo.name := by
  have hloop : (tree.start.resolve tree.typedefs).recordNames =
      tree.records.map RecordInfo.name :=
    resolve_keeps (P := fun pm => pm.recordNames = tree.records.map RecordInfo.name)
      (fun _ hm hregister => by
        obtain ⟨-, -, rfl⟩ := register_cases hregister
        exact hm) rfl
  exact (recordNames_fill tree.typedefs).trans hloop

theorem any_names_iff (pm : PyTypeMap) (s : Text) :
    (pm.enumNames ++ pm.recordNames).any (· = s) = true ↔
      s ∈ pm.enumNames ∨ s ∈ pm.recordNames := by
  simp

/-- What is written for a typedef, if anything is. -/
theorem mem_aliasStatements {st : Python.Statement} (h : st ∈ Python.aliasStatements pm t) :
    ∃ c, t.name ∉ pm.recordNames ∧ pm.typedefToCtypes.lookup t.name = some c ∧
      st = .assign t.name c := by
  rw [Python.aliasStatements] at h
  split at h
  · cases h
  · next hnames =>
      split at h
      · cases h
      · cases hc : pm.typedefToCtypes.lookup t.name with
        | none => rw [hc] at h; cases h
        | some c =>
            rw [hc, Option.elim_some] at h
            split at h
            · cases h
            · exact ⟨c, fun hrecord => hnames ((any_names_iff pm t.name).mpr (Or.inr hrecord)), rfl,
                List.mem_singleton.mp h⟩

/-- The typedefs can be bound to their expressions. -/
theorem exec_aliases
    (hwords : ∀ tag ∈ tree.records.map RecordInfo.name ++ tree.enums.map EnumInfo.name, Word tag)
    (harrays : ∀ t ∈ tree.typedefs, ArraySpelled t.underlying)
    (hname : ∀ t ∈ tree.typedefs, Python.isName t.name = true)
    (himported : ∀ t ∈ tree.typedefs, t.name ∉ (PyModule.imported T).map Prod.fst)
    (htags : ss.map StructCursor.spelling = tree.records.map RecordInfo.name)
    (h : Tables T ss done m) (hbound : ∀ s ∈ bound T tree, (m.lookup s).isSome) : ∃ m',
      (tree.typedefs.flatMap (Python.aliasStatements (buildPyMap tree))).foldlM
        (Python.Statement.exec T) m = some m' ∧ Tables T ss done m' ∧ m.Remembers m' := by
  refine exec_keeps (bound T tree) (fun st hst m hm hbound => ?_) h hbound
  obtain ⟨t, ht, hst⟩ := List.mem_flatMap.mp hst
  obtain ⟨c, hrecord, hc, rfl⟩ := mem_aliasStatements hst
  obtain ⟨v, hv⟩ := (aliased_buildPyMap hwords harrays hc).evalText hm hbound
  refine ⟨m.bind t.name v, ?_, hm.bind (himported t ht) ?_, remembers_bind m _ v⟩
  · rw [Python.Statement.exec, hv]
    exact assign_eq (hname t ht) m v
  · rw [htags, ← recordNames_build tree]
    exact hrecord

end

end Ycetl.Ref.Webgpu
