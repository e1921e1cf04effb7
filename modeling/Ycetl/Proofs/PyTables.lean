import Ycetl.Proofs.CtypesText
import Ycetl.Proofs.WebgpuTopology

/-!
# The field tables make the layouts of the header

The tables are run in an order in which a record comes after those that it
embeds. So whenever a field asks for the layout of a class, that class has its
fields, and the layout is the one of the record in C; and the class whose table
is run has not been asked before. Both sides lay out the same extents by the
same rule.
-/

namespace Ycetl.Ref.Webgpu

open Ycetl.Lib

/-! ## The imported names -/

section

variable (T : Target)

theorem nodup_imported : ((PyModule.imported T).map Prod.fst).Nodup := by
  simp only [PyModule.imported, List.map_cons, List.map_nil]
  decide

theorem none_not_imported : "None".toList ∉ (PyModule.imported T).map Prod.fst := by
  simp only [PyModule.imported, List.map_cons, List.map_nil]
  decide

theorem imported_cVoidP : (cVoidP, .simple T.pointer) ∈ PyModule.imported T :=
  List.mem_map.mpr ⟨("c_void_p", _), by simp, rfl⟩

theorem imported_cChar :
    ("c_char".toList, .simple (Extent.bytes 1)) ∈ PyModule.imported T :=
  List.mem_map.mpr ⟨("c_char", _), by simp, rfl⟩

/-- The type of an arithmetic kind has the extent of the kind. -/
theorem imported_builtin {kind : Builtin} (h : kind ≠ .void) : ∃ e,
    T.builtin kind = some e ∧ (kind.ctypes, .simple e) ∈ PyModule.imported T := by
  cases kind with
  | void => exact absurd rfl h
  | bool => exact ⟨_, rfl, List.mem_map.mpr ⟨("c_bool", _), by simp, rfl⟩⟩
  | charS => exact ⟨_, rfl, imported_cChar T⟩
  | sChar => exact ⟨_, rfl, imported_cChar T⟩
  | charU => exact ⟨_, rfl, List.mem_map.mpr ⟨("c_ubyte", _), by simp, rfl⟩⟩
  | uChar => exact ⟨_, rfl, List.mem_map.mpr ⟨("c_ubyte", _), by simp, rfl⟩⟩
  | short => exact ⟨_, rfl, List.mem_map.mpr ⟨("c_short", _), by simp, rfl⟩⟩
  | uShort => exact ⟨_, rfl, List.mem_map.mpr ⟨("c_ushort", _), by simp, rfl⟩⟩
  | int => exact ⟨_, rfl, List.mem_map.mpr ⟨("c_int", _), by simp, rfl⟩⟩
  | uInt => exact ⟨_, rfl, List.mem_map.mpr ⟨("c_uint", _), by simp, rfl⟩⟩
  | long => exact ⟨_, rfl, List.mem_map.mpr ⟨("c_long", _), by simp, rfl⟩⟩
  | uLong => exact ⟨_, rfl, List.mem_map.mpr ⟨("c_ulong", _), by simp, rfl⟩⟩
  | longLong => exact ⟨_, rfl, List.mem_map.mpr ⟨("c_longlong", _), by simp, rfl⟩⟩
  | uLongLong => exact ⟨_, rfl, List.mem_map.mpr ⟨("c_ulonglong", _), by simp, rfl⟩⟩
  | float => exact ⟨_, rfl, List.mem_map.mpr ⟨("c_float", _), by simp, rfl⟩⟩
  | double => exact ⟨_, rfl, List.mem_map.mpr ⟨("c_double", _), by simp, rfl⟩⟩

/-- So has the type that is taken for its size. -/
theorem imported_ctypesOfSize {x : Extent}
    (h : x = Extent.bytes 1 ∨ x.size = 2 ∧ x = T.int16 ∨ x.size = 4 ∧ x = T.int32 ∨
      x.size = 8 ∧ x = T.int64) :
    (ctypesOfSize (.ofNat x.size), .simple x) ∈ PyModule.imported T := by
  rcases h with rfl | ⟨hsize, rfl⟩ | ⟨hsize, rfl⟩ | ⟨hsize, rfl⟩
  · exact List.mem_map.mpr ⟨("c_uint8", _), by simp, rfl⟩
  · rw [hsize]
    exact List.mem_map.mpr ⟨("c_uint16", _), by simp, rfl⟩
  · rw [hsize]
    exact List.mem_map.mpr ⟨("c_uint32", _), by simp, rfl⟩
  · rw [hsize]
    exact List.mem_map.mpr ⟨("c_uint64", _), by simp, rfl⟩

end

/-! ## Modules on the way -/

/-- The imported names are bound to what was imported, and the tags to their
classes. -/
structure PyModule.Names (T : Target) (tags : List Text) (m : PyModule) : Prop where
  imported : ∀ p ∈ PyModule.imported T, m.names.lookup p.1 = some p.2
  tags : ∀ (k : Nat) tag, tags[k]? = some tag →
    tag ≠ "None".toList ∧ m.names.lookup tag = some (.structure k)

/-- The class has the layout that the record has in C. Where the record is of
no size, it has got no fields. -/
structure StructCursor.Shows (T : Target) (s : StructCursor) (c : PyClass) : Prop where
  empty : ∀ e, s.type.extent T = some e → e.size = 0 → c.extent = Extent.bytes 0
  full : ∀ es, s.Laid T es → (Extent.record es).size ≠ 0 → c.extent = Extent.record es ∧
    c.fields = (s.fields.map FieldCursor.spelling).zip (Extent.offsets es)

/-- The tables of the records in `done` have been run. -/
structure Tables (T : Target) (ss : List StructCursor) (done : List Nat) (m : PyModule) :
    Prop where
  names : m.Names T (ss.map StructCursor.spelling)
  length : m.classes.length = ss.length
  shows : ∀ k ∈ done, ∀ s, ss[k]? = some s → ∃ c, m.classes[k]? = some c ∧ s.Shows T c
  bare : ∀ k < ss.length, k ∉ done → m.classes[k]? = some PyClass.bare

section

variable {T : Target} {ss : List StructCursor} {done : List Nat} {m : PyModule}

theorem PyModule.Names.lookup_imported {tags : List Text} (h : m.Names T tags)
    {p : Text × PyValue} (hp : p ∈ PyModule.imported T) : m.lookup p.1 = some p.2 := by
  rw [PyModule.lookup, if_neg, h.imported p hp]
  intro heq
  exact none_not_imported T (List.mem_map.mpr ⟨p, hp, heq⟩)

theorem PyModule.Names.lookup_tag {tags : List Text} (h : m.Names T tags) {k : Nat} {tag : Text}
    (hk : tags[k]? = some tag) : m.lookup tag = some (.structure k) := by
  obtain ⟨hne, hlook⟩ := h.tags k tag hk
  rw [PyModule.lookup, if_neg hne, hlook]

/-- The value is a type of this extent, whatever tables are run meanwhile. -/
def Extends (T : Target) (ss : List StructCursor) (done : List Nat) (v : PyValue) (e : Extent) :
    Prop :=
  ∀ m, Tables T ss done m → ∃ m', m.layout v = some (e, m') ∧ Tables T ss done m'

theorem extends_simple (e : Extent) : Extends T ss done (.simple e) e :=
  fun m h => ⟨m, rfl, h⟩

theorem extends_array (e : Extent) : Extends T ss done (.array e) e :=
  fun m h => ⟨m, rfl, h⟩

/-- To ask a class with fields for its layout changes nothing that counts. -/
theorem extends_structure {k : Nat} (hk : k ∈ done) {s : StructCursor} (hs : ss[k]? = some s)
    {e : Extent} (he : s.type.extent T = some e) (hzero : e.size = 0 → e.align = 1)
    (hlaid : ∃ es, s.Laid T es) : Extends T ss done (.structure k) e := by
  intro m h
  obtain ⟨c, hc, hshows⟩ := h.shows k hk s hs
  have hextent : c.extent = e := by
    by_cases hsize : e.size = 0
    · rw [hshows.empty e he hsize]
      exact Extent.ext hsize.symm (hzero hsize).symm
    · obtain ⟨es, hes⟩ := hlaid
      have heq : Extent.record es = e := Option.some.inj (hes.extent.symm.trans he)
      rw [← heq]
      exact (hshows.full es hes (heq ▸ hsize)).1
  refine ⟨{ m with classes := m.classes.set k { c with isFinal := true } }, ?_, ?_⟩
  · rw [PyModule.layout, hc, ← hextent]
    rfl
  · have hlt := (List.getElem?_eq_some_iff.mp hc).1
    refine ⟨⟨h.names.imported, h.names.tags⟩, ?_, fun j hj s' hs' => ?_, fun j hj hnot => ?_⟩
    · rw [List.length_set, h.length]
    · by_cases hjk : k = j
      · subst hjk
        rw [hs] at hs'
        cases hs'
        exact ⟨_, List.getElem?_set_self hlt, hshows.empty, hshows.full⟩
      · rw [List.getElem?_set_ne hjk]
        exact h.shows j hj s' hs'
    · have hjk : k ≠ j := fun heq => hnot (heq ▸ hk)
      rw [List.getElem?_set_ne hjk]
      exact h.bare j hj hnot

/-! ## Expressions -/

/-- The record that the type embeds has its table behind it. -/
def Available (T : Target) (ss : List StructCursor) (done : List Nat) (t : CXType) : Prop :=
  ∀ tag e, t.innermost = .record tag e → tag ≠ [] →
    ∃ k ∈ done, ∃ s, ss[k]? = some s ∧ s.spelling = tag ∧ s.type.extent T = e

theorem eval_imported (h : Tables T ss done m) {s : Text} {v : PyValue}
    (hp : (s, v) ∈ PyModule.imported T) : m.eval (.named s) = some (v, m) := by
  rw [PyModule.eval, h.names.lookup_imported hp]
  rfl

/-- An array of something that has an extent. -/
theorem eval_array {ty : CType} {v : PyValue} {e : Extent} {m₁ : PyModule}
    (heval : m.eval ty = some (v, m₁)) (h₁ : Tables T ss done m₁)
    (hv : Extends T ss done v e) (n : Nat) :
    ∃ m', m.eval (.array n ty) = some (.array (e.array n), m') ∧ Tables T ss done m' := by
  obtain ⟨m₂, hlayout, h₂⟩ := hv m₁ h₁
  refine ⟨m₂, ?_, h₂⟩
  rw [PyModule.eval, heval]
  show (m₁.layout v).bind _ = _
  rw [hlayout]
  rfl

theorem extent_blob {x : Extent} (halign : x.align = 1) (hsize : x.size < 2 ^ 63) :
    (Extent.bytes 1).array ((CXType.record [] (some x)).blobSize T) = x := by
  have hint : (Int64.ofNat x.size).toInt = x.size := Int64.toInt_ofNat_of_lt hsize
  have hblob : (CXType.record [] (some x)).blobSize T = x.size := by
    show (if 0 < Int64.ofNat x.size then Int64.ofNat x.size else 0).toInt.toNat = x.size
    split
    · rw [hint, Int.toNat_natCast]
    · next hnot =>
        rw [Int64.lt_iff_toInt_lt, hint] at hnot
        have : x.size = 0 := by
          simp at hnot
          exact hnot
        rw [this]
        rfl
  rw [hblob]
  exact Extent.ext (Nat.mul_one _) halign.symm

/-- What an expression is evaluated to: a type of this extent. -/
structure Evaluates (T : Target) (ss : List StructCursor) (done : List Nat) (m : PyModule)
    (ty : CType) (e : Extent) (v : PyValue) (m' : PyModule) : Prop where
  eval : m.eval ty = some (v, m')
  tables : Tables T ss done m'
  extends_value : Extends T ss done v e

theorem evaluates_simple (h : Tables T ss done m) {s : Text} {e : Extent}
    (hp : (s, .simple e) ∈ PyModule.imported T) :
    Evaluates T ss done m (.named s) e (.simple e) m :=
  ⟨eval_imported h hp, h, extends_simple e⟩

/-- Arithmetic types have no tags. -/
theorem evaluates_arithmetic (h : Tables T ss done m) {t : CXType} (ht : t.Arithmetic) :
    ∃ e, t.extent T = some e ∧ Evaluates T ss done m (t.py T) e (.simple e) m := by
  induction t using CXType.Arithmetic.induct with
  | case1 kind =>
      obtain ⟨e, he, hp⟩ := imported_builtin T ht
      exact ⟨e, he, evaluates_simple h hp⟩
  | case2 c ih => exact ih ht
  | case3 t hbuiltin hsugar =>
      rw [CXType.Arithmetic] at ht
      · exact ht.elim
      · exact hbuiltin
      · exact hsugar

theorem evaluates_py (hlaid : ∀ s ∈ ss, ∃ es, s.Laid T es) (h : Tables T ss done m) {t : CXType}
    (hkept : t.Kept T) (havail : Available T ss done t) : ∃ e v m', t.extent T = some e ∧
      Evaluates T ss done m (t.py T) e v m' := by
  fun_induction CXType.py T t with
  | case1 kind =>
      obtain ⟨e, he, hp⟩ := imported_builtin T hkept
      exact ⟨e, _, m, he, evaluates_simple h hp⟩
  | case2 pointee => exact ⟨_, _, m, rfl, evaluates_simple h (imported_cVoidP T)⟩
  | case3 integer _ =>
      obtain ⟨e, he, heval⟩ := evaluates_arithmetic h (t := integer) hkept
      exact ⟨e, _, m, he, heval⟩
  | case4 e =>
      obtain ⟨x, rfl, hblob, -⟩ := hkept
      obtain ⟨halign, hsize⟩ := hblob rfl
      have heval := eval_imported h (imported_cChar T)
      obtain ⟨m', heval', h'⟩ := eval_array heval h (extends_simple _)
        ((CXType.record [] (some x)).blobSize T)
      rw [extent_blob halign hsize] at heval'
      exact ⟨x, _, m', rfl, heval', h', extends_array x⟩
  | case5 tag e htag =>
      obtain ⟨x, rfl, -, hzero⟩ := hkept
      obtain ⟨k, hk, s, hs, rfl, hextent⟩ := havail tag (some x) rfl htag
      refine ⟨x, .structure k, m, rfl, ?_, h, extends_structure hk hs hextent hzero
        (hlaid s (List.mem_of_getElem? hs))⟩
      rw [PyModule.eval, h.names.lookup_tag (k := k) (by rw [List.getElem?_map, hs]; rfl)]
      rfl
  | case6 elem n ih =>
      obtain ⟨e, v, m₁, he, heval⟩ := ih hkept havail
      obtain ⟨m', heval', h'⟩ := eval_array heval.eval heval.tables heval.extends_value n
      refine ⟨e.array n, _, m', ?_, heval', h', extends_array _⟩
      rw [CXType.extent, he]
      rfl
  | case7 c ih => exact ih hkept havail
  | case8 t hbuiltin hpointer henum hrecord harray hsugar =>
      cases t with
      | other e =>
          obtain ⟨x, rfl, hx⟩ := hkept
          exact ⟨x, _, m, rfl, evaluates_simple h (imported_ctypesOfSize T hx)⟩
      | builtin kind => exact absurd rfl (hbuiltin kind)
      | pointer p => exact absurd rfl (hpointer p)
      | enum i => exact absurd rfl (henum i)
      | record name e => exact absurd rfl (hrecord name e)
      | constantArray elem n => exact absurd rfl (harray elem n)
      | sugar c => exact absurd rfl (hsugar c)
      | incompleteArray elem => exact hkept.elim
      | functionProto result args => exact hkept.elim
      | functionNoProto result => exact hkept.elim

/-- The tag in the text of the type is one of a definition. -/
theorem tagIsWord (hwords : ∀ s ∈ ss, Word s.spelling) {t : CXType} (hkept : t.Kept T)
    (havail : Available T ss done t) : t.TagIsWord := by
  induction t using CXType.Kept.induct with
  | case1 | case2 | case7 | case8 | case9 | case10 => trivial
  | case3 integer => 
      induction integer using CXType.Arithmetic.induct with
      | case1 kind => trivial
      | case2 c ih => exact ih hkept fun tag e h => nomatch h
      | case3 t hbuiltin hsugar =>
          rw [CXType.Kept, CXType.Arithmetic] at hkept
          · exact hkept.elim
          · exact hbuiltin
          · exact hsugar
  | case4 tag e =>
      by_cases htag : tag = []
      · subst htag
        exact fun c hc => absurd hc List.not_mem_nil
      · obtain ⟨k, -, s, hs, rfl, -⟩ := havail tag e rfl htag
        exact hwords s (List.mem_of_getElem? hs)
  | case5 elem n ih => exact ih hkept havail
  | case6 c ih => exact ih hkept havail

/-! ## A table -/

theorem evaluates_text (hwords : ∀ s ∈ ss, Word s.spelling)
    (hlaid : ∀ s ∈ ss, ∃ es, s.Laid T es) (h : Tables T ss done m) {t : CXType}
    (hkept : t.Kept T) (havail : Available T ss done t) : ∃ e v m', t.extent T = some e ∧
      m.evalText (ctypesFor T t) = some (v, m') ∧ Tables T ss done m' ∧
      Extends T ss done v e := by
  obtain ⟨e, v, m', he, heval⟩ := evaluates_py hlaid h hkept havail
  refine ⟨e, v, m', he, ?_, heval.tables, heval.extends_value⟩
  rw [PyModule.evalText, readCtypes_ctypesFor T (tagIsWord hwords hkept havail)]
  exact heval.eval

/-- The types of all fields are evaluated before the first is asked for its layout. -/
theorem evalAll_spec (hwords : ∀ s ∈ ss, Word s.spelling) (hlaid : ∀ s ∈ ss, ∃ es, s.Laid T es)
    (h : Tables T ss done m) {ts : List CXType} (hkept : ∀ t ∈ ts, t.Kept T)
    (havail : ∀ t ∈ ts, Available T ss done t) : ∃ vs es m',
      m.evalAll (ts.map (ctypesFor T)) = some (vs, m') ∧ Tables T ss done m' ∧
      ts.map (CXType.extent T) = es.map some ∧ List.Forall₂ (Extends T ss done) vs es := by
  induction ts generalizing m with
  | nil => exact ⟨[], [], m, rfl, h, rfl, .nil⟩
  | cons t ts ih =>
      obtain ⟨e, v, m₁, he, heval, h₁, hv⟩ := evaluates_text hwords hlaid h
        (hkept t List.mem_cons_self) (havail t List.mem_cons_self)
      obtain ⟨vs, es, m', hrest, h', hes, hvs⟩ := ih h₁
        (fun t ht => hkept t (List.mem_cons_of_mem _ ht))
        (fun t ht => havail t (List.mem_cons_of_mem _ ht))
      refine ⟨v :: vs, e :: es, m', ?_, h', ?_, .cons hv hvs⟩
      · rw [List.map_cons, PyModule.evalAll, heval]
        show (m₁.evalAll _).bind _ = _
        rw [hrest]
        rfl
      · rw [List.map_cons, List.map_cons, he, hes]

theorem layouts_spec (h : Tables T ss done m) {vs : List PyValue} {es : List Extent}
    (hvs : List.Forall₂ (Extends T ss done) vs es) :
    ∃ m', m.layouts vs = some (es, m') ∧ Tables T ss done m' := by
  induction hvs generalizing m with
  | nil => exact ⟨m, rfl, h⟩
  | cons hv _ ih =>
      obtain ⟨m₁, hlayout, h₁⟩ := hv m h
      obtain ⟨m', hrest, h'⟩ := ih h₁
      refine ⟨m', ?_, h'⟩
      rw [PyModule.layouts, hlayout]
      show (m₁.layouts _).bind _ = _
      rw [hrest]
      rfl

/-- The class of a table that has been run. -/
theorem Tables.assign (h : Tables T ss done m) {k : Nat} {s : StructCursor} (hs : ss[k]? = some s)
    {c : PyClass} (hc : s.Shows T c) :
    Tables T ss (done ++ [k]) { m with classes := m.classes.set k c } := by
  have hlt := (List.getElem?_eq_some_iff.mp hs).1
  refine ⟨⟨h.names.imported, h.names.tags⟩, ?_, fun j hj s' hs' => ?_, fun j hj hnot => ?_⟩
  · rw [List.length_set, h.length]
  · by_cases hjk : k = j
    · subst hjk
      rw [hs] at hs'
      cases hs'
      exact ⟨c, List.getElem?_set_self (by rw [h.length]; exact hlt), hc⟩
    · rw [List.getElem?_set_ne hjk]
      refine h.shows j ?_ s' hs'
      rcases List.mem_append.mp hj with hj | hj
      · exact hj
      · exact absurd (List.mem_singleton.mp hj).symm hjk
  · have hjk : k ≠ j := fun heq => hnot (heq ▸ List.mem_append_right _ (List.mem_singleton_self k))
    rw [List.getElem?_set_ne hjk]
    exact h.bare j hj fun hmem => hnot (List.mem_append_left _ hmem)

theorem isOpaque_iff {s : StructCursor} {e : Extent} (he : s.type.extent T = some e)
    (hsize : e.size < 2 ^ 60) : (recordInfo T s).isOpaque = true ↔ e.size = 0 := by
  have hsizeOf := CXType.getSizeOf_eq he
  have hint : (Int64.ofNat e.size).toInt = e.size := Int64.toInt_ofNat_of_lt (by omega)
  have hclamp : (recordInfo T s).sizeBytes = .ofNat e.size := by
    show clamp _ = _
    rw [clamp, hsizeOf, if_neg]
    rw [Int64.lt_iff_toInt_lt, hint]
    simp
  rw [RecordInfo.isOpaque, decide_eq_true_iff, hclamp, Int64.le_iff_toInt_le, hint]
  simp

theorem fieldNames (s : StructCursor) :
    (recordInfo T s).fields.map FieldInfo.name = s.fields.map FieldCursor.spelling := by
  show (s.fields.map (fieldInfo T)).map FieldInfo.name = _
  rw [List.map_map]
  rfl

theorem fieldTypes (s : StructCursor) : (recordInfo T s).fields.map FieldInfo.ctypesType =
    (s.fields.map FieldCursor.type).map (ctypesFor T) := by
  show (s.fields.map (fieldInfo T)).map FieldInfo.ctypesType = _
  rw [List.map_map, List.map_map]
  rfl

/-- The table of a record makes the layout of its class. -/
theorem exec_fieldTable (hwords : ∀ s ∈ ss, Word s.spelling)
    (hlaid : ∀ s ∈ ss, ∃ es, s.Laid T es) (h : Tables T ss done m) {k : Nat} {s : StructCursor}
    (hs : ss[k]? = some s) (hk : k ∉ done) (hkept : ∀ f ∈ s.fields, f.type.Kept T)
    (havail : ∀ f ∈ s.fields, Available T ss done f.type) : ∃ m',
      Python.Statement.exec T m (.fieldTable (recordInfo T s)) = some m' ∧
        Tables T ss (done ++ [k]) m' := by
  obtain ⟨es, hes⟩ := hlaid s (List.mem_of_getElem? hs)
  have hbare := h.bare k (List.getElem?_eq_some_iff.mp hs).1 hk
  have hzero_iff := isOpaque_iff hes.extent hes.size_lt
  rw [Python.Statement.exec]
  split
  · next hempty =>
      have hsize := hzero_iff.mp hempty
      have hset : m.classes.set k PyClass.bare = m.classes := by
        obtain ⟨hlt, hget⟩ := List.getElem?_eq_some_iff.mp hbare
        rw [← hget, List.set_getElem_self]
      refine ⟨m, rfl, ?_⟩
      have hassign := h.assign hs (c := PyClass.bare) ⟨fun _ _ _ => rfl, fun es' hes' hne => ?_⟩
      · rw [hset] at hassign
        exact hassign
      · have heq := Option.some.inj (hes'.extent.symm.trans hes.extent)
        exact absurd (heq ▸ hsize) hne
  · next hfull =>
      rw [hzero_iff] at hfull
      have hkept' : ∀ t ∈ s.fields.map FieldCursor.type, t.Kept T := List.forall_mem_map.mpr hkept
      obtain ⟨vs, es', m₁, heval, h₁, hes', hvs⟩ := evalAll_spec hwords hlaid h hkept'
        (List.forall_mem_map.mpr havail)
      have hmembers : es' = es := by
        have hsame := hes.members
        rw [List.map_map] at hes'
        exact List.map_injective_iff.mpr (Option.some_injective _) (hes'.symm.trans hsame)
      subst hmembers
      obtain ⟨m₂, hlayouts, h₂⟩ := layouts_spec h₁ hvs
      have hbare₁ := h₁.bare k (List.getElem?_eq_some_iff.mp hs).1 hk
      have hbare₂ := h₂.bare k (List.getElem?_eq_some_iff.mp hs).1 hk
      have htag : m₁.lookup (recordInfo T s).name = some (.structure k) :=
        h₁.names.lookup_tag (by rw [List.getElem?_map, hs]; rfl)
      refine ⟨_, ?_, h₂.assign hs (c := ⟨(s.fields.map FieldCursor.spelling).zip
        (Extent.offsets es'), Extent.record es', true⟩)
          ⟨fun e he hzero => ?_, fun es hes'' _ => ?_⟩⟩
      · rw [fieldTypes, heval]
        simp only [Option.bind_eq_bind, Option.bind_some, htag, fieldNames]
        rw [PyModule.setFields, hbare₁]
        show (m₁.layouts vs).bind _ = _
        rw [hlayouts]
        show (m₂.classes[k]?).bind _ = _
        rw [hbare₂]
        rfl
      · have heq := Option.some.inj (he.symm.trans hes.extent)
        exact absurd (heq ▸ hzero) hfull
      · have heq : es = es' := by
          exact List.map_injective_iff.mpr (Option.some_injective _)
            (hes''.members.symm.trans hes.members)
        subst heq
        exact ⟨rfl, rfl⟩

/-! ## All tables -/

/-- The tables are run one after the other, each of them behind those of the
records that it embeds. -/
theorem exec_fieldTables (hwords : ∀ s ∈ ss, Word s.spelling)
    (hlaid : ∀ s ∈ ss, ∃ es, s.Laid T es) (hkept : ∀ s ∈ ss, ∀ f ∈ s.fields, f.type.Kept T)
    {order : List Nat} {tables : List RecordInfo}
    (htables : order.mapM (fun i => (ss.map (recordInfo T))[i]?) = some tables)
    (hnd : (done ++ order).Nodup)
    (havail : ∀ pre k post, done ++ order = pre ++ k :: post → ∀ s, ss[k]? = some s →
      ∀ f ∈ s.fields, Available T ss pre f.type)
    (h : Tables T ss done m) : ∃ m',
      (tables.map Python.Statement.fieldTable).foldlM (Python.Statement.exec T) m = some m' ∧
        Tables T ss (done ++ order) m' := by
  induction order generalizing done tables m with
  | nil =>
      cases htables
      exact ⟨m, rfl, (List.append_nil done).symm ▸ h⟩
  | cons k order ih =>
      rw [List.mapM_cons, Option.bind_eq_bind, Option.bind_eq_some_iff] at htables
      obtain ⟨r, hr, htables⟩ := htables
      rw [Option.bind_eq_bind, Option.bind_eq_some_iff] at htables
      obtain ⟨rest, hrest, htables⟩ := htables
      cases htables
      rw [List.getElem?_map, Option.map_eq_some_iff] at hr
      obtain ⟨s, hs, rfl⟩ := hr
      have hk : k ∉ done := fun hk =>
        (List.nodup_append.mp hnd).2.2 k hk k List.mem_cons_self rfl
      obtain ⟨m₁, hexec, h₁⟩ := exec_fieldTable hwords hlaid h hs hk
        (hkept s (List.mem_of_getElem? hs)) (havail done k order rfl s hs)
      have hassoc : done ++ [k] ++ order = done ++ k :: order := List.append_assoc ..
      obtain ⟨m', hrun, h'⟩ := ih hrest (hassoc ▸ hnd) (hassoc ▸ havail) h₁
      refine ⟨m', ?_, hassoc ▸ h'⟩
      rw [List.map_cons, List.foldlM_cons, hexec]
      exact hrun

end

end Ycetl.Ref.Webgpu
