import Ycetl.Proofs.PyResolved

/-!
# When the typedefs are resolved

The type map is complete and the same for every order of the typedefs where
the arrays are settled, and only there. The order that shows it is the one with
an array in front: it is registered before anything it could name is.
-/

namespace Ycetl.Ref.Webgpu

open Ycetl.Lib

variable {tree : ApiTree} {spelling : Text → Spelling} {m m' : PyTypeMap}

/-! ## Another order -/

section

variable {ts : List TypedefInfo} (hperm : ts.Perm tree.typedefs)

include hperm

theorem isTypedef_perm : ({ tree with typedefs := ts } : ApiTree).IsTypedef = tree.IsTypedef :=
  funext fun _ => propext (hperm.map TypedefInfo.name).mem_iff

theorem follows_perm : ({ tree with typedefs := ts } : ApiTree).Follows = tree.Follows := by
  funext s
  rw [ApiTree.Follows, isTypedef_perm hperm]
  rfl

theorem expands_perm :
    ({ tree with typedefs := ts } : ApiTree).Expands spelling = tree.Expands spelling := by
  rw [ApiTree.Expands, isTypedef_perm hperm]
  rfl

theorem wellSpelled_perm (hwell : WellSpelled tree spelling) :
    WellSpelled { tree with typedefs := ts } spelling where
  underlying t ht := hwell.underlying t (hperm.subset ht)
  identifiers s h := by
    rw [isTypedef_perm hperm] at h
    exact hwell.identifiers s h
  known t ht := by
    rw [isTypedef_perm hperm]
    exact hwell.known t (hperm.subset ht)
  own_tag t ht := hwell.own_tag t (hperm.subset ht)
  acyclic := by
    obtain ⟨rank, hrank⟩ := hwell.acyclic
    rw [follows_perm hperm]
    exact ⟨rank, fun t ht => hrank t (hperm.subset ht)⟩

theorem arraysSettled_perm (h : ArraysSettled tree spelling) :
    ArraysSettled { tree with typedefs := ts } spelling := by
  intro t ht
  rw [follows_perm hperm, expands_perm hperm]
  exact h t (hperm.subset ht)

end

/-- Where the arrays are settled the typedefs are resolved. -/
theorem resolves_of_settled (hwell : WellSpelled tree spelling)
    (hsettled : ArraysSettled tree spelling) : ResolvesTypedefs tree spelling where
  terminates := by
    obtain ⟨k, hk, hlast⟩ := resolve_stops tree.start tree.typedefs
    exact ⟨k, Nat.le_trans hk List.countP_le_length, hlast⟩
  denotes t ht := by
    obtain ⟨ty, hty⟩ := typedef_expands hwell t ht
    exact ⟨ty.text, ty,
      (lookup_build hwell hsettled).mpr ⟨isTypedef_iff.mpr ⟨t, ht, rfl⟩, ty, hty, rfl⟩,
      hty, readExpr_expands hwell hty⟩
  any_order ts hperm s := by
    have hiff : ∀ text, (buildPyMap { tree with typedefs := ts }).typedefToCtypes.lookup s =
        some text ↔ (buildPyMap tree).typedefToCtypes.lookup s = some text := by
      intro text
      rw [lookup_build hwell hsettled,
        lookup_build (wellSpelled_perm hperm hwell) (arraysSettled_perm hperm hsettled),
        isTypedef_perm hperm, expands_perm hperm]
    exact Option.ext hiff

/-! ## An array in front -/

/-- What is registered stays as it is. -/
theorem register_stays {t : TypedefInfo} {s text : Text}
    (hs : m.typedefToCtypes.lookup s = some text) (h : m.register t = some m') :
    m'.typedefToCtypes.lookup s = some text := by
  obtain ⟨hnew, -, rfl⟩ := register_cases h
  have hne : (s == t.name) = false := by
    rw [beq_eq_false_iff_ne]
    rintro rfl
    rw [hnew] at hs
    cases hs
  rw [List.lookup_cons, hne]
  exact hs

/-- The first of the typedefs is looked up in the empty map, and stays as it is
registered then. -/
theorem lookup_build_first {t : TypedefInfo} {rest : List TypedefInfo}
    (hfirst : (tree.start.register t).isSome) :
    (buildPyMap { tree with typedefs := t :: rest }).typedefToCtypes.lookup t.name =
      some (tree.start.lookup t.underlying) := by
  obtain ⟨m₀, hm₀⟩ := Option.isSome_iff_exists.mp hfirst
  have hstay : ∀ {m m' : PyTypeMap} {u : TypedefInfo}, u ∈ t :: rest →
      m.typedefToCtypes.lookup t.name = some (tree.start.lookup t.underlying) →
      m.register u = some m' →
      m'.typedefToCtypes.lookup t.name = some (tree.start.lookup t.underlying) :=
    fun _ => register_stays
  have hentry : m₀.typedefToCtypes.lookup t.name = some (tree.start.lookup t.underlying) := by
    obtain ⟨-, -, rfl⟩ := register_cases hm₀
    exact List.lookup_cons_self
  have hpass : ((tree.start.pass false (t :: rest)).1).typedefToCtypes.lookup t.name =
      some (tree.start.lookup t.underlying) := by
    rw [PyTypeMap.pass, hm₀]
    exact pass_keeps hstay (List.subset_cons_self t rest) hentry true
  have hloop : (tree.start.resolve (t :: rest)).typedefToCtypes.lookup t.name =
      some (tree.start.lookup t.underlying) := by
    rw [PyTypeMap.resolve]
    split
    · exact resolve_keeps hstay hpass
    · exact hpass
  have hfill := lookup_fill (tree.start.resolve (t :: rest)) (t :: rest) t.name
  rw [hloop] at hfill
  exact hfill

/-- An array is registered by the first pass, whatever its element is. -/
theorem lookup_build_array (hwell : WellSpelled tree spelling) {t : TypedefInfo}
    (ht : t ∈ tree.typedefs) {n : Nat} {dims : List Nat} (hd : (spelling t.name).dims = n :: dims)
    (rest : List TypedefInfo) :
    (buildPyMap { tree with typedefs := t :: rest }).typedefToCtypes.lookup t.name =
      some (tree.start.element (spelling t.name) ++ " * ".toList ++ numeral n) := by
  have hspell := spellable_typedef hwell ht
  have hregister : (tree.start.register t).isSome := by
    have hbracket : ¬ (tree.start.lookup t.underlying = cVoidP ∧ t.underlying ≠ "void *".toList ∧
        '*' ∉ t.underlying ∧ '[' ∉ t.underlying) := by
      intro h
      rw [hwell.underlying t ht] at h
      have hdims := ((text_plain hspell).mp h.2.2).2
      rw [hd] at hdims
      cases hdims
    rw [PyTypeMap.register, if_neg (by simp [ApiTree.start]), if_neg hbracket]
    rfl
  rw [lookup_build_first hregister, hwell.underlying t ht, lookup_text _ hspell, hd]

/-- Where the typedefs are resolved the arrays are settled. -/
theorem settled_of_resolves (hwell : WellSpelled tree spelling)
    (h : ResolvesTypedefs tree spelling) : ArraysSettled tree spelling := by
  intro t ht n dims hd
  obtain ⟨pre, post, htypedefs⟩ := List.append_of_mem ht
  have hperm : (t :: (pre ++ post)).Perm tree.typedefs := by
    rw [htypedefs]
    exact List.perm_middle.symm
  obtain ⟨text, ty, hentry, hty, hread⟩ := h.denotes t ht
  rw [← h.any_order _ hperm, lookup_build_array hwell ht hd] at hentry
  rw [← Option.some.inj hentry, readExpr_times] at hread
  obtain ⟨elem', helem', hty'⟩ := Option.map_eq_some_iff.mp hread
  obtain ⟨elem, helem, rfl⟩ := (expands_array hd).mp hty
  obtain ⟨hsize, hsame⟩ := CType.array.inj hty'
  refine ⟨hsize.symm, fun hfollows => ?_⟩
  have hvoid : tree.start.element (spelling t.name) = cVoidP := by
    rw [PyTypeMap.element, hfollows.1, if_neg Bool.false_ne_true]
    exact (lookupName_absent rfl rfl hfollows.2.1 rfl).2 hfollows.2.2.1
  rw [hvoid, readExpr_cVoidP, hsame] at helem'
  rw [Option.some.inj helem']
  exact (expands_follows hfollows).mp helem

/-- The typedefs are resolved, completely and whatever their order, just where
the arrays are settled. -/
theorem typedefs_resolved_iff (hwell : WellSpelled tree spelling) :
    ResolvesTypedefs tree spelling ↔ ArraysSettled tree spelling :=
  ⟨settled_of_resolves hwell, resolves_of_settled hwell⟩

/-- A header with nothing but these typedefs, in the order of their names. -/
def header (typedefs : List (Text × Text)) : ApiTree :=
  ⟨[], [], typedefs.map fun p => ⟨p.1, p.2, false, [], []⟩, [], []⟩

theorem header_wellSpelled {typedefs : List (Text × Text)} (rank : Text → Nat)
    (h : ∀ t ∈ (header typedefs).typedefs, t.underlying = (spelling t.name).text ∧
      (t.name ≠ [] ∧ t.name ≠ "const".toList ∧ ' ' ∉ t.name ∧ '*' ∉ t.name ∧ '[' ∉ t.name) ∧
      ((base.lookup (spelling t.name).name).isSome ∨
        (spelling t.name).name ∈ (header typedefs).typedefs.map TypedefInfo.name ∧
          rank (spelling t.name).name < rank t.name)) :
    WellSpelled (header typedefs) spelling := by
  have htag : ∀ s, ¬ (header typedefs).IsTag s := fun s h =>
    h.elim List.not_mem_nil List.not_mem_nil
  refine ⟨fun t ht => (h t ht).1, fun s hs => ?_, fun t ht => ?_, fun t ht htagged => ?_,
    rank, fun t ht hfollows => ?_⟩
  · obtain ⟨t, ht, rfl⟩ := isTypedef_iff.mp (hs.resolve_left (htag s))
    obtain ⟨hne, hconst, hspace, hstar, hopen⟩ := (h t ht).2.1
    exact ⟨hne, hconst, fun c hc => ⟨ne_of_mem_of_not_mem hc hspace,
      ne_of_mem_of_not_mem hc hstar, ne_of_mem_of_not_mem hc hopen⟩⟩
  · exact (h t ht).2.2.imp id fun hname => Or.inr hname.1
  · exact absurd htagged (htag t.name)
  · refine ((h t ht).2.2.resolve_left fun hbase => ?_).2
    rw [hfollows.2.1] at hbase
    cases hbase

def flags : ApiTree :=
  header [("Flags".toList, "uint64_t".toList), ("Handles".toList, "void *[4]".toList),
    ("Usage".toList, "const Flags".toList)]

def flagsSpelling (s : Text) : Spelling :=
  if s = "Usage".toList then ⟨true, "Flags".toList, false, []⟩
  else if s = "Handles".toList then ⟨false, "void".toList, true, [4]⟩
  else ⟨false, "uint64_t".toList, false, []⟩

theorem flags_wellSpelled : WellSpelled flags flagsSpelling :=
  header_wellSpelled (fun s => if s = "Usage".toList then 1 else 0) (by decide)

theorem flags_settled : ArraysSettled flags flagsSpelling := by
  intro t ht n dims hd
  have hall : ∀ t ∈ flags.typedefs, (flagsSpelling t.name).dims = [] ∨
      (flagsSpelling t.name).dims = [4] ∧ (flagsSpelling t.name).pointer = true := by decide
  rcases hall t ht with hnone | hone
  · rw [hnone] at hd
    cases hd
  · obtain ⟨hfour, hpointer⟩ := hone
    rw [hfour] at hd
    obtain ⟨rfl, rfl⟩ := List.cons.inj hd
    refine ⟨rfl, fun hfollows => ?_⟩
    rw [hfollows.1] at hpointer
    cases hpointer

theorem typedefs_resolved_flags : ResolvesTypedefs flags flagsSpelling :=
  (typedefs_resolved_iff flags_wellSpelled).mpr flags_settled

/-- An array comes before what its elements are. -/
def rows : ApiTree := header [("Alpha".toList, "Beta[4]".toList), ("Beta".toList, "int".toList)]

def rowsSpelling (s : Text) : Spelling :=
  if s = "Alpha".toList then ⟨false, "Beta".toList, false, [4]⟩
  else ⟨false, "int".toList, false, []⟩

theorem rows_wellSpelled : WellSpelled rows rowsSpelling :=
  header_wellSpelled (fun s => if s = "Alpha".toList then 1 else 0) (by decide)

theorem rows_expands : rows.Expands rowsSpelling (rowsSpelling "Alpha".toList)
    (.array 4 (.named "c_int".toList)) := by
  have hbeta : rows.Expands rowsSpelling (rowsSpelling "Beta".toList) (.named "c_int".toList) :=
    .base false (by decide)
  have htag : ¬ rows.IsTag "Beta".toList := fun h => h.elim List.not_mem_nil List.not_mem_nil
  have hdef : rows.IsTypedef "Beta".toList := List.mem_cons_of_mem _ List.mem_cons_self
  exact .array (.typedef false (by decide) htag hdef hbeta)

/-- Four integers come out as four pointers. -/
theorem rows_not_resolved : WellSpelled rows rowsSpelling ∧
    rows.Expands rowsSpelling (rowsSpelling "Alpha".toList) (.array 4 (.named "c_int".toList)) ∧
    (buildPyMap rows).typedefToCtypes.lookup "Alpha".toList = some "c_void_p * 4".toList ∧
    ¬ ResolvesTypedefs rows rowsSpelling := by
  have hentry : (buildPyMap rows).typedefToCtypes.lookup "Alpha".toList =
      some (cVoidP ++ " * ".toList ++ numeral 4) :=
    lookup_build_array rows_wellSpelled List.mem_cons_self rfl _
  refine ⟨rows_wellSpelled, rows_expands, hentry, fun h => ?_⟩
  obtain ⟨text, ty, htext, hty, hread⟩ := h.denotes _ List.mem_cons_self
  have hpointers : text = cVoidP ++ " * ".toList ++ numeral 4 :=
    Option.some.inj (htext.symm.trans hentry)
  rw [hpointers, readExpr_times, readExpr_cVoidP, hty.deterministic rows_expands] at hread
  revert hread
  decide

end Ycetl.Ref.Webgpu
