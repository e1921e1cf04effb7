import Ycetl.Proofs.PyExpansions
import Ycetl.Proofs.PyTypeMap

/-!
# The typedefs that come out resolved

The loop tells an unresolved name from a resolved one by the answer
`c_void_p`, and only where it is the whole answer. In front of a size it is
not, and an array whose element is not registered yet is registered as one of
pointers. Where that cannot happen, or happens to be right, every entry is the
text of what its typedef expands to; this is the invariant, and it does not
speak of the order.
-/

namespace Ycetl.Ref.Webgpu

open Ycetl.Lib

/-- A map with the names of the tree, in which every entry is the text of what
its typedef expands to. -/
structure Resolved (tree : ApiTree) (spelling : Text → Spelling) (m : PyTypeMap) : Prop where
  enumNames : m.enumNames = tree.enums.map EnumInfo.name
  recordNames : m.recordNames = tree.records.map RecordInfo.name
  entries : ∀ {name text}, m.typedefToCtypes.lookup name = some text → tree.IsTypedef name ∧
    ∃ ty, tree.Expands spelling (spelling name) ty ∧ text = ty.text

variable {tree : ApiTree} {spelling : Text → Spelling} {m m' : PyTypeMap} {t : TypedefInfo}

theorem spellable_typedef (hwell : WellSpelled tree spelling) (ht : t ∈ tree.typedefs) :
    Spellable (spelling t.name).name := by
  rcases hwell.known t ht with hbase | hname
  · obtain ⟨c, hc⟩ := Option.isSome_iff_exists.mp hbase
    exact spellable_base hc
  · exact spellable_identifier (hwell.identifiers _ hname)

/-- A name that is in no table is answered by itself or by `c_void_p`. -/
theorem lookupName_absent {s : Text} (henums : m.enumNames = tree.enums.map EnumInfo.name)
    (hrecords : m.recordNames = tree.records.map RecordInfo.name) (hbase : base.lookup s = none)
    (habsent : m.typedefToCtypes.lookup s = none) :
    (tree.IsTag s → m.lookupName s = s) ∧ (¬ tree.IsTag s → m.lookupName s = cVoidP) := by
  rw [PyTypeMap.lookupName, hbase, habsent, henums, hrecords]
  dsimp only
  constructor
  · intro htag
    split
    · rfl
    · next henum => rw [if_pos (htag.resolve_left henum)]
  · intro htag
    rw [if_neg fun h => htag (Or.inl h), if_neg fun h => htag (Or.inr h)]

/-- The element of a spelling is answered by the text of what it expands to, or
by `c_void_p` as long as what it leads to is not registered. -/
theorem element_resolved (hwell : WellSpelled tree spelling) (hm : Resolved tree spelling m)
    (ht : t ∈ tree.typedefs) :
    (∃ ty, tree.Expands spelling { spelling t.name with dims := [] } ty ∧
      m.element (spelling t.name) = ty.text) ∨
    tree.Follows (spelling t.name) ∧ m.typedefToCtypes.lookup (spelling t.name).name = none ∧
      m.element (spelling t.name) = cVoidP := by
  generalize hs : spelling t.name = s
  have hcases := element_cases hwell ht
  rw [hs] at hcases
  have hname : s.pointer = false → m.element s = m.lookupName s.name := by
    intro hp
    rw [PyTypeMap.element, hp]
    rfl
  cases hcases with
  | pointer hp => exact Or.inl ⟨_, expands_pointer hp, if_pos hp⟩
  | base hp hbase =>
      refine Or.inl ⟨_, expands_base hp hbase, ?_⟩
      rw [hname hp, PyTypeMap.lookupName, hbase]
      rfl
  | tag hp hbase htag =>
      refine Or.inl ⟨_, expands_tag hp hbase htag, ?_⟩
      rw [hname hp]
      cases hentry : m.typedefToCtypes.lookup s.name with
      | none => exact (lookupName_absent hm.enumNames hm.recordNames hbase hentry).1 htag
      | some text =>
          -- The typedef of that name is the one of the enum or the record.
          obtain ⟨hdef, ty, hty, rfl⟩ := hm.entries hentry
          obtain ⟨u, hu, hun⟩ := isTypedef_iff.mp hdef
          obtain ⟨b, hown⟩ := hwell.own_tag u hu (hun ▸ htag)
          rw [hun] at hown
          rw [hown] at hty
          have hself : ty = .named s.name := hty.deterministic (.tag b hbase htag)
          rw [hself] at hentry
          rw [PyTypeMap.lookupName, hbase, hentry]
  | follows hfollows =>
      have hbase := hfollows.2.1
      rw [hname hfollows.1]
      cases hentry : m.typedefToCtypes.lookup s.name with
      | none => exact Or.inr ⟨hfollows, rfl,
          (lookupName_absent hm.enumNames hm.recordNames hbase hentry).2 hfollows.2.2.1⟩
      | some text =>
          obtain ⟨-, ty, hty, rfl⟩ := hm.entries hentry
          refine Or.inl ⟨ty, (expands_follows hfollows).mpr hty, ?_⟩
          rw [PyTypeMap.lookupName, hbase, hentry]

/-- What is answered for a typedef is the text of what it expands to, or it is
`c_void_p` and the typedef is one of another that is not registered. -/
theorem lookup_resolved (hwell : WellSpelled tree spelling) (hsettled : ArraysSettled tree spelling)
    (hm : Resolved tree spelling m) (ht : t ∈ tree.typedefs) :
    (∃ ty, tree.Expands spelling (spelling t.name) ty ∧ m.lookup t.underlying = ty.text) ∨
    tree.Follows (spelling t.name) ∧ (spelling t.name).dims = [] ∧
      m.typedefToCtypes.lookup (spelling t.name).name = none ∧
      m.lookup t.underlying = cVoidP := by
  have hlookup := lookup_text m (spellable_typedef hwell ht)
  rw [← hwell.underlying t ht] at hlookup
  rw [hlookup]
  have helement := element_resolved hwell hm ht
  cases hd : (spelling t.name).dims with
  | nil =>
      rw [core_eq hd] at helement
      rcases helement with hleft | hright
      · exact Or.inl hleft
      · exact Or.inr ⟨hright.1, rfl, hright.2⟩
  | cons n dims =>
      obtain ⟨hsize, hfollowed⟩ := hsettled t ht n dims hd
      obtain ⟨ty, hty, htext⟩ : ∃ ty, tree.Expands spelling
          { spelling t.name with dims := [] } ty ∧ m.element (spelling t.name) = ty.text := by
        rcases helement with hleft | hright
        · exact hleft
        · obtain ⟨hfollows, -, hvoid⟩ := hright
          exact ⟨_, (expands_follows hfollows).mpr (hfollowed hfollows), hvoid⟩
      refine Or.inl ⟨_, (expands_array hd).mpr ⟨ty, hty, rfl⟩, ?_⟩
      rw [CType.text, htext, hsize]

theorem Resolved.register (hwell : WellSpelled tree spelling)
    (hsettled : ArraysSettled tree spelling) (hm : Resolved tree spelling m)
    (ht : t ∈ tree.typedefs) (h : m.register t = some m') : Resolved tree spelling m' := by
  obtain ⟨-, hkept, rfl⟩ := register_cases h
  refine ⟨hm.enumNames, hm.recordNames, fun {name text} hentry => ?_⟩
  rw [List.lookup_cons] at hentry
  split at hentry
  · next hname =>
      rw [eq_of_beq hname]
      refine ⟨isTypedef_iff.mpr ⟨t, ht, rfl⟩, ?_⟩
      rcases lookup_resolved hwell hsettled hm ht with ⟨ty, hty, htext⟩ | hright
      · exact ⟨ty, hty, (Option.some.inj hentry).symm.trans htext⟩
      · obtain ⟨hfollows, hdims, -, hvoid⟩ := hright
        have hplain := (text_plain (spellable_typedef hwell ht)).mpr ⟨hfollows.1, hdims⟩
        rw [← hwell.underlying t ht] at hplain
        have hstar : t.underlying ≠ "void *".toList := by
          intro hvoid
          rw [hvoid] at hplain
          revert hplain
          decide
        exact absurd ⟨hvoid, hstar, hplain⟩ hkept
  · exact hm.entries hentry

theorem resolved_loop (hwell : WellSpelled tree spelling)
    (hsettled : ArraysSettled tree spelling) :
    Resolved tree spelling (tree.start.resolve tree.typedefs) := by
  have hstart : Resolved tree spelling tree.start :=
    ⟨rfl, rfl, fun hentry => absurd hentry (by simp [ApiTree.start])⟩
  exact resolve_keeps (fun ht hm h => hm.register hwell hsettled ht h) hstart

/-- What the loop leaves unregistered expands to `c_void_p`. -/
theorem unregistered_expands (hwell : WellSpelled tree spelling)
    (hsettled : ArraysSettled tree spelling) (hm : Resolved tree spelling m)
    (hstuck : ∀ t ∈ tree.typedefs, m.register t = none) : ∀ t ∈ tree.typedefs,
    m.typedefToCtypes.lookup t.name = none →
      tree.Expands spelling (spelling t.name) (.named cVoidP) := by
  refine typedef_induction hwell fun t ht ih hnew => ?_
  have hvoid : m.lookup t.underlying = cVoidP := by
    have hnone := hstuck t ht
    rw [PyTypeMap.register, hnew, Option.isSome_none, if_neg Bool.false_ne_true] at hnone
    split at hnone
    · next h => exact h.1
    · cases hnone
  rcases lookup_resolved hwell hsettled hm ht with hleft | hright
  · obtain ⟨ty, hty, htext⟩ := hleft
    have hread := readExpr_expands hwell hty
    rw [← htext, hvoid, readExpr_cVoidP] at hread
    rw [Option.some.inj hread]
    exact hty
  · obtain ⟨hfollows, hdims, hentry, -⟩ := hright
    obtain ⟨u, hu, hname⟩ := isTypedef_iff.mp hfollows.2.2.2
    rw [← hname] at hentry
    have hexpands := ih u hu hfollows hname.symm hentry
    rw [hname] at hexpands
    rw [← core_eq hdims]
    exact (expands_follows hfollows).mpr hexpands

/-- The finished map has the typedefs of the tree, each with the text of what it
expands to, and nothing else. -/
theorem lookup_build (hwell : WellSpelled tree spelling) (hsettled : ArraysSettled tree spelling)
    {name text : Text} : (buildPyMap tree).typedefToCtypes.lookup name = some text ↔
      tree.IsTypedef name ∧ ∃ ty, tree.Expands spelling (spelling name) ty ∧ text = ty.text := by
  have hm := resolved_loop hwell hsettled
  have hfill : (buildPyMap tree).typedefToCtypes.lookup name =
      ((tree.start.resolve tree.typedefs).typedefToCtypes.lookup name).or
        (if name ∈ tree.typedefs.map TypedefInfo.name then some cVoidP else none) :=
    lookup_fill _ _ name
  rw [hfill]
  cases hloop : (tree.start.resolve tree.typedefs).typedefToCtypes.lookup name with
  | some text' =>
      obtain ⟨hdef, ty, hty, rfl⟩ := hm.entries hloop
      rw [Option.some_or, Option.some_inj]
      constructor
      · intro htext
        exact ⟨hdef, ty, hty, htext.symm⟩
      · intro h
        obtain ⟨-, ty', hty', rfl⟩ := h
        rw [hty.deterministic hty']
  | none =>
      rw [Option.none_or]
      constructor
      · intro hentry
        split at hentry
        · next hdef =>
            obtain ⟨t, ht, rfl⟩ := isTypedef_iff.mp hdef
            exact ⟨hdef, _, unregistered_expands hwell hsettled hm
              (resolve_stuck tree.start tree.typedefs) t ht hloop,
              (Option.some.inj hentry).symm⟩
        · cases hentry
      · intro h
        obtain ⟨hdef, ty, hty, rfl⟩ := h
        obtain ⟨t, ht, rfl⟩ := isTypedef_iff.mp hdef
        have hvoid := unregistered_expands hwell hsettled hm
          (resolve_stuck tree.start tree.typedefs) t ht hloop
        rw [if_pos (List.mem_map_of_mem ht), hty.deterministic hvoid]
        rfl

end Ycetl.Ref.Webgpu
