import Ycetl.Proofs.PyLookup

/-!
# What a spelling expands to

A spelling expands to one type at most, and one that is well spelled does
expand: the typedefs it leads through are ever lower in rank. The type can be
written as an expression, which is read as the type again.
-/

namespace Ycetl.Ref.Webgpu

open Ycetl.Lib

/-! ## The expression of a type -/

def CType.text : CType → Text
  | .named s => s
  | .array n elem => elem.text ++ " * ".toList ++ numeral n

/-- Every name in the type is one word. -/
def CType.Words : CType → Prop
  | .named s => ' ' ∉ s
  | .array _ elem => elem.Words

theorem readExpr_text {ty : CType} (h : ty.Words) : readExpr ty.text = some ty := by
  induction ty with
  | named s => exact readExpr_word h
  | array n elem ih => rw [CType.text, readExpr_times, ih h, Option.map_some]

theorem space_not_mem_cVoidP : ' ' ∉ cVoidP := by decide

theorem readExpr_cVoidP : readExpr cVoidP = some (.named cVoidP) :=
  readExpr_word space_not_mem_cVoidP

/-! ## Expansions -/

section

variable {tags typedefs : Text → Prop} {spelling : Text → Spelling} {s : Spelling} {ty ty' : CType}

theorem Expands.deterministic (h : Expands tags typedefs spelling s ty)
    (h' : Expands tags typedefs spelling s ty') : ty = ty' := by
  induction h generalizing ty' with
  | pointer b s =>
      cases h'
      rfl
  | base b hbase =>
      cases h' with
      | base _ hbase' => exact congrArg _ (Option.some.inj (hbase.symm.trans hbase'))
      | tag _ hno => exact absurd (hbase.symm.trans hno) (by simp)
      | typedef _ hno => exact absurd (hbase.symm.trans hno) (by simp)
  | tag b hno htag =>
      cases h' with
      | base _ hbase => exact absurd (hbase.symm.trans hno) (by simp)
      | tag => rfl
      | typedef _ _ hnot => exact absurd htag hnot
  | typedef b hno hnot h hty ih =>
      cases h' with
      | base _ hbase => exact absurd (hbase.symm.trans hno) (by simp)
      | tag _ _ htag => exact absurd htag hnot
      | typedef _ _ _ _ hty' => exact ih hty'
  | array hty ih =>
      cases h' with
      | array hty' => exact congrArg _ (ih hty')

/-- An array is one of what its element is. -/
theorem expands_array {n : Nat} {dims : List Nat} (hdims : s.dims = n :: dims) :
    Expands tags typedefs spelling s ty ↔ ∃ elem,
      Expands tags typedefs spelling { s with dims := [] } elem ∧
        ty = .array (Spelling.elements (n :: dims)) elem := by
  obtain ⟨b, name, p, ds⟩ := s
  subst hdims
  constructor
  · intro h
    cases h with
    | array hty => exact ⟨_, hty, rfl⟩
  · intro h
    obtain ⟨elem, hty, rfl⟩ := h
    exact .array hty

theorem core_eq (hdims : s.dims = []) : { s with dims := [] } = s := by
  rw [← hdims]

end

section

variable {tree : ApiTree} {spelling : Text → Spelling} {s : Spelling} {ty : CType}

theorem expands_pointer (hp : s.pointer = true) :
    tree.Expands spelling { s with dims := [] } (.named cVoidP) := by
  obtain ⟨b, name, p, ds⟩ := s
  subst hp
  exact .pointer b name

theorem expands_base (hp : s.pointer = false) {c : Text} (h : base.lookup s.name = some c) :
    tree.Expands spelling { s with dims := [] } (.named c) := by
  obtain ⟨b, name, p, ds⟩ := s
  subst hp
  exact .base b h

theorem expands_tag (hp : s.pointer = false) (hbase : base.lookup s.name = none)
    (h : tree.IsTag s.name) : tree.Expands spelling { s with dims := [] } (.named s.name) := by
  obtain ⟨b, name, p, ds⟩ := s
  subst hp
  exact .tag b hbase h

/-- The element of a spelling that leads on expands to what it leads to. -/
theorem expands_follows (h : tree.Follows s) :
    tree.Expands spelling { s with dims := [] } ty ↔
      tree.Expands spelling (spelling s.name) ty := by
  obtain ⟨b, name, p, ds⟩ := s
  obtain ⟨hp, hno, hnot, hdef⟩ := h
  subst hp
  refine ⟨fun h => ?_, .typedef b hno hnot hdef⟩
  cases h with
  | base _ hbase => exact absurd (hbase.symm.trans hno) (by simp)
  | tag _ _ htag => exact absurd htag hnot
  | typedef _ _ _ _ hty => exact hty

/-- Where the element expands, the spelling does. -/
theorem expands_of_element (h : ∃ elem, tree.Expands spelling { s with dims := [] } elem) :
    ∃ ty, tree.Expands spelling s ty := by
  obtain ⟨elem, helem⟩ := h
  cases hd : s.dims with
  | nil =>
      rw [core_eq hd] at helem
      exact ⟨elem, helem⟩
  | cons n dims => exact ⟨_, (expands_array hd).mpr ⟨elem, helem, rfl⟩⟩

theorem base_words : ∀ p ∈ base, ' ' ∉ p.2 := by simp [base]

theorem expands_words (hwell : WellSpelled tree spelling) (h : tree.Expands spelling s ty) :
    ty.Words := by
  induction h with
  | pointer => exact space_not_mem_cVoidP
  | base _ hbase => exact base_words _ (lookup_mem hbase)
  | tag _ _ htag =>
      intro hspace
      exact ((hwell.identifiers _ (Or.inl htag)).2.2 _ hspace).1 rfl
  | typedef _ _ _ _ _ ih => exact ih
  | array _ ih => exact ih

theorem readExpr_expands (hwell : WellSpelled tree spelling) (h : tree.Expands spelling s ty) :
    readExpr ty.text = some ty :=
  readExpr_text (expands_words hwell h)

theorem isTypedef_iff {name : Text} :
    tree.IsTypedef name ↔ ∃ t ∈ tree.typedefs, t.name = name := List.mem_map

/-- All that the element of a spelling can be. -/
inductive ElementCases (tree : ApiTree) (s : Spelling) : Prop
  | pointer (hp : s.pointer = true)
  | base {c : Text} (hp : s.pointer = false) (h : base.lookup s.name = some c)
  | tag (hp : s.pointer = false) (hbase : Webgpu.base.lookup s.name = none)
      (h : tree.IsTag s.name)
  | follows (h : tree.Follows s)

theorem element_cases (hwell : WellSpelled tree spelling) {t : TypedefInfo}
    (ht : t ∈ tree.typedefs) : ElementCases tree (spelling t.name) := by
  have hknown := hwell.known t ht
  generalize spelling t.name = s at hknown ⊢
  cases hp : s.pointer with
  | true => exact .pointer hp
  | false =>
      cases hbase : base.lookup s.name with
      | some c => exact .base hp hbase
      | none =>
          rw [hbase] at hknown
          by_cases htag : tree.IsTag s.name
          · exact .tag hp hbase htag
          · exact .follows ⟨hp, hbase, htag,
              (hknown.resolve_left Bool.false_ne_true).resolve_left htag⟩

/-- Typedefs that do not lead in a circle can be gone through from the last to
the first. -/
theorem typedef_induction (hwell : WellSpelled tree spelling) {motive : TypedefInfo → Prop}
    (step : ∀ t ∈ tree.typedefs, (∀ u ∈ tree.typedefs, tree.Follows (spelling t.name) →
      (spelling t.name).name = u.name → motive u) → motive t) :
    ∀ t ∈ tree.typedefs, motive t := by
  obtain ⟨rank, hrank⟩ := hwell.acyclic
  have hall : ∀ r, ∀ t ∈ tree.typedefs, rank t.name = r → motive t := by
    intro r
    induction r using Nat.strongRecOn with
    | ind r ih =>
        intro t ht htr
        refine step t ht fun u hu hfollows hname => ?_
        have hlt := hrank t ht hfollows
        rw [hname, htr] at hlt
        exact ih _ hlt u hu rfl
  exact fun t ht => hall _ t ht rfl

/-- Every typedef expands to a type. -/
theorem typedef_expands (hwell : WellSpelled tree spelling) :
    ∀ t ∈ tree.typedefs, ∃ ty, tree.Expands spelling (spelling t.name) ty := by
  refine typedef_induction hwell fun t ht ih => expands_of_element ?_
  cases element_cases hwell ht with
  | pointer hp => exact ⟨_, expands_pointer hp⟩
  | base hp hbase => exact ⟨_, expands_base hp hbase⟩
  | tag hp hbase htag => exact ⟨_, expands_tag hp hbase htag⟩
  | follows hfollows =>
      obtain ⟨u, hu, hname⟩ := isTypedef_iff.mp hfollows.2.2.2
      obtain ⟨ty, hty⟩ := ih u hu hfollows hname.symm
      rw [hname] at hty
      exact ⟨ty, (expands_follows hfollows).mpr hty⟩

end

end Ycetl.Ref.Webgpu
