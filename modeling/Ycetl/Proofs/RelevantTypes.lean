import Ycetl.Lib.FirstSeen
import Ycetl.Ref.TypeSystem
import Mathlib.Data.Fintype.EquivFin
import Mathlib.Order.Antisymmetrization
import Mathlib.Order.WellFounded

/-!
# What `relevant_types_t` unfolds, and when it comes to an end

The graph of `relevant_of` is unfolded from the arguments. `Visits` is the
left-to-right depth-first traversal that meets every leaf as often as there is
a path to it; the flattening answers its first occurrences, because removing
duplicates at a level does not change the first occurrences of the level above
it.

`Seen` is handed on and never added to, so the detection of cycles does not
fire. What ends the recursion is that nothing within reach lies on a cycle,
and `type_set_concat` of no set has no definition, so nothing within reach may
be the empty `type_set`. `Unfolds` is the conjunction, and it is exact.
-/

namespace Ycetl.Ref

open Ycetl.Lib

/-! ## Concatenation and removal of duplicates -/

section TypeSets

variable {τ : Type}

theorem concatOnto_eq (ts : List τ) (sets : List (List τ)) :
    concatOnto ts sets = ts ++ sets.flatten := by
  induction sets generalizing ts with
  | nil => simp [concatOnto]
  | cons us rest ih => simp [concatOnto, ih]

theorem typeSetConcat_ok_iff {sets : List (List τ)} {us : List τ} :
    typeSetConcat sets = .ok us ↔ sets ≠ [] ∧ us = sets.flatten := by
  cases sets with
  | nil => simp [typeSetConcat]
  | cons ts rest => simp [typeSetConcat, concatOnto_eq, eq_comm]

variable [DecidableEq τ]

@[simp] theorem contains_iff {t : τ} {ts : List τ} : contains t ts = true ↔ t ∈ ts := by
  induction ts with
  | nil => simp [contains]
  | cons u rest ih =>
      rw [contains, List.mem_cons, ← ih]
      split <;> simp [*]

theorem removeDuplicatesInto_eq {ts rs : List τ} (hrs : rs.Nodup) :
    removeDuplicatesInto ts rs = (rs ++ ts).eraseDups := by
  induction ts generalizing rs with
  | nil => simp [removeDuplicatesInto, eraseDups_of_nodup hrs]
  | cons head tail ih =>
      rw [removeDuplicatesInto]
      split
      next h =>
        rw [contains_iff] at h
        rw [ih hrs, List.eraseDups_append, List.eraseDups_append]
        simp [List.removeAll, h]
      next h =>
        rw [contains_iff] at h
        have hnd : (rs ++ [head]).Nodup := by
          rw [List.nodup_append]
          refine ⟨hrs, List.nodup_singleton _, ?_⟩
          intro a ha b hb he
          rw [List.mem_singleton] at hb
          exact h (hb ▸ he ▸ ha)
        rw [ih hnd, List.append_assoc, List.singleton_append]

theorem removeDuplicates_eq (ts : List τ) : removeDuplicates ts = ts.eraseDups := by
  rw [removeDuplicates, removeDuplicatesInto_eq List.nodup_nil, List.nil_append]

end TypeSets

/-! ## The graph -/

variable {α : Type}

/-- Types are built up from their members. -/
theorem Ty.build {P : Ty α → Prop} (named : ∀ a, P (.named a))
    (typeSet : ∀ ts, (∀ t ∈ ts, P t) → P (.typeSet ts)) : ∀ T, P T
  | .named a => named a
  | .typeSet ts => typeSet ts fun t _ => Ty.build named typeSet t

/-- One edge of the graph: to the `relevant_of` of a type, and to the members
of a `type_set`. -/
inductive Leads (g : RelevantOf α) : Ty α → Ty α → Prop
  | relevantOf {a : α} {T : Ty α} : g a = some T → Leads g (.named a) T
  | member {ts : List (Ty α)} {t : Ty α} : t ∈ ts → Leads g (.typeSet ts) t

def Reaches (g : RelevantOf α) : Ty α → Ty α → Prop := Relation.ReflTransGen (Leads g)

/-- Nothing within reach of the arguments is an empty `type_set`, and nothing
within reach lies on a cycle. -/
structure Unfolds (g : RelevantOf α) (args : List (Ty α)) : Prop where
  nonempty : ∀ T, Reaches g (.typeSet args) T → T ≠ .typeSet []
  acyclic : ∀ T, Reaches g (.typeSet args) T → ¬ Relation.TransGen (Leads g) T T

theorem reaches_named {g : RelevantOf α} {a : α} {T U : Ty α} (h : g a = some T) :
    Reaches g (.named a) U ↔ U = .named a ∨ Reaches g T U := by
  rw [Reaches, Relation.ReflTransGen.cases_head_iff]
  refine or_congr eq_comm ⟨?_, fun hU => ⟨T, .relevantOf h, hU⟩⟩
  intro hex
  obtain ⟨V, hV, hU⟩ := hex
  cases hV with
  | relevantOf hV =>
      rw [h, Option.some.injEq] at hV
      exact hV ▸ hU

theorem reaches_leaf {g : RelevantOf α} {a : α} {U : Ty α} (h : g a = none) :
    Reaches g (.named a) U ↔ U = .named a := by
  rw [Reaches, Relation.ReflTransGen.cases_head_iff]
  refine ⟨?_, fun hU => .inl hU.symm⟩
  intro hor
  rcases hor with hU | ⟨V, hV, -⟩
  · exact hU.symm
  · cases hV with
    | relevantOf hV =>
        rw [h] at hV
        cases hV

theorem reaches_typeSet {g : RelevantOf α} {ts : List (Ty α)} {U : Ty α} :
    Reaches g (.typeSet ts) U ↔ U = .typeSet ts ∨ ∃ t ∈ ts, Reaches g t U := by
  rw [Reaches, Relation.ReflTransGen.cases_head_iff]
  refine or_congr eq_comm ⟨?_, fun ⟨t, ht, hU⟩ => ⟨t, .member ht, hU⟩⟩
  intro hex
  obtain ⟨V, hV, hU⟩ := hex
  cases hV with
  | member ht => exact ⟨V, ht, hU⟩

/-- Where every way leads to an end, no type leads back to itself. -/
theorem acyclic_of_acc {g : RelevantOf α} {T : Ty α}
    (h : Acc (fun V U => Leads g U V) T) {U : Ty α} (hU : Reaches g T U) :
    ¬ Relation.TransGen (Leads g) U U := by
  have hacc : Acc (fun V U => Relation.TransGen (Leads g) U V) U := by
    have hT := Acc.transGen h
    have hswap : (fun V U => Relation.TransGen (Leads g) U V)
        = Relation.TransGen fun V U => Leads g U V := by
      funext V W
      exact propext Relation.transGen_swap.symm
    rw [hswap]
    rcases Relation.reflTransGen_iff_eq_or_transGen.mp hU with he | hTU
    · exact he ▸ hT
    · exact hT.inv (Relation.transGen_swap.mpr hTU)
  induction hacc with
  | intro V _ ih =>
      intro hV
      exact ih V hV hU hV

/-- In a finite graph without a cycle within reach every way leads to an end. -/
theorem acc_of_acyclic [Finite α] {g : RelevantOf α} {T : Ty α}
    (h : ∀ U, Reaches g T U → ¬ Relation.TransGen (Leads g) U U) :
    Acc (fun V U => Leads g U V) T := by
  -- on the names within reach of `T`, being led to is a strict order
  let below : α → α → Prop := fun b a =>
    Reaches g T (.named a) ∧ Relation.TransGen (Leads g) (.named a) (.named b)
  have htrans : IsTrans α below := by
    constructor
    intro c b a hcb hba
    exact ⟨hba.1, hba.2.trans hcb.2⟩
  have hirrefl : Std.Irrefl below := by
    constructor
    intro a ha
    exact h _ ha.1 ha.2
  have hwf : WellFounded below := Finite.wellFounded_of_trans_of_irrefl below
  -- a type accounts for itself by its members and the names it is built of
  have hbuild : ∀ U, Reaches g T U →
      (∀ b, Reaches g U (.named b) → Acc (fun V U => Leads g U V) (.named b)) →
      Acc (fun V U => Leads g U V) U := by
    intro U
    induction U using Ty.build with
    | named b =>
        intro _ hb
        exact hb b .refl
    | typeSet ts ih =>
        intro hU hb
        constructor
        intro V hV
        cases hV with
        | member ht =>
            refine ih V ht (hU.tail (.member ht)) fun b hVb => hb b ?_
            exact .head (.member ht) hVb
  have hnamed : ∀ a, Reaches g T (.named a) → Acc (fun V U => Leads g U V) (.named a) := by
    intro a
    induction a using hwf.induction with
    | h a ih =>
        intro ha
        constructor
        intro V hV
        refine hbuild V (ha.tail hV) fun b hb => ?_
        have hab : Relation.TransGen (Leads g) (.named a) (.named b) := .head' hV hb
        exact ih b ⟨ha, hab⟩ (ha.trans hab.to_reflTransGen)
  exact hbuild T .refl fun b hb => hnamed b hb

/-! ## The traversal -/

/-- The left-to-right depth-first traversal of a list of types, and the leaves
it meets. -/
inductive Visits (g : RelevantOf α) : List (Ty α) → List α → Prop
  | done : Visits g [] []
  | leaf {a : α} {rest : List (Ty α)} {ls : List α} :
      g a = none → Visits g rest ls → Visits g (.named a :: rest) (a :: ls)
  | through {a : α} {T : Ty α} {rest : List (Ty α)} {ls : List α} :
      g a = some T → Visits g (T :: rest) ls → Visits g (.named a :: rest) ls
  | pack {ts rest : List (Ty α)} {ls : List α} :
      Visits g (ts ++ rest) ls → Visits g (.typeSet ts :: rest) ls

theorem Visits.append {g : RelevantOf α} {ts us : List (Ty α)} {ls ms : List α}
    (ht : Visits g ts ls) (hu : Visits g us ms) : Visits g (ts ++ us) (ls ++ ms) := by
  induction ht with
  | done => exact hu
  | leaf ha _ ih => exact .leaf ha ih
  | through ha _ ih => exact .through ha ih
  | pack _ ih =>
      rw [List.append_assoc] at ih
      exact .pack ih

/-- The traversal meets the leaves within reach. -/
theorem Visits.mem_iff {g : RelevantOf α} {ts : List (Ty α)} {ls : List α}
    (h : Visits g ts ls) (a : α) :
    a ∈ ls ↔ g a = none ∧ ∃ t ∈ ts, Reaches g t (.named a) := by
  induction h with
  | done => simp
  | @leaf b rest ls hb _ ih =>
      rw [List.mem_cons, ih]
      simp only [List.mem_cons, exists_eq_or_imp, reaches_leaf hb, Ty.named.injEq]
      constructor
      · intro hor
        rcases hor with rfl | ⟨ha, ht⟩
        · exact ⟨hb, .inl rfl⟩
        · exact ⟨ha, .inr ht⟩
      · rintro ⟨ha, rfl | ht⟩
        · exact .inl rfl
        · exact .inr ⟨ha, ht⟩
  | @through b T rest ls hb _ ih =>
      rw [ih]
      simp only [List.mem_cons, exists_eq_or_imp, reaches_named hb, Ty.named.injEq]
      constructor
      · intro hex
        obtain ⟨ha, ht⟩ := hex
        exact ⟨ha, ht.imp_left .inr⟩
      · rintro ⟨ha, (rfl | ht) | ht⟩
        · rw [ha] at hb
          cases hb
        · exact ⟨ha, .inl ht⟩
        · exact ⟨ha, .inr ht⟩
  | @pack us rest ls _ ih =>
      rw [ih]
      simp only [List.mem_cons, List.mem_append, or_and_right, exists_or, exists_eq_left,
        reaches_typeSet, reduceCtorEq, false_or]

/-- The leaves the traversal of the arguments meets are those within reach. -/
theorem Visits.mem_args_iff {g : RelevantOf α} {args : List (Ty α)} {ls : List α}
    (h : Visits g args ls) (a : α) :
    a ∈ ls ↔ g a = none ∧ Reaches g (.typeSet args) (.named a) := by
  rw [h.mem_iff, reaches_typeSet]
  simp

/-- A traversal without an empty `type_set` on its way meets a leaf. -/
theorem Visits.ne_nil {g : RelevantOf α} {ts : List (Ty α)} {ls : List α} (h : Visits g ts ls)
    (hts : ts ≠ []) (hne : ∀ t ∈ ts, ∀ U, Reaches g t U → U ≠ .typeSet []) : ls ≠ [] := by
  induction h with
  | done => exact absurd rfl hts
  | leaf _ _ _ => exact List.cons_ne_nil _ _
  | @through b T rest ls hb _ ih =>
      apply ih (List.cons_ne_nil _ _)
      intro t ht U hU
      rw [List.mem_cons] at ht
      rcases ht with rfl | ht
      · exact hne _ List.mem_cons_self U ((reaches_named hb).mpr (.inr hU))
      · exact hne t (List.mem_cons_of_mem _ ht) U hU
  | @pack us rest ls _ ih =>
      have hus : us ≠ [] := by
        intro he
        exact hne _ List.mem_cons_self _ .refl (by rw [he])
      apply ih
      · simp [hus]
      · intro t ht U hU
        rw [List.mem_append] at ht
        rcases ht with ht | ht
        · exact hne _ List.mem_cons_self U (reaches_typeSet.mpr (.inr ⟨t, ht, hU⟩))
        · exact hne t (List.mem_cons_of_mem _ ht) U hU

/-! ## The instantiation -/

variable [DecidableEq α]

theorem bind_ok_iff {σ τ : Type} {x : Except Failure σ} {f : σ → Except Failure τ} {r : τ} :
    (x >>= f) = .ok r ↔ ∃ a, x = .ok a ∧ f a = .ok r := by
  cases x with
  | error e =>
      show Except.error e = .ok r ↔ _
      simp
  | ok a =>
      show f a = .ok r ↔ _
      simp

theorem mapM_ok_iff {σ τ : Type} {f : σ → Except Failure τ} {xs : List σ} {ys : List τ} :
    xs.mapM f = .ok ys ↔ List.Forall₂ (fun x y => f x = .ok y) xs ys := by
  induction xs generalizing ys with
  | nil =>
      rw [List.mapM_nil, List.forall₂_nil_left_iff]
      show Except.ok [] = .ok ys ↔ _
      simp [eq_comm]
  | cons x xs ih =>
      simp only [List.mapM_cons, bind_ok_iff, ih, List.forall₂_cons_left_iff]
      show (∃ y, f x = .ok y ∧ ∃ zs, List.Forall₂ (fun x y => f x = .ok y) xs zs ∧
        Except.ok (y :: zs) = .ok ys) ↔ _
      simp [eq_comm]

theorem forall₂_left {σ τ : Type} {R : σ → τ → Prop} {xs : List σ} {ys : List τ}
    (h : List.Forall₂ R xs ys) : ∀ x ∈ xs, ∃ y, R x y := by
  induction h with
  | nil => simp
  | cons hxy _ ih =>
      rw [List.forall_mem_cons]
      exact ⟨⟨_, hxy⟩, ih⟩

theorem flatten_leaf {g : RelevantOf α} {depth : Nat} {a : α} (h : g a = none) :
    flattenRelevantTypes g (depth + 1) (.named a) [] = .ok [.named a] := by
  simp [flattenRelevantTypes, specialisation, contains, h]

theorem flatten_named {g : RelevantOf α} {depth : Nat} {a : α} {T : Ty α} (h : g a = some T) :
    flattenRelevantTypes g (depth + 1) (.named a) []
      = flattenRelevantTypes g depth T [] := by
  simp [flattenRelevantTypes, specialisation, contains, h]

theorem flatten_typeSet_ok_iff {g : RelevantOf α} {depth : Nat} {ts r : List (Ty α)} :
    flattenRelevantTypes g (depth + 1) (.typeSet ts) [] = .ok r ↔
      ∃ sets, List.Forall₂ (fun t s => flattenRelevantTypes g depth t [] = .ok s) ts sets ∧
        ts ≠ [] ∧ r = sets.flatten.eraseDups := by
  have hlen : ∀ {sets}, List.Forall₂ (fun t s => flattenRelevantTypes g depth t [] = .ok s)
      ts sets → (sets ≠ [] ↔ ts ≠ []) := by
    intro sets h
    rw [← List.length_pos_iff, ← List.length_pos_iff, h.length_eq]
  rw [flattenRelevantTypes]
  simp only [specialisation, contains, bind_ok_iff, mapM_ok_iff, typeSetConcat_ok_iff]
  constructor
  · intro hex
    obtain ⟨sets, hsets, us, ⟨hne, rfl⟩, hr⟩ := hex
    refine ⟨sets, hsets, (hlen hsets).mp hne, ?_⟩
    rw [← removeDuplicates_eq]
    exact (Except.ok.inj hr).symm
  · intro hex
    obtain ⟨sets, hsets, hne, rfl⟩ := hex
    refine ⟨sets, hsets, _, ⟨(hlen hsets).mpr hne, rfl⟩, ?_⟩
    rw [← removeDuplicates_eq]
    rfl

/-- What is instantiated at a depth is instantiated at every greater one. -/
theorem flatten_mono {g : RelevantOf α} {m n : Nat} {T : Ty α} {r : List (Ty α)}
    (h : flattenRelevantTypes g m T [] = .ok r) (hle : m ≤ n) :
    flattenRelevantTypes g n T [] = .ok r := by
  induction m generalizing n T r with
  | zero => cases h
  | succ m ih =>
      obtain ⟨n, rfl⟩ : ∃ k, n = k + 1 := ⟨n - 1, by omega⟩
      have hle' : m ≤ n := by omega
      cases T with
      | named a =>
          cases ha : g a with
          | none =>
              rw [flatten_leaf ha] at h ⊢
              exact h
          | some T =>
              rw [flatten_named ha] at h ⊢
              exact ih h hle'
      | typeSet ts =>
          rw [flatten_typeSet_ok_iff] at h ⊢
          obtain ⟨sets, hsets, hne, hr⟩ := h
          exact ⟨sets, hsets.imp fun t s hs => ih hs hle', hne, hr⟩

/-- The flattening answers the first occurrences of the traversal. -/
theorem flatten_visits {g : RelevantOf α} {depth : Nat} {T : Ty α} {r : List (Ty α)}
    (h : flattenRelevantTypes g depth T [] = .ok r) :
    ∃ ls, Visits g [T] ls ∧ r = ls.eraseDups.map .named := by
  induction depth generalizing T r with
  | zero => cases h
  | succ depth ih =>
      cases T with
      | named a =>
          cases ha : g a with
          | none =>
              rw [flatten_leaf ha, Except.ok.injEq] at h
              exact ⟨[a], .leaf ha .done, by rw [← h]; simp [List.eraseDups_cons]⟩
          | some T =>
              rw [flatten_named ha] at h
              obtain ⟨ls, hls, hr⟩ := ih h
              exact ⟨ls, .through ha hls, hr⟩
      | typeSet ts =>
          rw [flatten_typeSet_ok_iff] at h
          obtain ⟨sets, hsets, -, hr⟩ := h
          suffices hts : ∃ ls, Visits g ts ls ∧
              sets.flatten.eraseDups = ls.eraseDups.map .named by
            obtain ⟨ls, hls, hflat⟩ := hts
            refine ⟨ls, .pack ?_, hr.trans hflat⟩
            rw [List.append_nil]
            exact hls
          clear hr
          induction hsets with
          | nil => exact ⟨[], .done, rfl⟩
          | @cons t s ts sets hs _ ihts =>
              obtain ⟨ms, hms, hs'⟩ := ih hs
              obtain ⟨ls, hls, hsets'⟩ := ihts
              refine ⟨ms ++ ls, hms.append hls, ?_⟩
              rw [← eraseDups_map_of_injective (fun a b => Ty.named.inj), List.map_append,
                List.flatten_cons]
              apply eraseDups_append_congr
              · rw [hs', ← eraseDups_map_of_injective (fun a b => Ty.named.inj),
                  eraseDups_eraseDups]
              · rw [hsets', eraseDups_map_of_injective (fun a b => Ty.named.inj)]

/-- An instantiation that comes to an end met no empty `type_set`, and every
way it went came to an end. -/
theorem flatten_acc {g : RelevantOf α} {depth : Nat} {T : Ty α} {r : List (Ty α)}
    (h : flattenRelevantTypes g depth T [] = .ok r) :
    Acc (fun V U => Leads g U V) T ∧ ∀ U, Reaches g T U → U ≠ .typeSet [] := by
  induction depth generalizing T r with
  | zero => cases h
  | succ depth ih =>
      cases T with
      | named a =>
          cases ha : g a with
          | none =>
              refine ⟨⟨_, fun V hV => ?_⟩, fun U hU => ?_⟩
              · cases hV with
                | relevantOf hV =>
                    rw [ha] at hV
                    cases hV
              · rw [reaches_leaf ha] at hU
                simp [hU]
          | some T =>
              rw [flatten_named ha] at h
              obtain ⟨hacc, hne⟩ := ih h
              refine ⟨⟨_, fun V hV => ?_⟩, fun U hU => ?_⟩
              · cases hV with
                | relevantOf hV =>
                    rw [ha, Option.some.injEq] at hV
                    exact hV ▸ hacc
              · rw [reaches_named ha] at hU
                rcases hU with rfl | hU
                · simp
                · exact hne U hU
      | typeSet ts =>
          rw [flatten_typeSet_ok_iff] at h
          obtain ⟨sets, hsets, hts, -⟩ := h
          have hmem : ∀ t ∈ ts, Acc (fun V U => Leads g U V) t ∧
              ∀ U, Reaches g t U → U ≠ .typeSet [] := by
            intro t ht
            obtain ⟨s, hs⟩ := forall₂_left hsets t ht
            exact ih hs
          refine ⟨⟨_, fun V hV => ?_⟩, fun U hU => ?_⟩
          · cases hV with
            | member ht => exact (hmem V ht).1
          · rw [reaches_typeSet] at hU
            rcases hU with rfl | ⟨t, ht, hU⟩
            · simpa using hts
            · exact (hmem t ht).2 U hU

/-- Where every way leads to an end and no `type_set` is empty, there is a
depth at which the instantiation comes to an end. -/
theorem flatten_of_acc {g : RelevantOf α} {T : Ty α} (h : Acc (fun V U => Leads g U V) T)
    (hne : ∀ U, Reaches g T U → U ≠ .typeSet []) :
    ∃ depth r, flattenRelevantTypes g depth T [] = .ok r := by
  induction h with
  | intro T hT ih =>
      have hnext : ∀ {U}, Leads g T U → ∃ depth r, flattenRelevantTypes g depth U [] = .ok r :=
        fun hU => ih _ hU fun V hV => hne V (.head hU hV)
      cases T with
      | named a =>
          cases ha : g a with
          | none => exact ⟨1, _, flatten_leaf ha⟩
          | some T =>
              obtain ⟨depth, r, hr⟩ := hnext (.relevantOf ha)
              exact ⟨depth + 1, r, by rw [flatten_named ha]; exact hr⟩
      | typeSet ts =>
          have hts : ts ≠ [] := by
            intro he
            exact hne _ .refl (by rw [he])
          -- one depth that is enough for every member
          suffices hall : ∃ depth sets, List.Forall₂
              (fun t s => flattenRelevantTypes g depth t [] = .ok s) ts sets by
            obtain ⟨depth, sets, hsets⟩ := hall
            exact ⟨depth + 1, _, flatten_typeSet_ok_iff.mpr ⟨sets, hsets, hts, rfl⟩⟩
          have hmem : ∀ t ∈ ts, ∃ depth r, flattenRelevantTypes g depth t [] = .ok r :=
            fun t ht => hnext (.member ht)
          clear hT ih hnext hne hts
          induction ts with
          | nil => exact ⟨0, [], .nil⟩
          | cons t ts iht =>
              obtain ⟨m, s, hs⟩ := hmem t List.mem_cons_self
              obtain ⟨n, sets, hsets⟩ := iht fun u hu => hmem u (List.mem_cons_of_mem _ hu)
              refine ⟨max m n, s :: sets, .cons (flatten_mono hs (le_max_left m n)) ?_⟩
              exact hsets.imp fun u us hus => flatten_mono hus (le_max_right m n)

/-! ## `relevant_types_t` -/

/-- `relevant_types_t` comes to an end with a `type_set` that has no duplicates
and contains the leaves within reach of the arguments and nothing else. -/
def YieldsLeaves (g : RelevantOf α) (args : List (Ty α)) : Prop :=
  ∃ depth r, relevantTypes g depth args = .ok r ∧ r.Nodup ∧
    ∀ T, T ∈ r ↔ ∃ a, T = .named a ∧ g a = none ∧ Reaches g (.typeSet args) T

theorem relevantTypes_ok_iff {g : RelevantOf α} {depth : Nat} {args r : List (Ty α)} :
    relevantTypes g depth args = .ok r ↔
      ∃ s, flattenRelevantTypes g depth (.typeSet args) [] = .ok s ∧ r = s.eraseDups := by
  simp only [relevantTypes, bind_ok_iff, ← removeDuplicates_eq]
  refine exists_congr fun s => and_congr_right fun _ => ⟨fun h => (Except.ok.inj h).symm, ?_⟩
  intro heq
  subst heq
  rfl

/-- The arguments unfold exactly where their instantiation comes to an end. -/
theorem unfolds_iff_flatten [Finite α] {g : RelevantOf α} {args : List (Ty α)} :
    Unfolds g args ↔ ∃ depth r, flattenRelevantTypes g depth (.typeSet args) [] = .ok r := by
  constructor
  · intro h
    exact flatten_of_acc (acc_of_acyclic h.acyclic) h.nonempty
  · intro hex
    obtain ⟨depth, r, hr⟩ := hex
    obtain ⟨hacc, hne⟩ := flatten_acc hr
    exact ⟨hne, fun T hT => acyclic_of_acc hacc hT⟩

/-- What the end of an instantiation looks like, at every depth that is enough. -/
theorem relevantTypes_of_unfolds [Finite α] {g : RelevantOf α} {args : List (Ty α)}
    (h : Unfolds g args) :
    ∃ ls, Visits g args ls ∧ ∃ enough, ∀ depth, enough ≤ depth →
      relevantTypes g depth args = .ok (ls.eraseDups.map .named) := by
  obtain ⟨enough, r, hr⟩ := unfolds_iff_flatten.mp h
  obtain ⟨ls, hls, hr'⟩ := flatten_visits hr
  cases hls with
  | pack hls =>
      rw [List.append_nil] at hls
      refine ⟨ls, hls, enough, fun depth hle => ?_⟩
      rw [relevantTypes_ok_iff]
      refine ⟨r, flatten_mono hr hle, ?_⟩
      rw [hr', eraseDups_map_of_injective (fun a b => Ty.named.inj), eraseDups_eraseDups]

theorem YieldsLeaves.unfolds [Finite α] {g : RelevantOf α} {args : List (Ty α)}
    (h : YieldsLeaves g args) : Unfolds g args := by
  obtain ⟨depth, r, hr, -, -⟩ := h
  obtain ⟨s, hs, -⟩ := relevantTypes_ok_iff.mp hr
  exact unfolds_iff_flatten.mpr ⟨depth, s, hs⟩

/-- `int`, `float`, a vector of `int` and a map from `int` to that vector. -/
def containersOfInt : RelevantOf (Fin 4) := fun a =>
  if a = 2 then some (.typeSet [.named 0])
  else if a = 3 then some (.typeSet [.named 1, .typeSet [.named 2, .named 0]])
  else none

theorem relevant_types_yield_leaves_iff_unfolds [Finite α] (g : RelevantOf α)
    (args : List (Ty α)) : YieldsLeaves g args ↔ Unfolds g args := by
  constructor
  · intro h
    exact h.unfolds
  · intro h
    obtain ⟨ls, hls, enough, hr⟩ := relevantTypes_of_unfolds h
    refine ⟨enough, _, hr enough le_rfl, ?_, fun T => ?_⟩
    · exact (nodup_eraseDups ls).map fun a b => Ty.named.inj
    · rw [List.mem_map]
      constructor
      · intro hex
        obtain ⟨a, ha, rfl⟩ := hex
        rw [List.mem_eraseDups, hls.mem_args_iff] at ha
        exact ⟨a, rfl, ha⟩
      · intro hex
        obtain ⟨a, rfl, ha⟩ := hex
        exact ⟨a, List.mem_eraseDups.mpr ((hls.mem_args_iff a).mpr ha), rfl⟩

theorem containers_yield_leaves : YieldsLeaves containersOfInt [.named 3, .named 2] :=
  (relevant_types_yield_leaves_iff_unfolds _ _).mpr
    (unfolds_iff_flatten.mpr ⟨7, [.named 1, .named 0], rfl⟩)

/-- A type whose `relevant_of` mentions the type itself, one whose `relevant_of`
is the empty `type_set`, and no argument at all. -/
theorem self_reference_and_empty_set_yield_nothing :
    ¬ YieldsLeaves (fun _ : Unit => some (.typeSet [.named ()])) [.named ()] ∧
    ¬ YieldsLeaves (fun _ : Unit => some (.typeSet [])) [.named ()] ∧
    ¬ YieldsLeaves (fun _ : Unit => none) [] := by
  refine ⟨fun h => ?_, fun h => ?_, fun h => ?_⟩
  · -- the type leads to the set, and the set to the type
    have hset : Leads (fun _ : Unit => some (.typeSet [.named ()])) (.named ())
        (.typeSet [.named ()]) := .relevantOf rfl
    have hmem : Leads (fun _ : Unit => some (.typeSet [.named ()])) (.typeSet [.named ()])
        (.named ()) := .member List.mem_cons_self
    exact h.unfolds.acyclic _ .refl (.tail (.single hmem) hset)
  · refine h.unfolds.nonempty (.typeSet []) ?_ rfl
    refine .head (.member List.mem_cons_self) (.single ?_)
    exact .relevantOf rfl
  · exact h.unfolds.nonempty (.typeSet []) .refl rfl

/-- Leaves are flattened to themselves. -/
theorem relevantTypes_leaves {g : RelevantOf α} {ls : List α} (hleaf : ∀ a ∈ ls, g a = none)
    (hne : ls ≠ []) (hnd : ls.Nodup) {depth : Nat} (hd : 2 ≤ depth) :
    relevantTypes g depth (ls.map .named) = .ok (ls.map .named) := by
  have hnd' : (ls.map Ty.named).Nodup := hnd.map fun a b => Ty.named.inj
  rw [relevantTypes_ok_iff]
  refine ⟨ls.map .named, flatten_mono ?_ hd, (eraseDups_of_nodup hnd').symm⟩
  rw [flatten_typeSet_ok_iff]
  refine ⟨(ls.map .named).map fun t => [t], ?_, by simpa using hne, ?_⟩
  · rw [List.forall₂_map_right_iff, List.forall₂_same]
    intro t ht
    rw [List.mem_map] at ht
    obtain ⟨a, ha, rfl⟩ := ht
    exact flatten_leaf (hleaf a ha)
  · rw [← List.flatMap_def, List.flatMap_singleton', eraseDups_of_nodup hnd']

/-- A `type_set` as the only argument is the same as its types as arguments. -/
theorem relevantTypes_typeSet {g : RelevantOf α} {depth : Nat} {args r : List (Ty α)}
    (h : relevantTypes g depth args = .ok r) :
    relevantTypes g (depth + 1) [.typeSet args] = .ok r := by
  rw [relevantTypes_ok_iff] at h
  obtain ⟨s, hs, rfl⟩ := h
  rw [relevantTypes_ok_iff]
  refine ⟨s.eraseDups, flatten_typeSet_ok_iff.mpr ⟨[s], .cons hs .nil, by simp, ?_⟩, ?_⟩
  · rw [List.flatten_singleton]
  · exact (eraseDups_of_nodup (nodup_eraseDups s)).symm

theorem relevant_types_are_first_visits [Finite α] (g : RelevantOf α) (args : List (Ty α))
    (h : Unfolds g args) :
    ∃ visited leaves : List α, Visits g args visited ∧
      (∃ enough, ∀ depth, enough ≤ depth →
        relevantTypes g depth args = .ok (leaves.map .named)) ∧
      leaves.Nodup ∧
      (∀ a, a ∈ leaves ↔ g a = none ∧ Reaches g (.typeSet args) (.named a)) ∧
      leaves.Pairwise (fun a b => visited.idxOf a < visited.idxOf b) ∧
      removeDuplicates (visited.map .named) = leaves.map Ty.named ∧
      (∃ enough, ∀ depth, enough ≤ depth →
        relevantTypes g depth (leaves.map .named) = .ok (leaves.map .named)) ∧
      (∃ enough, ∀ depth, enough ≤ depth →
        relevantTypes g depth [.typeSet (leaves.map .named)] = .ok (leaves.map .named)) := by
  obtain ⟨ls, hls, henough⟩ := relevantTypes_of_unfolds h
  have hmem : ∀ a, a ∈ ls.eraseDups ↔ g a = none ∧ Reaches g (.typeSet args) (.named a) := by
    intro a
    rw [List.mem_eraseDups, hls.mem_args_iff]
  have hne : ls.eraseDups ≠ [] := by
    have hargs : args ≠ [] := by
      intro he
      exact h.nonempty _ .refl (by rw [he])
    have hls' : ls ≠ [] := hls.ne_nil hargs fun t ht U hU =>
      h.nonempty U (.head (.member ht) hU)
    obtain ⟨a, ha⟩ := List.exists_mem_of_ne_nil ls hls'
    exact List.ne_nil_of_mem (List.mem_eraseDups.mpr ha)
  have hagain : ∀ depth, 2 ≤ depth →
      relevantTypes g depth (ls.eraseDups.map .named) = .ok (ls.eraseDups.map .named) :=
    fun depth hd =>
      relevantTypes_leaves (fun a ha => ((hmem a).mp ha).1) hne (nodup_eraseDups ls) hd
  refine ⟨ls, ls.eraseDups, hls, henough, nodup_eraseDups ls, hmem, eraseDups_pairwise ls, ?_,
    ⟨2, hagain⟩, 3, fun depth hd => ?_⟩
  · rw [removeDuplicates_eq, eraseDups_map_of_injective (fun a b => Ty.named.inj)]
  · obtain ⟨depth, rfl⟩ : ∃ k, depth = k + 1 := ⟨depth - 1, by omega⟩
    exact relevantTypes_typeSet (hagain depth (by omega))

theorem relevant_types_of_containers :
    Unfolds containersOfInt [.named 3, .named 2] ∧
    ∃ visited leaves : List (Fin 4), Visits containersOfInt [.named 3, .named 2] visited ∧
      (∃ enough, ∀ depth, enough ≤ depth →
        relevantTypes containersOfInt depth [.named 3, .named 2] = .ok (leaves.map .named)) ∧
      leaves.Nodup ∧
      (∀ a, a ∈ leaves ↔ containersOfInt a = none ∧
        Reaches containersOfInt (.typeSet [.named 3, .named 2]) (.named a)) ∧
      leaves.Pairwise (fun a b => visited.idxOf a < visited.idxOf b) ∧
      removeDuplicates (visited.map .named) = leaves.map Ty.named ∧
      (∃ enough, ∀ depth, enough ≤ depth →
        relevantTypes containersOfInt depth (leaves.map .named) = .ok (leaves.map .named)) ∧
      (∃ enough, ∀ depth, enough ≤ depth →
        relevantTypes containersOfInt depth [.typeSet (leaves.map .named)] =
          .ok (leaves.map .named)) :=
  have h : Unfolds containersOfInt [.named 3, .named 2] :=
    unfolds_iff_flatten.mpr ⟨7, [.named 1, .named 0], rfl⟩
  ⟨h, relevant_types_are_first_visits _ _ h⟩

end Ycetl.Ref
