import Mathlib.Data.List.Nodup

/-!
# Owned structures and taking them down

Nodes have fields, and a field points to a node or to none. A node that is
taken down takes what it owns with it: everything that can be reached from it
over the fields of nodes that are alive. Two facts make that a recursion. What
is within reach of several roots is what is within reach of the first, and
what is within reach of the others once that is gone; and what is within reach
of a node is the node, and what is within reach of its fields once it is gone.
They hold of any graph. In a forest, where no node has two owners, the parts
are also disjoint, so that each node is met once.
-/

namespace Ycetl.Lib

/-- Nodes that are alive or not, with the fields of each. -/
structure FieldGraph (ν ι : Type*) where
  alive : ν → Prop
  field : ν → ι → Option ν

namespace FieldGraph

variable {ν ι : Type*} {G G' G'' : FieldGraph ν ι} {v x m n : ν} {vs roots : List ν}

/-- Within reach, over nodes that are alive. -/
inductive Reach (G : FieldGraph ν ι) (x : ν) : ν → Prop where
  | root : G.alive x → Reach G x x
  | step {u w : ν} {i : ι} : Reach G x u → G.field u i = some w → G.alive w → Reach G x w

/-- Within reach of one of several roots. -/
def Region (G : FieldGraph ν ι) (roots : List ν) (m : ν) : Prop := ∃ v ∈ roots, G.Reach v m

theorem Reach.alive (h : G.Reach x m) : G.alive m := by
  cases h with
  | root hx => exact hx
  | step _ _ hw => exact hw

theorem Reach.alive_root (h : G.Reach x m) : G.alive x := by
  induction h with
  | root hx => exact hx
  | step _ _ _ ih => exact ih

/-- What is reached is the root, or a field points to it. -/
theorem Reach.owner (h : G.Reach x m) :
    m = x ∨ ∃ u i, G.Reach x u ∧ G.field u i = some m := by
  cases h with
  | root => exact Or.inl rfl
  | step hu hf _ => exact Or.inr ⟨_, _, hu, hf⟩

theorem Reach.trans (h₁ : G.Reach x n) (h₂ : G.Reach n m) : G.Reach x m := by
  induction h₂ with
  | root => exact h₁
  | step _ hf hw ih => exact .step ih hf hw

theorem region_nil : ¬ G.Region [] m := by
  intro hex
  obtain ⟨v, hv, -⟩ := hex
  cases hv

theorem region_cons : G.Region (v :: vs) m ↔ G.Reach v m ∨ G.Region vs m := by
  constructor
  · intro hex
    obtain ⟨w, hw, hr⟩ := hex
    rcases List.mem_cons.mp hw with rfl | hw
    · exact Or.inl hr
    · exact Or.inr ⟨w, hw, hr⟩
  · intro hor
    rcases hor with hr | ⟨w, hw, hr⟩
    · exact ⟨v, List.mem_cons_self .., hr⟩
    · exact ⟨w, List.mem_cons_of_mem _ hw, hr⟩

theorem Region.alive (h : G.Region roots m) : G.alive m := by
  obtain ⟨v, -, hr⟩ := h
  exact hr.alive

theorem region_singleton : G.Region [v] m ↔ G.Reach v m := by
  rw [region_cons]
  exact or_iff_left region_nil

/-! ## Taking nodes away -/

/-- The graph without some of its nodes. -/
structure Removed (G G' : FieldGraph ν ι) (S : ν → Prop) : Prop where
  alive_iff : ∀ m, G'.alive m ↔ G.alive m ∧ ¬ S m
  field_eq : ∀ u, G'.alive u → G'.field u = G.field u

variable {S : ν → Prop}

theorem Removed.reach (h : Removed G G' S) (hr : G'.Reach x m) : G.Reach x m := by
  induction hr with
  | root hx => exact .root ((h.alive_iff _).mp hx).1
  | step hr hf hw ih =>
      exact .step ih (h.field_eq _ hr.alive ▸ hf) ((h.alive_iff _).mp hw).1

/-- A path either meets what is gone, or is still there. -/
theorem Removed.reach_or (h : Removed G G' (G.Reach v)) (hr : G.Reach x m) :
    G.Reach v m ∨ G'.Reach x m := by
  have hnode : ∀ w, G.alive w → G.Reach v w ∨ G'.alive w := fun w hw =>
    or_iff_not_imp_left.mpr fun hv => (h.alive_iff w).mpr ⟨hw, hv⟩
  induction hr with
  | root hx => exact (hnode _ hx).imp_right .root
  | step hr hf hw ih =>
      rcases ih with hv | hr'
      · exact Or.inl (.step hv hf hw)
      · exact (hnode _ hw).imp_right (.step hr' (h.field_eq _ hr'.alive ▸ hf))

/-- The first root, and then the others. -/
theorem Removed.region_cons (h : Removed G G' (G.Reach v)) :
    G.Region (v :: vs) m ↔ G.Reach v m ∨ G'.Region vs m := by
  rw [FieldGraph.region_cons]
  constructor
  · intro hor
    rcases hor with hr | ⟨w, hw, hr⟩
    · exact Or.inl hr
    · exact (h.reach_or hr).imp_right fun hr' => ⟨w, hw, hr'⟩
  · exact Or.imp_right fun ⟨w, hw, hr⟩ => ⟨w, hw, h.reach hr⟩

/-- A node, and then its fields. -/
theorem Removed.reach_iff (h : Removed G G' (· = n)) (hn : G.alive n)
    (hroots : ∀ w, w ∈ roots ↔ ∃ i, G.field n i = some w) :
    G.Reach n m ↔ m = n ∨ G'.Region roots m := by
  have hnode : ∀ w, G.alive w → w = n ∨ G'.alive w := fun w hw =>
    or_iff_not_imp_left.mpr fun hne => (h.alive_iff w).mpr ⟨hw, hne⟩
  constructor
  · intro hr
    induction hr with
    | root => exact Or.inl rfl
    | step _ hf hw ih =>
        refine (hnode _ hw).imp_right fun hw' => ?_
        rcases ih with rfl | ⟨v, hv, hr'⟩
        · exact ⟨_, (hroots _).mpr ⟨_, hf⟩, .root hw'⟩
        · exact ⟨v, hv, .step hr' (h.field_eq _ hr'.alive ▸ hf) hw'⟩
  · intro hor
    rcases hor with rfl | ⟨v, hv, hr'⟩
    · exact .root hn
    · obtain ⟨i, hi⟩ := (hroots v).mp hv
      have hr := h.reach hr'
      exact (Reach.step (.root hn) hi hr.alive_root).trans hr

/-! ## Changing fields -/

/-- Graphs that differ in the fields of one node reach the same, unless the
way leads through that node. -/
theorem Reach.off (halive : ∀ m, G'.alive m ↔ G.alive m)
    (hfield : ∀ u, u ≠ n → G'.field u = G.field u) (hr : G.Reach x m) :
    G'.Reach x n ∨ G'.Reach x m := by
  induction hr with
  | root hx => exact Or.inr (.root ((halive _).mpr hx))
  | @step u w i _ hf hw ih =>
      rcases ih with hn | hu
      · exact Or.inl hn
      · by_cases hun : u = n
        · exact Or.inl (hun ▸ hu)
        · exact Or.inr (.step hu (hfield u hun ▸ hf) ((halive _).mpr hw))

/-- Graphs that do not differ within reach. -/
theorem reach_congr (halive : ∀ m, G'.alive m ↔ G.alive m)
    (hfield : ∀ u, G.Reach x u → G'.field u = G.field u) :
    G'.Reach x m ↔ G.Reach x m := by
  constructor
  · intro hr
    induction hr with
    | root hx => exact .root ((halive _).mp hx)
    | step _ hf hw ih => exact .step ih (hfield _ ih ▸ hf) ((halive _).mp hw)
  · intro hr
    induction hr with
    | root hx => exact .root ((halive _).mpr hx)
    | step hu hf hw ih =>
        exact .step ih ((hfield _ hu).symm ▸ hf) ((halive _).mpr hw)

/-! ## Forests -/

/-- What is within reach of the roots is owned once: by its place among the
roots, or by a field of a node within reach. -/
structure Forest (G : FieldGraph ν ι) (roots : List ν) : Prop where
  nodup : roots.Nodup
  alive : ∀ v ∈ roots, G.alive v
  target : ∀ u i t, G.Region roots u → G.field u i = some t → G.alive t ∧ t ∉ roots
  unique : ∀ u i u' i' t, G.Region roots u → G.Region roots u' →
    G.field u i = some t → G.field u' i' = some t → u = u' ∧ i = i'

/-- A tree that does not differ within reach is still one. -/
theorem Forest.congr (hf : Forest G [x]) (halive : ∀ m, G'.alive m ↔ G.alive m)
    (hfield : ∀ u, G.Reach x u → G'.field u = G.field u) : Forest G' [x] := by
  have hreg : ∀ {u}, G'.Region [x] u → G.Region [x] u ∧ G'.field u = G.field u := fun hu => by
    have hr := (reach_congr halive hfield).mp (region_singleton.mp hu)
    exact ⟨region_singleton.mpr hr, hfield _ hr⟩
  refine ⟨hf.nodup, fun v hv => (halive v).mpr (hf.alive v hv), fun u i t hu hi => ?_,
    fun u i u' i' t hu hu' hi hi' => ?_⟩
  · rw [(hreg hu).2] at hi
    obtain ⟨ht, hnot⟩ := hf.target u i t (hreg hu).1 hi
    exact ⟨(halive t).mpr ht, hnot⟩
  · rw [(hreg hu).2] at hi
    rw [(hreg hu').2] at hi'
    exact hf.unique u i u' i' t (hreg hu).1 (hreg hu').1 hi hi'

theorem Forest.head (hf : Forest G (v :: vs)) : Forest G [v] := by
  have hreg : ∀ {u}, G.Region [v] u → G.Region (v :: vs) u := fun hu =>
    FieldGraph.region_cons.mpr (Or.inl (region_singleton.mp hu))
  refine ⟨List.nodup_singleton v, fun w hw => ?_, fun u i t hu hi => ?_,
    fun u i u' i' t hu hu' => hf.unique u i u' i' t (hreg hu) (hreg hu')⟩
  · rw [List.mem_singleton.mp hw]
    exact hf.alive v (List.mem_cons_self ..)
  · obtain ⟨halive, hnot⟩ := hf.target u i t (hreg hu) hi
    exact ⟨halive, fun hmem => hnot (List.mem_singleton.mp hmem ▸ List.mem_cons_self ..)⟩

/-- The trees of the other roots are whole when the first is gone. -/
theorem Forest.tail (hf : Forest G (v :: vs)) (h : Removed G G' (G.Reach v)) :
    Forest G' vs := by
  have hreg : ∀ {u}, G'.Region vs u → G.Region (v :: vs) u := fun hu =>
    h.region_cons.mpr (Or.inr hu)
  have hfield : ∀ {u}, G'.Region vs u → G'.field u = G.field u := fun ⟨_, _, hr⟩ =>
    h.field_eq _ hr.alive
  have hnodup := List.nodup_cons.mp hf.nodup
  -- No field of a node that is left points to a node that is gone.
  have hout : ∀ t, (∀ u i, G.Reach v u → G.field u i ≠ some t) → t ≠ v → ¬ G.Reach v t := by
    intro t hno hne hr
    rcases hr.owner with rfl | ⟨u, i, hu, hi⟩
    · exact hne rfl
    · exact hno u i hu hi
  have hv : G.Reach v v := .root (hf.alive v (List.mem_cons_self ..))
  refine ⟨hnodup.2, fun w hw => ?_, fun u i t hu hi => ?_, fun u i u' i' t hu hu' hi hi' => ?_⟩
  · have hwm := List.mem_cons_of_mem v hw
    refine (h.alive_iff w).mpr ⟨hf.alive w hwm, hout w (fun u i hu hi => ?_) ?_⟩
    · exact (hf.target u i w (region_cons.mpr (Or.inl hu)) hi).2 hwm
    · intro heq
      subst heq
      exact hnodup.1 hw
  · rw [hfield hu] at hi
    obtain ⟨halive, hnot⟩ := hf.target u i t (hreg hu) hi
    have hgone : ¬ G.Reach v u := by
      obtain ⟨w, -, hr⟩ := hu
      exact ((h.alive_iff u).mp hr.alive).2
    refine ⟨(h.alive_iff t).mpr ⟨halive, hout t (fun u' i' hu' hi' => ?_) ?_⟩, fun hmem =>
      hnot (List.mem_cons_of_mem v hmem)⟩
    · have := (hf.unique u i u' i' t (hreg hu) (region_cons.mpr (Or.inl hu')) hi hi').1
      exact hgone (this ▸ hu')
    · intro heq
      subst heq
      exact hnot (List.mem_cons_self ..)
  · rw [hfield hu] at hi
    rw [hfield hu'] at hi'
    exact hf.unique u i u' i' t (hreg hu) (hreg hu') hi hi'

/-- The trees of the fields of a node are whole when the node is gone. -/
theorem Forest.fields (hf : Forest G [n]) (h : Removed G G' (· = n)) (hnodup : roots.Nodup)
    (hroots : ∀ w, w ∈ roots ↔ ∃ i, G.field n i = some w) : Forest G' roots := by
  have hn : G.alive n := hf.alive n (List.mem_singleton_self n)
  have hnn : G.Region [n] n := region_singleton.mpr (.root hn)
  have hreg : ∀ {u}, G'.Region roots u → G.Region [n] u := fun hu =>
    region_singleton.mpr ((h.reach_iff hn hroots).mpr (Or.inr hu))
  have hfield : ∀ {u}, G'.Region roots u → u ≠ n ∧ G'.field u = G.field u :=
    fun ⟨_, _, hr⟩ => ⟨((h.alive_iff _).mp hr.alive).2, h.field_eq _ hr.alive⟩
  refine ⟨hnodup, fun w hw => ?_, fun u i t hu hi => ?_, fun u i u' i' t hu hu' hi hi' => ?_⟩
  · obtain ⟨i, hi⟩ := (hroots w).mp hw
    obtain ⟨halive, hne⟩ := hf.target n i w hnn hi
    exact (h.alive_iff w).mpr ⟨halive, fun heq => hne (List.mem_singleton.mpr heq)⟩
  · rw [(hfield hu).2] at hi
    obtain ⟨halive, hne⟩ := hf.target u i t (hreg hu) hi
    refine ⟨(h.alive_iff t).mpr ⟨halive, fun heq => hne (List.mem_singleton.mpr heq)⟩,
      fun hmem => ?_⟩
    obtain ⟨j, hj⟩ := (hroots t).mp hmem
    exact (hfield hu).1 (hf.unique u i n j t (hreg hu) hnn hi hj).1
  · rw [(hfield hu).2] at hi
    rw [(hfield hu').2] at hi'
    exact hf.unique u i u' i' t (hreg hu) (hreg hu') hi hi'

end FieldGraph

end Ycetl.Lib
