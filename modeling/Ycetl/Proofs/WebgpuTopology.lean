import Ycetl.Lib.PostOrders
import Ycetl.Proofs.WebgpuOrder

/-!
# The order of the records is a topological sort

The marks and the order tell one story at any time: what is done has been put
out, once, and what is in progress is waiting for the visits inside its own. A
visit closes what it opened, so from its start to its end the records in
progress are the same, and only more is put out. That is `Marked` and `Later`,
and it alone gives every record exactly once, whatever the dependencies.

On an acyclic relation a record in progress reaches the one that is being
visited. So none of the records that the visited one embeds can be in progress,
each of them is done once its visit returns, and the order stays a post-order.
-/

namespace Ycetl.Ref.Webgpu

open Ycetl.Lib Relation

/-! ## The relation -/

/-- The record at `i` has a field that embeds the record at `j` by value; a
name that is not a record's is nothing to wait for. -/
def Embeds (records : List RecordInfo) (i j : Nat) : Prop :=
  ∃ r f, records[i]? = some r ∧ f ∈ r.fields ∧ f.recordDep ≠ [] ∧
    (recordIdx records).lookup f.recordDep = some j

/-- The relation that a table of dependencies stands for. -/
def Needs (deps : List (List Nat)) (i j : Nat) : Prop := ∃ ds, deps[i]? = some ds ∧ j ∈ ds

theorem needs_deps (records : List RecordInfo) : Needs (deps records) = Embeds records := by
  funext i j
  refine propext ⟨?_, ?_⟩
  · rintro ⟨ds, hds, hj⟩
    rw [deps, List.getElem?_map, Option.map_eq_some_iff] at hds
    obtain ⟨r, hr, rfl⟩ := hds
    obtain ⟨f, hf, hdep⟩ := List.mem_filterMap.mp hj
    split at hdep
    · cases hdep
    · next hne => exact ⟨r, f, hr, hf, hne, hdep⟩
  · rintro ⟨r, f, hr, hf, hne, hdep⟩
    refine ⟨_, by rw [deps, List.getElem?_map, hr]; rfl, ?_⟩
    exact List.mem_filterMap.mpr ⟨f, hf, by rw [if_neg hne]; exact hdep⟩

/-! ## Marks and order -/

/-- Exactly what is done has been put out, and once. -/
structure Marked (p : List Mark × List Nat) : Prop where
  nodup : p.2.Nodup
  done_iff : ∀ i : Nat, i ∈ p.2 ↔ p.1[i]? = some .done

/-- `q` comes after `p` in the search, inside the same visits. -/
structure Later (p q : List Mark × List Nat) : Prop where
  inProgress_iff : ∀ i : Nat, q.1[i]? = some Mark.inProgress ↔ p.1[i]? = some Mark.inProgress
  extends_order : p.2 <+: q.2

/-- A visit has come to the record. -/
def Seen (i : Nat) (p : List Mark × List Nat) : Prop :=
  p.1[i]? = some .inProgress ∨ i ∈ p.2

theorem Later.refl (p : List Mark × List Nat) : Later p p :=
  ⟨fun _ => Iff.rfl, List.prefix_refl _⟩

theorem Later.trans {p q r : List Mark × List Nat} (h₁ : Later p q) (h₂ : Later q r) :
    Later p r :=
  ⟨fun i => (h₂.inProgress_iff i).trans (h₁.inProgress_iff i),
    h₁.extends_order.trans h₂.extends_order⟩

theorem Later.seen {p q : List Mark × List Nat} (h : Later p q) {i : Nat} (hi : Seen i p) :
    Seen i q := by
  rcases hi with hi | hi
  · exact Or.inl ((h.inProgress_iff i).mpr hi)
  · exact Or.inr (h.extends_order.subset hi)

/-- The two ways a visit can go. -/
inductive VisitCases (deps : List (List Nat)) (fuel : Nat) (p : List Mark × List Nat) (i : Nat)
    (p' : List Mark × List Nat) : Prop where
  | again {m} (hm : p.1[i]? = some m) (hne : m ≠ .unseen) (heq : p' = p)
  | first {ds q} (hm : p.1[i]? = some .unseen) (hds : deps[i]? = some ds)
      (hrun : ds.foldlM (visitTree deps fuel) (p.1.set i .inProgress, p.2) = some q)
      (heq : p' = (q.1.set i .done, q.2 ++ [i]))

theorem visit_cases {deps : List (List Nat)} {fuel : Nat} {p p' : List Mark × List Nat}
    {i : Nat} (h : visitTree deps (fuel + 1) p i = some p') : VisitCases deps fuel p i p' := by
  obtain ⟨mark, order⟩ := p
  rw [visitTree, Option.bind_eq_bind, Option.bind_eq_some_iff] at h
  obtain ⟨m, hm, h⟩ := h
  split at h
  · next hne => exact .again hm hne (Option.some.inj h).symm
  · next hne =>
      rw [ne_eq, Decidable.not_not] at hne
      subst hne
      simp only [Option.bind_eq_bind, Option.bind_eq_some_iff] at h
      obtain ⟨ds, hds, q, hrun, h⟩ := h
      exact .first hm hds hrun (Option.some.inj h).symm

/-- A record is opened. -/
theorem Marked.enter {p : List Mark × List Nat} (h : Marked p) {i : Nat}
    (hi : p.1[i]? = some .unseen) : Marked (p.1.set i .inProgress, p.2) := by
  refine ⟨h.nodup, fun j => ?_⟩
  show j ∈ p.2 ↔ (p.1.set i .inProgress)[j]? = _
  rw [h.done_iff j]
  by_cases hij : i = j
  · subst hij
    rw [hi, List.getElem?_set_self (List.getElem?_eq_some_iff.mp hi).1]
    simp
  · rw [List.getElem?_set_ne hij]

/-- A record that was opened is closed and put out. -/
theorem Marked.leave {p q : List Mark × List Nat} {i : Nat} (hi : p.1[i]? = some .unseen)
    (hq : Marked q) (hlater : Later (p.1.set i .inProgress, p.2) q) :
    Marked (q.1.set i .done, q.2 ++ [i]) ∧ Later p (q.1.set i .done, q.2 ++ [i]) := by
  have hopen : q.1[i]? = some .inProgress := (hlater.inProgress_iff i).mpr
    (List.getElem?_set_self (List.getElem?_eq_some_iff.mp hi).1)
  have hlt : i < q.1.length := (List.getElem?_eq_some_iff.mp hopen).1
  have hnot : i ∉ q.2 := by
    rw [hq.done_iff, hopen]
    simp
  refine ⟨⟨?_, fun j => ?_⟩, fun j => ?_, ?_⟩
  · exact List.nodup_append.mpr ⟨hq.nodup, List.nodup_singleton i, fun a ha b hb hab =>
      hnot (List.mem_singleton.mp hb ▸ hab ▸ ha)⟩
  · show j ∈ q.2 ++ [i] ↔ (q.1.set i .done)[j]? = _
    rw [List.mem_append, List.mem_singleton, hq.done_iff]
    by_cases hij : i = j
    · subst hij
      rw [List.getElem?_set_self hlt]
      simp
    · rw [List.getElem?_set_ne hij]
      exact ⟨fun h => h.resolve_right fun h => hij h.symm, Or.inl⟩
  · show (q.1.set i .done)[j]? = _ ↔ _
    by_cases hij : i = j
    · subst hij
      rw [List.getElem?_set_self hlt, hi]
      simp
    · have hj := hlater.inProgress_iff j
      rw [List.getElem?_set_ne hij] at hj ⊢
      exact hj
  · exact hlater.extends_order.trans (List.prefix_append _ _)

/-- A visit keeps the story, opens nothing for good, and sees its record. -/
theorem visit_marked {deps : List (List Nat)} {fuel : Nat} {p p' : List Mark × List Nat}
    {i : Nat} (hp : Marked p) (h : visitTree deps fuel p i = some p') :
    Marked p' ∧ Later p p' ∧ Seen i p' := by
  induction fuel generalizing p p' i with
  | zero => cases h
  | succ fuel ih =>
      cases visit_cases h with
      | @again m hm hne heq =>
          subst heq
          refine ⟨hp, Later.refl p', ?_⟩
          cases m with
          | unseen => exact absurd rfl hne
          | inProgress => exact Or.inl hm
          | done => exact Or.inr ((hp.done_iff i).mpr hm)
      | first hm _ hrun heq =>
          subst heq
          obtain ⟨hq, hlater, -⟩ := foldlM_visits (E := Later) (G := Seen) Later.refl
            (fun _ _ _ => Later.trans) (fun _ _ _ hs hl => hl.seen hs)
            (fun _ _ _ _ hs hv => ih hs hv) (hp.enter hm) hrun
          obtain ⟨hmarked, hlater'⟩ := Marked.leave hm hq hlater
          exact ⟨hmarked, hlater', Or.inr (by simp)⟩

/-! ## Acyclic dependencies -/

/-- While `i` is the innermost record in progress, the order is a post-order
and every record in progress leads to `i`. -/
structure Under (deps : List (List Nat)) (i : Nat) (p : List Mark × List Nat) : Prop where
  marked : Marked p
  postOrdered : PostOrdered (Needs deps) p.2
  leads : ∀ g : Nat, p.1[g]? = some .inProgress → ReflTransGen (Needs deps) g i

/-- With no cycle a visit puts its record out, after all that it needs. -/
theorem visit_acyclic {deps : List (List Nat)} (hacyclic : ∀ i, ¬ TransGen (Needs deps) i i)
    {fuel : Nat} {p p' : List Mark × List Nat} {i : Nat} (hp : Marked p)
    (hpost : PostOrdered (Needs deps) p.2)
    (hleads : ∀ g : Nat, p.1[g]? = some .inProgress → TransGen (Needs deps) g i)
    (h : visitTree deps fuel p i = some p') :
    PostOrdered (Needs deps) p'.2 ∧ i ∈ p'.2 := by
  induction fuel generalizing p p' i with
  | zero => cases h
  | succ fuel ih =>
      cases visit_cases h with
      | @again m hm hne heq =>
          subst heq
          cases m with
          | unseen => exact absurd rfl hne
          | inProgress => exact absurd (hleads i hm) (hacyclic i)
          | done => exact ⟨hpost, (hp.done_iff i).mpr hm⟩
      | @first ds q hm hds hrun heq =>
          subst heq
          have hlt := (List.getElem?_eq_some_iff.mp hm).1
          have hunder : Under deps i (p.1.set i .inProgress, p.2) := by
            refine ⟨hp.enter hm, hpost, fun g hg => ?_⟩
            by_cases hig : i = g
            · exact hig ▸ ReflTransGen.refl
            · rw [List.getElem?_set_ne hig] at hg
              exact (hleads g hg).to_reflTransGen
          obtain ⟨hq, -, hall⟩ := foldlM_visits (I := Under deps i) (E := Later)
            (G := fun d q => d ∈ q.2) Later.refl (fun _ _ _ => Later.trans)
            (fun _ _ _ hd hl => hl.extends_order.subset hd)
            (fun s d s' hd hs hv => by
              have hchild : Needs deps i d := ⟨ds, hds, hd⟩
              obtain ⟨hmarked, hlater, -⟩ := visit_marked hs.marked hv
              obtain ⟨hpost', hmem⟩ := ih hs.marked hs.postOrdered
                (fun g hg => TransGen.tail' (hs.leads g hg) hchild) hv
              exact ⟨⟨hmarked, hpost', fun g hg => hs.leads g ((hlater.inProgress_iff g).mp hg)⟩,
                hlater, hmem⟩)
            hunder hrun
          refine ⟨hq.postOrdered.concat fun d hd => ?_, by simp⟩
          obtain ⟨ds', hds', hd⟩ := hd
          rw [hds, Option.some.injEq] at hds'
          exact hall d (hds' ▸ hd)

/-! ## The whole search -/

/-- The result of the loop over all records. -/
structure Sorted (deps : List (List Nat)) (n : Nat) (order : List Nat) : Prop where
  once : order.Perm (List.range n)
  sorted : (∀ i, ¬ TransGen (Needs deps) i i) → PostOrdered (Needs deps) order

theorem replicate_unseen {n i : Nat} {m : Mark}
    (h : (List.replicate n Mark.unseen)[i]? = some m) : m = .unseen := by
  obtain ⟨hi, hm⟩ := List.getElem?_eq_some_iff.mp h
  rw [← hm, List.getElem_replicate]

theorem marked_start (n : Nat) : Marked (List.replicate n .unseen, []) := by
  refine ⟨List.nodup_nil, fun i => ⟨fun hi => absurd hi List.not_mem_nil, fun hi => ?_⟩⟩
  cases replicate_unseen hi

theorem search_sorted {deps : List (List Nat)} {n fuel : Nat} {p : List Mark × List Nat}
    (hrun : (List.range n).foldlM (visitTree deps fuel) (List.replicate n .unseen, []) = some p)
    (hlt : ∀ i ∈ p.2, i < n) : Sorted deps n p.2 := by
  obtain ⟨hmarked, hlater, hseen⟩ := foldlM_visits (E := Later) (G := Seen) Later.refl
    (fun _ _ _ => Later.trans) (fun _ _ _ hs hl => hl.seen hs)
    (fun _ _ _ _ hs hv => visit_marked hs hv) (marked_start n) hrun
  -- Between two visits of the loop nothing is in progress.
  have hnone : ∀ {q : List Mark × List Nat}, Later (List.replicate n .unseen, []) q →
      ∀ g : Nat, q.1[g]? ≠ some .inProgress := fun hq g hg => by
    cases replicate_unseen ((hq.inProgress_iff g).mp hg)
  refine ⟨?_, fun hacyclic => ?_⟩
  · rw [List.perm_ext_iff_of_nodup hmarked.nodup List.nodup_range]
    intro i
    rw [List.mem_range]
    refine ⟨hlt i, fun hi => ?_⟩
    rcases hseen i (List.mem_range.mpr hi) with hi | hi
    · exact absurd hi (hnone hlater i)
    · exact hi
  · obtain ⟨⟨-, hpost, -⟩, -, -⟩ := foldlM_visits
      (I := fun q => Marked q ∧ PostOrdered (Needs deps) q.2 ∧
        Later (List.replicate n .unseen, []) q)
      (E := fun _ _ => True) (G := fun _ _ => True) (fun _ => trivial) (fun _ _ _ _ _ => trivial)
      (fun _ _ _ _ _ => trivial)
      (fun s i s' _ hs hv => by
        obtain ⟨hm, hl, -⟩ := visit_marked hs.1 hv
        obtain ⟨hpost', -⟩ := visit_acyclic hacyclic hs.1 hs.2.1
          (fun g hg => absurd hg (hnone hs.2.2 g)) hv
        exact ⟨⟨hm, hpost', hs.2.2.trans hl⟩, trivial, trivial⟩)
      ⟨marked_start n, postOrdered_nil, Later.refl _⟩ hrun
    exact hpost

/-! ## Records and their names -/

/-- Where every record has its own name, a name finds its record. -/
theorem lookup_own_name {records : List RecordInfo} (hnd : (records.map (·.name)).Nodup)
    {i : Nat} {r : RecordInfo} (hr : records[i]? = some r) :
    (recordIdx records).lookup r.name = some i := by
  cases hlook : (recordIdx records).lookup r.name with
  | none =>
      have hall := List.lookup_eq_none_iff.mp hlook (r.name, i) (mem_recordIdx.mpr ⟨r, hr, rfl⟩)
      simp at hall
  | some j =>
      obtain ⟨r', hr', hname⟩ := mem_recordIdx.mp (lookup_mem hlook)
      have hget : ∀ {k : Nat} {s : RecordInfo}, records[k]? = some s →
          (records.map (·.name))[k]? = some s.name := fun h => by
        rw [List.getElem?_map, h]
        rfl
      have hi := hget hr
      have hj := hget hr'
      rw [hname] at hj
      have hlt := (List.getElem?_eq_some_iff.mp hj).1
      rw [(List.getElem?_inj hlt hnd).mp (hj.trans hi.symm)]

/-! ## The two emitters -/

/-- The two emitters put the records in one order, each record once. When no
record embeds itself, directly or through others, a record comes after all
that it embeds; and where every record has its own name, no field table names
a record whose table is not yet written. -/
theorem record_order_topological (records : List RecordInfo) : ∃ order,
    topoSort visitPython records = some order ∧ topoSort visitTree records = some order ∧
      order.Perm (List.range records.length) ∧
      ((∀ i, ¬ TransGen (Embeds records) i i) →
        ∀ pre i post, order = pre ++ i :: post →
          (∀ j, TransGen (Embeds records) i j → j ∈ pre ∧ j ∉ i :: post) ∧
          ((records.map (·.name)).Nodup → ∀ r f j r', records[i]? = some r → f ∈ r.fields →
            f.recordDep ≠ [] → records[j]? = some r' → r'.name = f.recordDep →
              j ∈ pre ∧ j ∉ i :: post)) := by
  obtain ⟨order, hpython, htree, hlt⟩ := topoSort_eq records
  have hrun := htree
  rw [topoSort, Option.map_eq_some_iff] at hrun
  obtain ⟨p, hrun, rfl⟩ := hrun
  obtain ⟨honce, hsorted⟩ := search_sorted hrun hlt
  refine ⟨p.2, hpython, htree, honce, fun hacyclic pre i post heq => ?_⟩
  rw [needs_deps] at hsorted
  have hpost := hsorted hacyclic
  have hplace : ∀ j, TransGen (Embeds records) i j → j ∈ pre ∧ j ∉ i :: post := fun j hj =>
    ⟨hpost.transGen hj heq,
      hpost.not_mem_tail (honce.nodup_iff.mpr List.nodup_range) hj heq⟩
  refine ⟨hplace, fun hnd r f j r' hr hf hne hr' hname => ?_⟩
  exact hplace j (TransGen.single ⟨r, f, hr, hf, hne, hname ▸ lookup_own_name hnd hr'⟩)

/-- Two records, the first with a field of the second. -/
def embedding : List RecordInfo :=
  [⟨"A".toList, 4, [⟨"b".toList, "B".toList, "B".toList, "B".toList, 0, 4⟩]⟩,
    ⟨"B".toList, 4, []⟩]

/-- Of two records, the embedded one is put out first. -/
theorem record_order_embedding : ∃ order, topoSort visitPython embedding = some order ∧
    ∀ pre post, order = pre ++ 0 :: post → 1 ∈ pre := by
  obtain ⟨order, hpython, -, -, hsorted⟩ := record_order_topological embedding
  have hdeps : deps embedding = [[1], []] := by decide
  have hup : ∀ i j, Embeds embedding i j → i < j := by
    intro i j h
    rw [← needs_deps, hdeps] at h
    obtain ⟨ds, hds, hj⟩ := h
    rcases i with _ | _ | i
    · cases hds
      rw [List.mem_singleton.mp hj]
      exact Nat.one_pos
    · cases hds
      cases hj
    · cases hds
  have hacyclic : ∀ i, ¬ TransGen (Embeds embedding) i i := by
    intro i h
    have hlt : TransGen (· < ·) i i := TransGen.mono hup i i h
    rw [transGen_eq_self] at hlt
    exact Nat.lt_irrefl i hlt
  have hembeds : Embeds embedding 0 1 := by
    rw [← needs_deps, hdeps]
    exact ⟨[1], rfl, List.mem_singleton_self 1⟩
  exact ⟨order, hpython, fun pre post heq =>
    ((hsorted hacyclic pre 0 post heq).1 1 (TransGen.single hembeds)).1⟩

end Ycetl.Ref.Webgpu
