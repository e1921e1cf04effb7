import Ycetl.Ref.Webgpu

/-!
# The order of the field tables

Both generators sort the records so that one comes after those that it embeds,
by a depth first search that cuts cycles where it meets them. The two searches
are written differently, and are one function.

The search always ends: a visit that goes on first marks a record that was
unseen, so what is unseen bounds how deep the visits nest, whatever the
dependencies are. The indices it meets are those of records.
-/

namespace Ycetl.Ref.Webgpu

open Ycetl.Lib

theorem visitPython_eq (deps : List (List Nat)) : visitPython deps = visitTree deps := by
  funext fuel
  induction fuel with
  | zero => rfl
  | succ fuel ih =>
      funext p i
      obtain ⟨mark, order⟩ := p
      rw [visitPython, visitTree, ih]
      cases mark[i]? with
      | none => rfl
      | some m =>
          cases m with
          | unseen => rfl
          | inProgress => rfl
          | done => rfl

/-! ## The search ends -/

/-- How many records no visit has come to. -/
def unseen (mark : List Mark) : Nat := mark.countP (· = .unseen)

theorem unseen_set {mark : List Mark} {i : Nat} (h : mark[i]? = some .unseen) :
    unseen (mark.set i .inProgress) + 1 = unseen mark := by
  obtain ⟨hi, hm⟩ := List.getElem?_eq_some_iff.mp h
  have hpos : 0 < mark.countP (· = .unseen) :=
    List.countP_pos_iff.mpr ⟨mark[i], List.getElem_mem hi, by rw [hm]; rfl⟩
  rw [unseen, unseen, List.countP_set hi, hm, if_pos (decide_eq_true rfl), if_neg (by decide)]
  omega

theorem unseen_set_le (mark : List Mark) (i : Nat) : unseen (mark.set i .done) ≤ unseen mark := by
  by_cases hi : i < mark.length
  · have hdone : ¬ decide (Mark.done = Mark.unseen) = true := by decide
    rw [unseen, unseen, List.countP_set hi, if_neg hdone]
    exact Nat.sub_le ..
  · rw [List.set_eq_of_length_le (Nat.le_of_not_lt hi)]

/-- The dependencies are those of `n` records, each on records among them. -/
structure Within (deps : List (List Nat)) (n : Nat) : Prop where
  length : deps.length = n
  lt : ∀ ds ∈ deps, ∀ d ∈ ds, d < n

/-- What a visit finds and leaves, with no more records unseen than `left`. -/
structure Visited (n left : Nat) (p : List Mark × List Nat) : Prop where
  length : p.1.length = n
  order : ∀ i ∈ p.2, i < n
  unseen_le : unseen p.1 ≤ left

/-- A loop of visits, if each of them ends. -/
theorem visit_all {n left : Nat}
    (visit : List Mark × List Nat → Nat → Option (List Mark × List Nat))
    (hvisit : ∀ p i, Visited n left p → i < n → ∃ p', visit p i = some p' ∧ Visited n left p')
    {ds : List Nat} (hds : ∀ d ∈ ds, d < n) {p : List Mark × List Nat} (hp : Visited n left p) :
    ∃ p', ds.foldlM visit p = some p' ∧ Visited n left p' := by
  induction ds generalizing p with
  | nil => exact ⟨p, rfl, hp⟩
  | cons d ds ih =>
      obtain ⟨q, hq, hvisited⟩ := hvisit p d hp (hds d List.mem_cons_self)
      obtain ⟨p', hp', hvisited'⟩ := ih (fun e he => hds e (List.mem_cons_of_mem d he)) hvisited
      refine ⟨p', ?_, hvisited'⟩
      rw [List.foldlM_cons, hq]
      exact hp'

theorem visit_ends {deps : List (List Nat)} {n : Nat} (hdeps : Within deps n) {fuel left : Nat}
    (hfuel : left < fuel) {p : List Mark × List Nat} (hp : Visited n left p) {i : Nat}
    (hi : i < n) : ∃ p', visitTree deps fuel p i = some p' ∧ Visited n left p' := by
  induction fuel generalizing left p i with
  | zero => exact absurd hfuel (Nat.not_lt_zero _)
  | succ fuel ih =>
      obtain ⟨mark, order⟩ := p
      obtain ⟨hlen, horder, hleft⟩ := hp
      obtain ⟨m, hm⟩ : ∃ m, mark[i]? = some m :=
        ⟨_, List.getElem?_eq_getElem (by rw [hlen]; exact hi)⟩
      obtain ⟨ds, hds⟩ : ∃ ds, deps[i]? = some ds :=
        ⟨_, List.getElem?_eq_getElem (by rw [hdeps.length]; exact hi)⟩
      by_cases hseen : m = .unseen
      · subst hseen
        -- The children are visited with one record less unseen.
        have hset := unseen_set hm
        have hleft : unseen mark ≤ left := hleft
        have hfewer : unseen (mark.set i .inProgress) ≤ left - 1 := by omega
        have hchild : Visited n (left - 1) (mark.set i .inProgress, order) :=
          ⟨List.length_set.trans hlen, horder, hfewer⟩
        obtain ⟨⟨mark', order'⟩, hrun, hlen', horder', hleft'⟩ :=
          visit_all (visitTree deps fuel)
            (fun q j hq hj => ih (by omega) hq hj)
            (hdeps.lt ds (List.mem_of_getElem? hds)) hchild
        refine ⟨(mark'.set i .done, order' ++ [i]), ?_, ?_, ?_, ?_⟩
        · rw [visitTree, hm]
          simp only [Option.bind_eq_bind, Option.bind_some, hds, hrun, ne_eq, not_true_eq_false,
            if_false]
        · rw [List.length_set]
          exact hlen'
        · intro j hj
          rcases List.mem_append.mp hj with hj | hj
          · exact horder' j hj
          · rw [List.mem_singleton.mp hj]
            exact hi
        · exact Nat.le_trans (unseen_set_le _ _) (Nat.le_trans hleft' (Nat.sub_le ..))
      · refine ⟨(mark, order), ?_, hlen, horder, hleft⟩
        rw [visitTree, hm]
        simp only [Option.bind_eq_bind, Option.bind_some]
        exact if_pos hseen

/-! ## The records as a graph -/

theorem recordIdx_eq (records : List RecordInfo) :
    recordIdx records = (records.zipIdx.map fun r => (r.1.name, r.2)).reverse := by
  have hstep : ∀ (rs : List (RecordInfo × Nat)) (m : List (Text × Nat)),
      rs.foldl (fun m r => (r.1.name, r.2) :: m) m =
        (rs.map fun r => (r.1.name, r.2)).reverse ++ m := by
    intro rs
    induction rs with
    | nil => exact fun m => rfl
    | cons r rs ih =>
        intro m
        rw [List.foldl_cons, ih, List.map_cons, List.reverse_cons, List.append_assoc]
        rfl
  rw [recordIdx, hstep, List.append_nil]

theorem mem_recordIdx {records : List RecordInfo} {name : Text} {i : Nat} :
    (name, i) ∈ recordIdx records ↔ ∃ r, records[i]? = some r ∧ r.name = name := by
  rw [recordIdx_eq, List.mem_reverse, List.mem_map]
  constructor
  · rintro ⟨⟨r, j⟩, hmem, heq⟩
    cases heq
    exact ⟨r, List.mem_zipIdx_iff_getElem?.mp hmem, rfl⟩
  · rintro ⟨r, hr, rfl⟩
    exact ⟨(r, i), List.mem_zipIdx_iff_getElem?.mpr hr, rfl⟩

theorem lookup_mem {α : Type} {m : List (Text × α)} {s : Text} {x : α}
    (h : m.lookup s = some x) : (s, x) ∈ m := by
  obtain ⟨l, r, hl, -⟩ := List.lookup_eq_some_iff.mp h
  rw [hl]
  exact List.mem_append_right l List.mem_cons_self

theorem recordIdx_lt {records : List RecordInfo} {name : Text} {i : Nat}
    (h : (recordIdx records).lookup name = some i) : i < records.length := by
  obtain ⟨r, hr, -⟩ := mem_recordIdx.mp (lookup_mem h)
  exact (List.getElem?_eq_some_iff.mp hr).1

theorem deps_within (records : List RecordInfo) : Within (deps records) records.length := by
  refine ⟨List.length_map _, fun ds hds d hd => ?_⟩
  obtain ⟨r, -, rfl⟩ := List.mem_map.mp hds
  obtain ⟨f, -, hf⟩ := List.mem_filterMap.mp hd
  split at hf
  · cases hf
  · exact recordIdx_lt hf

/-- The two searches find the same order, of indices of records. -/
theorem topoSort_eq (records : List RecordInfo) : ∃ order,
    topoSort visitPython records = some order ∧ topoSort visitTree records = some order ∧
      ∀ i ∈ order, i < records.length := by
  have hstart : Visited records.length records.length
      (List.replicate records.length .unseen, []) := by
    refine ⟨List.length_replicate, fun i hi => absurd hi List.not_mem_nil, ?_⟩
    exact List.countP_le_length.trans_eq List.length_replicate
  obtain ⟨p, hrun, -, horder, -⟩ := visit_all (visitTree (deps records) (records.length + 1))
    (fun q i hq hi => visit_ends (deps_within records) (Nat.lt_succ_self _) hq hi)
    (fun d hd => List.mem_range.mp hd) hstart
  have htree : topoSort visitTree records = some p.2 := by
    rw [topoSort, hrun]
    rfl
  have hpython : topoSort visitPython records = topoSort visitTree records := by
    rw [topoSort, topoSort, visitPython_eq]
  exact ⟨p.2, hpython.trans htree, htree, horder⟩

end Ycetl.Ref.Webgpu
