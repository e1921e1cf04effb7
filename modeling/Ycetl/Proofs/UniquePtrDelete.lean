import Ycetl.Lib.Ownership
import Ycetl.Ref.UniquePtr

/-!
# What `delete` takes with it

A `delete` takes down the nodes within reach of its own, over the fields of
nodes that are alive, and leaves every other node as it is. That holds of any
heap, with shared or cyclic structures, and the fuel covers it: the number of
nodes that are alive goes down before every further `delete`. Where what is
within reach is a forest, each of its nodes is deleted once.

The fields of a node that is being destroyed are not edges any more; they are
the fieldRoots of what is still to be taken down.
-/

namespace Ycetl.Ref.UniquePtr.Objects

open Ycetl.Lib

variable {o o' o'' : Objects} {n m i : Nat} {S S' : Nat → Prop} {L L' : List Nat}

/-- The nodes that are alive and their fields. -/
def graph (o : Objects) : FieldGraph Nat Nat where
  alive n := o.alive n = true
  field n i := if o.alive n then o.load (.field n i) else none

theorem graph_field (o : Objects) (n i : Nat) :
    o.graph.field n i = if o.alive n then o.load (.field n i) else none := rfl

/-! ## Nodes -/

theorem nodes_setNode (o : Objects) (n : Nat) (f : Node → Node) (m : Nat) :
    (o.setNode n f).nodes[m]? = if n = m then (o.nodes[m]?).map f else o.nodes[m]? := by
  rw [setNode]
  split
  · next h =>
      split
      · next heq => rw [← heq, h]; rfl
      · rfl
  · next x h =>
      rw [List.getElem?_set]
      split
      · next heq =>
          rw [if_pos (List.getElem?_eq_some_iff.mp h).1, ← heq, h]
          rfl
      · rfl

theorem length_setNode (o : Objects) (n : Nat) (f : Node → Node) :
    (o.setNode n f).nodes.length = o.nodes.length := by
  rw [setNode]
  split
  · rfl
  · exact List.length_set ..

theorem handles_setNode (o : Objects) (n : Nat) (f : Node → Node) :
    (o.setNode n f).handles = o.handles := by
  rw [setNode]
  split <;> rfl

theorem deleted_setNode (o : Objects) (n : Nat) (f : Node → Node) :
    (o.setNode n f).deleted = o.deleted := by
  rw [setNode]
  split <;> rfl

theorem alive_congr (h : o'.nodes[m]? = o.nodes[m]?) : o'.alive m = o.alive m := by
  rw [alive, alive, h]

theorem load_congr (h : o'.nodes[m]? = o.nodes[m]?) (i : Nat) :
    o'.load (.field m i) = o.load (.field m i) := by
  rw [load, load, h]

/-! ## Taking nodes down -/

/-- These nodes are gone, the numbers in the list were handed to `delete`, and
everything else is as it was. -/
structure Deletes (o : Objects) (S : Nat → Prop) (o' : Objects) (L : List Nat) : Prop where
  dead : ∀ m, S m → o'.alive m = false
  frame : ∀ m, ¬ S m → o'.nodes[m]? = o.nodes[m]?
  length_eq : o'.nodes.length = o.nodes.length
  handles_eq : o'.handles = o.handles
  deleted_eq : o'.deleted = o.deleted ++ L

theorem Deletes.comp (h : Deletes o S o' L) (h' : Deletes o' S' o'' L') :
    Deletes o (fun m => S m ∨ S' m) o'' (L ++ L') where
  dead m hm := by
    by_cases hs : S' m
    · exact h'.dead m hs
    · rw [alive_congr (h'.frame m hs)]
      exact h.dead m (hm.resolve_right hs)
  frame m hm := by
    rw [not_or] at hm
    rw [h'.frame m hm.2, h.frame m hm.1]
  length_eq := h'.length_eq.trans h.length_eq
  handles_eq := h'.handles_eq.trans h.handles_eq
  deleted_eq := by rw [h'.deleted_eq, h.deleted_eq, List.append_assoc]

theorem Deletes.congr (h : Deletes o S o' L) (hS : ∀ m, S m ↔ S' m) : Deletes o S' o' L :=
  ⟨fun m hm => h.dead m ((hS m).mpr hm), fun m hm => h.frame m fun hs => hm ((hS m).mp hs),
    h.length_eq, h.handles_eq, h.deleted_eq⟩

theorem Deletes.removed (h : Deletes o S o' L) : FieldGraph.Removed o.graph o'.graph S where
  alive_iff m := by
    show o'.alive m = true ↔ o.alive m = true ∧ ¬ S m
    by_cases hs : S m
    · simp [h.dead m hs, hs]
    · simp [alive_congr (h.frame m hs), hs]
  field_eq u hu := by
    have hs : ¬ S u := fun hs => by
      have := h.dead u hs
      rw [show o'.alive u = true from hu] at this
      cases this
    funext i
    rw [graph_field, graph_field, alive_congr (h.frame u hs), load_congr (h.frame u hs)]

/-- The number of nodes that are alive. -/
def liveCount (o : Objects) : Nat := o.nodes.countP Node.alive

theorem countP_le_of_getElem? {α : Type} {p : α → Bool} {l l' : List α}
    (hlen : l'.length = l.length)
    (h : ∀ (i : Nat) x, l'[i]? = some x → p x = true → ∃ y, l[i]? = some y ∧ p y = true) :
    l'.countP p ≤ l.countP p := by
  induction l generalizing l' with
  | nil =>
      obtain rfl := List.length_eq_zero_iff.mp hlen
      exact Nat.le_refl _
  | cons y l ih =>
      cases l' with
      | nil => exact Nat.zero_le _
      | cons x l' =>
          have htail := ih (Nat.succ.inj hlen) fun i => h (i + 1)
          rw [List.countP_cons, List.countP_cons]
          by_cases hx : p x = true
          · obtain ⟨y', hy', hpy⟩ := h 0 x rfl hx
            rw [List.getElem?_cons_zero, Option.some.injEq] at hy'
            rw [if_pos hx, if_pos (hy' ▸ hpy)]
            omega
          · rw [if_neg hx]
            omega

theorem alive_iff : o.alive n = true ↔ ∃ x, o.nodes[n]? = some x ∧ x.alive = true := by
  rw [alive, Option.any_eq_true]

theorem Deletes.liveCount_le (h : Deletes o S o' L) : o'.liveCount ≤ o.liveCount := by
  refine countP_le_of_getElem? h.length_eq fun m x hx hp => ?_
  exact alive_iff.mp ((h.removed.alive_iff m).mp (alive_iff.mpr ⟨x, hx, hp⟩)).1

/-- A field of a node that is not alive is not an edge. -/
theorem deletes_store (hn : o.alive n = false) (i : Nat) (p : Option Nat) :
    Deletes o (· = n) (o.store (.field n i) p) [] := by
  refine ⟨fun m hm => ?_, fun m hm => ?_, length_setNode .., handles_setNode .., ?_⟩
  · subst hm
    rw [alive, store, nodes_setNode, if_pos rfl, Option.any_map]
    exact hn
  · rw [store, nodes_setNode, if_neg (Ne.symm hm)]
  · rw [store, deleted_setNode, List.append_nil]

theorem graph_store (hn : o.alive n = false) (i : Nat) (p : Option Nat) :
    (o.store (.field n i) p).graph = o.graph := by
  have hd := deletes_store hn i p
  have halive : ∀ m, (o.store (.field n i) p).alive m = o.alive m := fun m => by
    by_cases hm : m = n
    · rw [hd.dead m hm, hm, hn]
    · exact alive_congr (hd.frame m hm)
  have hfield : ∀ m j, o.alive m = true →
      (o.store (.field n i) p).load (.field m j) = o.load (.field m j) := fun m j hm =>
    load_congr (hd.frame m fun heq => by rw [heq, hn] at hm; cases hm) j
  rw [graph, graph]
  congr 1
  · funext m
    rw [halive]
  · funext m j
    rw [halive]
    split
    · next hm => exact hfield m j hm
    · rfl

/-! ## The fields of a node -/

/-- What the first `i` fields of a node point to, in the order in which they
are destroyed. -/
def fieldRoots (o : Objects) (n : Nat) : Nat → List Nat
  | 0 => []
  | i + 1 => (o.load (.field n i)).toList ++ fieldRoots o n i

theorem fieldRoots_congr (h : ∀ j < i, o'.load (.field n j) = o.load (.field n j)) :
    fieldRoots o' n i = fieldRoots o n i := by
  induction i with
  | zero => rfl
  | succ i ih =>
      rw [fieldRoots, fieldRoots, h i (Nat.lt_succ_self i), ih fun j hj => h j (by omega)]

theorem mem_fieldRoots {w : Nat} :
    w ∈ fieldRoots o n i ↔ ∃ j < i, o.load (.field n j) = some w := by
  induction i with
  | zero => simp [fieldRoots]
  | succ i ih =>
      rw [fieldRoots, List.mem_append, ih, Option.mem_toList]
      constructor
      · rintro (h | ⟨j, hj, h⟩)
        · exact ⟨i, Nat.lt_succ_self i, h⟩
        · exact ⟨j, by omega, h⟩
      · intro hex
        obtain ⟨j, hj, h⟩ := hex
        rcases Nat.lt_succ_iff_lt_or_eq.mp hj with hj | rfl
        · exact Or.inr ⟨j, hj, h⟩
        · exact Or.inl h

theorem nodup_fieldRoots (h : ∀ j j' w, o.load (.field n j) = some w →
    o.load (.field n j') = some w → j = j') : (fieldRoots o n i).Nodup := by
  induction i with
  | zero => exact List.nodup_nil
  | succ i ih =>
      rw [fieldRoots]
      cases hi : o.load (.field n i) with
      | none => exact ih
      | some w =>
          refine List.nodup_cons.mpr ⟨fun hw => ?_, ih⟩
          obtain ⟨j, hj, hjw⟩ := mem_fieldRoots.mp hw
          have := h i j w hi hjw
          omega

/-- What a `delete` with this fuel does, on any heap with fewer nodes alive. -/
def Takes (fuel : Nat) : Prop :=
  ∀ (o : Objects) (t : Nat), o.liveCount < fuel → ∃ o' L, deleteNode fuel o t = some o' ∧
    Deletes o (o.graph.Reach t) o' L ∧
    (o.graph.Forest [t] → L.Nodup ∧ ∀ m, m ∈ L ↔ o.graph.Reach t m)

theorem destroyFields_succ (delete : Objects → Nat → Option Objects) (o : Objects)
    (n i : Nat) : destroyFields delete n (i + 1) o =
      match o.load (.field n i) with
      | none => destroyFields delete n i (o.store (.field n i) none)
      | some t => (delete (o.store (.field n i) none) t).bind (destroyFields delete n i) := by
  rw [destroyFields, resetWith]
  cases o.load (.field n i) <;> rfl

/-- The destructors of the fields take down what is within reach of them. -/
theorem destroyFields_spec {fuel : Nat} (hdel : Takes fuel) (i : Nat) {o : Objects}
    (hn : o.alive n = false) (hfuel : o.liveCount < fuel) :
    ∃ o' L, destroyFields (deleteNode fuel) n i o = some o' ∧
      Deletes o (fun m => m = n ∨ o.graph.Region (fieldRoots o n i) m) o' L ∧
      (o.graph.Forest (fieldRoots o n i) →
        L.Nodup ∧ ∀ m, m ∈ L ↔ o.graph.Region (fieldRoots o n i) m) := by
  induction i generalizing o with
  | zero =>
      refine ⟨o, [], rfl, ⟨fun m hm => ?_, fun m _ => rfl, rfl, rfl,
        (List.append_nil _).symm⟩, fun _ => ⟨List.nodup_nil, fun m => ?_⟩⟩
      · rcases hm with rfl | hm
        · exact hn
        · exact absurd hm FieldGraph.region_nil
      · exact iff_of_false List.not_mem_nil FieldGraph.region_nil
  | succ i ih =>
      -- The field is cleared first, which no path notices.
      have hd₁ := deletes_store hn i none
      have hgraph := graph_store hn i none
      have hn₁ := hd₁.dead n rfl
      have hroots : fieldRoots (o.store (.field n i) none) n i = fieldRoots o n i := by
        refine fieldRoots_congr fun j hj => ?_
        rw [load, load, store, nodes_setNode, if_pos rfl]
        cases o.nodes[n]? with
        | none => rfl
        | some x =>
            show ((x.fields.set i none)[j]?).join = (x.fields[j]?).join
            rw [List.getElem?_set_ne (by omega)]
      have hfuel₁ := Nat.lt_of_le_of_lt hd₁.liveCount_le hfuel
      rw [destroyFields_succ, fieldRoots]
      generalize o.store (.field n i) none = o₁ at hd₁ hgraph hn₁ hroots hfuel₁ ⊢
      cases o.load (.field n i) with
      | none =>
          obtain ⟨o', L, hrun, hd, hforest⟩ := ih hn₁ hfuel₁
          rw [hroots, hgraph] at hd hforest
          exact ⟨o', L, hrun, (hd₁.comp hd).congr fun m =>
            ⟨fun h => h.elim Or.inl id, Or.inr⟩, hforest⟩
      | some t =>
          obtain ⟨o₂, L₁, hrun₁, hd₂, hforest₁⟩ := hdel o₁ t hfuel₁
          have hframe := hd₂.frame n fun hr => by
            have : o₁.alive n = true := hr.alive
            rw [hn₁] at this
            cases this
          obtain ⟨o', L₂, hrun₂, hd₃, hforest₂⟩ := ih (alive_congr hframe ▸ hn₁)
            (Nat.lt_of_le_of_lt hd₂.liveCount_le hfuel₁)
          have hroots₂ : fieldRoots o₂ n i = fieldRoots o n i :=
            (fieldRoots_congr fun j _ => load_congr hframe j).trans hroots
          have hreg : ∀ m, o₁.graph.Region (t :: fieldRoots o n i) m ↔
              o₁.graph.Reach t m ∨ o₂.graph.Region (fieldRoots o n i) m := fun m =>
            hd₂.removed.region_cons
          have hremoved := hd₂.removed
          rw [hroots₂] at hd₃ hforest₂
          rw [hgraph] at hreg hremoved hforest₁
          refine ⟨o', L₁ ++ L₂, ?_, (hd₁.comp (hd₂.comp hd₃)).congr fun m => ?_, fun hf => ?_⟩
          · show (deleteNode fuel o₁ t).bind _ = _
            rw [hrun₁, Option.bind_some, hrun₂]
          · show _ ↔ m = n ∨ o.graph.Region (t :: fieldRoots o n i) m
            rw [hreg m, hgraph]
            tauto
          · obtain ⟨hnodup₁, hmem₁⟩ := hforest₁ hf.head
            obtain ⟨hnodup₂, hmem₂⟩ := hforest₂ (hf.tail hremoved)
            refine ⟨List.nodup_append.mpr ⟨hnodup₁, hnodup₂, fun a ha b hb hab => ?_⟩,
              fun m => ?_⟩
            · subst hab
              exact ((hremoved.alive_iff a).mp ((hmem₂ a).mp hb).alive).2 ((hmem₁ a).mp ha)
            · show _ ↔ o.graph.Region (t :: fieldRoots o n i) m
              rw [List.mem_append, hmem₁, hmem₂, hreg m]

/-! ## A node -/

theorem load_lt_fieldCount {w : Nat} (hn : o.alive n = true)
    (h : o.load (.field n i) = some w) : i < o.fieldCount n := by
  obtain ⟨x, hx, halive⟩ := alive_iff.mp hn
  rw [load, hx, Option.bind_some, Option.join_eq_some_iff] at h
  rw [fieldCount, hx]
  show i < if x.alive then x.fields.length else 0
  rw [if_pos halive]
  exact (List.getElem?_eq_some_iff.mp h).1

/-- The end of the lifetime of a node. -/
def kill (o : Objects) (n : Nat) : Objects :=
  setNode { o with deleted := o.deleted ++ [n] } n fun x => { x with alive := false }

theorem deletes_kill (o : Objects) (n : Nat) : Deletes o (· = n) (o.kill n) [n] := by
  refine ⟨fun m hm => ?_, fun m hm => ?_, length_setNode .., handles_setNode ..,
    deleted_setNode ..⟩
  · subst hm
    rw [alive, kill, nodes_setNode, if_pos rfl, Option.any_map]
    cases o.nodes[m]? <;> rfl
  · rw [kill, nodes_setNode, if_neg (Ne.symm hm)]

theorem load_kill (o : Objects) (n j : Nat) :
    (o.kill n).load (.field n j) = o.load (.field n j) := by
  rw [load, load, kill, nodes_setNode, if_pos rfl]
  cases o.nodes[n]? <;> rfl

theorem liveCount_kill (hn : o.alive n = true) : (o.kill n).liveCount + 1 = o.liveCount := by
  obtain ⟨x, hx, halive⟩ := alive_iff.mp hn
  obtain ⟨hlt, hget⟩ := List.getElem?_eq_some_iff.mp hx
  have hpos : 0 < o.liveCount :=
    List.countP_pos_iff.mpr ⟨x, List.mem_of_getElem? hx, halive⟩
  rw [liveCount, kill, setNode]
  simp only [hx]
  rw [List.countP_set hlt, hget, if_pos halive, if_neg (by simp)]
  rw [liveCount] at hpos ⊢
  omega

theorem takes (fuel : Nat) : Takes fuel := by
  induction fuel with
  | zero => exact fun o t h => absurd h (Nat.not_lt_zero _)
  | succ fuel ih =>
      intro o t hfuel
      cases ht : o.alive t with
      | false =>
          have hno : ∀ m, ¬ o.graph.Reach t m := fun m hr => by
            rw [show o.alive t = true from hr.alive_root] at ht
            cases ht
          refine ⟨{ o with deleted := o.deleted ++ [t] }, [t], ?_,
            ⟨fun m hm => absurd hm (hno m), fun _ _ => rfl, rfl, rfl, rfl⟩, fun hf => ?_⟩
          · rw [deleteNode]
            exact if_neg (fun h => Bool.false_ne_true (ht.symm.trans h))
          · exact absurd (.root (hf.alive t (List.mem_singleton_self t))) (hno t)
      | true =>
          have hd₁ := deletes_kill o t
          have hlive := liveCount_kill ht
          obtain ⟨o', L, hrun, hd₂, hforest⟩ := destroyFields_spec ih (o.fieldCount t)
            (hd₁.dead t rfl) (show (o.kill t).liveCount < fuel by omega)
          rw [fieldRoots_congr fun j _ => load_kill o t j] at hd₂ hforest
          have hroots : ∀ w, w ∈ fieldRoots o t (o.fieldCount t) ↔
              ∃ i, o.graph.field t i = some w := fun w => by
            rw [mem_fieldRoots]
            constructor
            · rintro ⟨j, -, hj⟩
              exact ⟨j, by rw [graph_field, if_pos ht, hj]⟩
            · intro hex
              obtain ⟨j, hj⟩ := hex
              rw [graph_field, if_pos ht] at hj
              exact ⟨j, load_lt_fieldCount ht hj, hj⟩
          have hreach := fun m => hd₁.removed.reach_iff (m := m) ht hroots
          refine ⟨o', [t] ++ L, ?_, (hd₁.comp hd₂).congr fun m => ?_, fun hf => ?_⟩
          · rw [deleteNode]
            exact (if_pos ht).trans hrun
          · rw [hreach m]
            tauto
          · have htt : o.graph.Region [t] t := FieldGraph.region_singleton.mpr (.root ht)
            have hroots_nodup : (fieldRoots o t (o.fieldCount t)).Nodup :=
              nodup_fieldRoots fun j j' w hj hj' =>
                (hf.unique t j t j' w htt htt (by rw [graph_field, if_pos ht, hj])
                  (by rw [graph_field, if_pos ht, hj'])).2
            obtain ⟨hnodup, hmem⟩ := hforest (hf.fields hd₁.removed hroots_nodup hroots)
            have hself : t ∉ L := fun hL =>
              ((hd₁.removed.alive_iff t).mp ((hmem t).mp hL).alive).2 rfl
            refine ⟨List.nodup_cons.mpr ⟨hself, hnodup⟩, fun m => ?_⟩
            rw [hreach m, List.singleton_append, List.mem_cons, hmem]

/-- `delete` takes down what is within reach, each node of a forest once. -/
theorem delete_spec (o : Objects) (n : Nat) :
    ∃ o' L, o.delete n = some o' ∧ Deletes o (o.graph.Reach n) o' L ∧
      (o.graph.Forest [n] → L.Nodup ∧ ∀ m, m ∈ L ↔ o.graph.Reach n m) :=
  takes _ o n (Nat.lt_succ_of_le List.countP_le_length)

end Ycetl.Ref.UniquePtr.Objects
