import Mathlib.Data.List.Forall2

/-!
# Pools and slices

Lists inside the elements of a list are flattened: all items go to one list,
the pool, and what is left of an element is an entry that says where its items
begin there, and how many there are. A loop over the entries that reads the
slices does what a loop over the elements would do. Reading past the end of a
list has no result, and neither has a loop one of whose rounds has none.
-/

namespace Ycetl.Lib

variable {α β γ δ τ : Type}

/-- The loop that flattens. -/
def pooled (items : α → List β) (entry : α → Nat → Nat → γ) (as : List α) :
    List β × List γ :=
  as.foldl (fun p a => (p.1 ++ items a, p.2 ++ [entry a p.1.length (items a).length])) ([], [])

/-- The loop over `pool[first + i]`. -/
def slice (pool : List α) (first count : Nat) : Option (List α) :=
  (List.range count).mapM fun i => pool[first + i]?

/-- A loop whose rounds append. -/
def appendAll (round : α → Option (List τ)) (as : List α) : Option (List τ) :=
  (as.mapM round).map List.flatten

/-! ## Lists side by side -/

theorem forall₂_map_map {R : β → γ → Prop} {f : δ → β} {g : δ → γ} {ds : List δ}
    (h : ∀ d ∈ ds, R (f d) (g d)) : List.Forall₂ R (ds.map f) (ds.map g) :=
  List.forall₂_map_left_iff.mpr (List.forall₂_map_right_iff.mpr (List.forall₂_same.mpr h))

theorem forall₂_map_self {R : β → γ → Prop} {f : γ → β} {cs : List γ}
    (h : ∀ c ∈ cs, R (f c) c) : List.Forall₂ R (cs.map f) cs :=
  List.forall₂_map_left_iff.mpr (List.forall₂_same.mpr h)

theorem forall₂_flatMap {R : α → β → Prop} {f : γ → List α} {g : γ → List β}
    {cs : List γ} (h : ∀ c ∈ cs, List.Forall₂ R (f c) (g c)) :
    List.Forall₂ R (cs.flatMap f) (cs.flatMap g) := by
  rw [List.flatMap_def, List.flatMap_def]
  exact List.rel_flatten (forall₂_map_map h)

theorem forall₂_getElem? {R : α → β → Prop} {as : List α} {bs : List β}
    (h : List.Forall₂ R as bs) {k : Nat} (hk : k < as.length) :
    ∃ a b, as[k]? = some a ∧ bs[k]? = some b ∧ R a b := by
  induction h generalizing k with
  | nil => cases hk
  | cons hab _ ih =>
      cases k with
      | zero => exact ⟨_, _, rfl, rfl, hab⟩
      | succ k => exact ih (Nat.lt_of_succ_lt_succ hk)

theorem forall₂_set {R : α → β → Prop} {as : List α} {bs : List β}
    (h : List.Forall₂ R as bs) {a : α} {b : β} (hab : R a b) (k : Nat) :
    List.Forall₂ R (as.set k a) (bs.set k b) := by
  induction h generalizing k with
  | nil => exact .nil
  | cons hxy hrest ih =>
      cases k with
      | zero => exact .cons hab hrest
      | succ k => exact .cons hxy (ih k)

/-- Literals and lines of one list, where what has no literal has no line. -/
theorem forall₂_filterMap {R : γ → β → Prop} {lit : α → Option γ}
    {line : α → List τ} {text : β → List τ} {as : List α}
    (h : ∀ a ∈ as, lit a = none ∧ line a = [] ∨
      ∃ w b, lit a = some w ∧ R w b ∧ line a = text b) :
    ∃ bs, List.Forall₂ R (as.filterMap lit) bs ∧ as.flatMap line = bs.flatMap text := by
  induction as with
  | nil => exact ⟨[], .nil, rfl⟩
  | cons a as ih =>
      obtain ⟨bs, hbs, hlines⟩ := ih fun b hb => h b (List.mem_cons_of_mem a hb)
      rw [List.filterMap_cons, List.flatMap_cons, hlines]
      rcases h a List.mem_cons_self with ⟨hlit, hline⟩ | ⟨w, b, hlit, hb, hline⟩
      · rw [hlit, hline]
        exact ⟨bs, hbs, rfl⟩
      · rw [hlit, hline]
        exact ⟨b :: bs, .cons hb hbs, rfl⟩

/-! ## Slices -/

theorem slice_succ (pool : List α) (first count : Nat) :
    slice pool first (count + 1) =
      (pool[first]?).bind fun x => (slice pool (first + 1) count).map (x :: ·) := by
  have hshift : (fun i => pool[first + i]?) ∘ Nat.succ = fun i => pool[first + 1 + i]? := by
    funext i
    rw [Function.comp_apply, Nat.succ_eq_add_one, Nat.add_comm i 1, ← Nat.add_assoc]
  rw [slice, List.range_succ_eq_map, List.mapM_cons, List.mapM_map, Nat.add_zero, hshift]
  cases pool[first]? with
  | none => rfl
  | some x =>
      rw [slice]
      cases (List.range count).mapM fun i => pool[first + 1 + i]? with
      | none => rfl
      | some xs => rfl

/-- A slice that is read off item by item. -/
theorem slice_of_get {pool xs : List α} {first : Nat}
    (h : ∀ k < xs.length, pool[first + k]? = xs[k]?) : slice pool first xs.length = some xs := by
  induction xs generalizing first with
  | nil => rfl
  | cons x xs ih =>
      have hx := h 0 (Nat.zero_lt_succ _)
      rw [Nat.add_zero, List.getElem?_cons_zero] at hx
      have hrest : slice pool (first + 1) xs.length = some xs := ih fun k hk => by
        rw [Nat.add_assoc, Nat.add_comm 1 k]
        exact h (k + 1) (Nat.succ_lt_succ hk)
      rw [List.length_cons, slice_succ, hx, Option.bind_some, hrest, Option.map_some]

/-- A slice of what was put there. -/
theorem slice_append (pre xs post : List α) :
    slice (pre ++ xs ++ post) pre.length xs.length = some xs := by
  induction xs generalizing pre with
  | nil => rfl
  | cons x xs ih =>
      have hx : (pre ++ x :: xs ++ post)[pre.length]? = some x := by
        rw [List.append_assoc, List.getElem?_append_right (Nat.le_refl _), Nat.sub_self]
        rfl
      have hrest := ih (pre ++ [x])
      rw [List.length_append, List.length_singleton, List.append_assoc pre, List.singleton_append]
        at hrest
      rw [List.length_cons, slice_succ, hx, Option.bind_some, hrest]
      rfl

/-- The entries of `as`, whose items are placed one behind the other from
`first` on. -/
def placed (entry : α → Nat → Nat → γ) (size : α → Nat) : Nat → List α → List γ
  | _, [] => []
  | first, a :: as => entry a first (size a) :: placed entry size (first + size a) as

theorem pooled_eq (items : α → List β) (entry : α → Nat → Nat → γ) {size : α → Nat}
    (hsize : ∀ a, (items a).length = size a) (as : List α) :
    pooled items entry as = (as.flatMap items, placed entry size 0 as) := by
  have hrun : ∀ (as : List α) (pool : List β) (entries : List γ),
      as.foldl (fun p a => (p.1 ++ items a, p.2 ++ [entry a p.1.length (items a).length]))
        (pool, entries) =
          (pool ++ as.flatMap items, entries ++ placed entry size pool.length as) := by
    intro as
    induction as with
    | nil =>
        intro pool entries
        rw [List.flatMap_nil, placed, List.append_nil, List.append_nil]
        rfl
    | cons a as ih =>
        intro pool entries
        rw [List.foldl_cons, ih, List.flatMap_cons, placed, List.length_append, hsize,
          List.append_assoc, List.append_assoc, List.singleton_append]
  rw [pooled, hrun, List.nil_append, List.nil_append]
  rfl

theorem forall₂_placed {R : γ → δ → Prop} {entry : α → Nat → Nat → γ}
    {entry' : α → Nat → Nat → δ} (size : α → Nat) {as : List α}
    (h : ∀ a ∈ as, ∀ first count, R (entry a first count) (entry' a first count)) (first : Nat) :
    List.Forall₂ R (placed entry size first as) (placed entry' size first as) := by
  induction as generalizing first with
  | nil => exact .nil
  | cons a as ih =>
      exact .cons (h a List.mem_cons_self _ _)
        (ih (fun b hb => h b (List.mem_cons_of_mem a hb)) _)

/-- A loop that does not look at the slices. -/
theorem flatMap_placed (entry : α → Nat → Nat → γ) {text : γ → List τ} {text' : α → List τ}
    (h : ∀ a first count, text (entry a first count) = text' a) (size : α → Nat) (first : Nat)
    (as : List α) : (placed entry size first as).flatMap text = as.flatMap text' := by
  induction as generalizing first with
  | nil => rfl
  | cons a as ih => rw [placed, List.flatMap_cons, List.flatMap_cons, h, ih]

/-- A loop over entries whose rounds go by the slice: each entry finds its own
items. -/
theorem rounds_placed {pool : List β} {round : γ → Option (List τ)} {text : α → List τ}
    (items : α → List β) (entry : α → Nat → Nat → γ) {size : α → Nat}
    (hsize : ∀ a, (items a).length = size a)
    (hround : ∀ a first, slice pool first (size a) = some (items a) →
      round (entry a first (size a)) = some (text a))
    {as : List α} (hpool : pool = as.flatMap items) :
    List.Forall₂ (fun e a => round e = some (text a)) (placed entry size 0 as) as := by
  have hrun : ∀ (as : List α) (pre : List β), pool = pre ++ as.flatMap items →
      List.Forall₂ (fun e a => round e = some (text a)) (placed entry size pre.length as) as := by
    intro as
    induction as with
    | nil => exact fun _ _ => .nil
    | cons a as ih =>
        intro pre hpool
        rw [List.flatMap_cons, ← List.append_assoc] at hpool
        have hrest := ih (pre ++ items a) hpool
        rw [List.length_append, hsize] at hrest
        have hslice := slice_append pre (items a) (as.flatMap items)
        rw [hsize, ← hpool] at hslice
        exact .cons (hround a pre.length hslice) hrest
  exact hrun as [] hpool

/-! ## Loops that append -/

theorem appendAll_cons (round : α → Option (List τ)) (a : α) (as : List α) :
    appendAll round (a :: as) =
      (round a).bind fun t => (appendAll round as).map (t ++ ·) := by
  rw [appendAll, List.mapM_cons]
  cases round a with
  | none => rfl
  | some t =>
      rw [appendAll]
      cases as.mapM round with
      | none => rfl
      | some ts => rfl

theorem appendAll_eq {round : α → Option (List τ)} {text : β → List τ} {as : List α} {bs : List β}
    (h : List.Forall₂ (fun a b => round a = some (text b)) as bs) :
    appendAll round as = some (bs.flatMap text) := by
  induction h with
  | nil => rfl
  | @cons a b as bs hab _ ih =>
      rw [appendAll_cons, hab, ih, List.flatMap_cons]
      rfl

/-- The same rounds in the order of a list of places. -/
theorem appendAll_order {round : α → Option (List τ)} {text : β → List τ} {as : List α}
    {bs : List β} (h : List.Forall₂ (fun a b => round a = some (text b)) as bs) {order : List Nat}
    (horder : ∀ i ∈ order, i < bs.length) : ∃ bs' tables,
      order.mapM (fun i => as[i]?) = some bs' ∧
      order.mapM (fun i => (bs[i]?).map text) = some tables ∧
      appendAll round bs' = some tables.flatten := by
  induction order with
  | nil => exact ⟨[], [], rfl, rfl, rfl⟩
  | cons i order ih =>
      obtain ⟨as', tables, has, hbs, hall⟩ := ih fun j hj => horder j (List.mem_cons_of_mem i hj)
      have hi : i < bs.length := horder i List.mem_cons_self
      have hi' : i < as.length := by rw [h.length_eq]; exact hi
      have hround : round as[i] = some (text bs[i]) := h.get hi' hi
      refine ⟨as[i] :: as', text bs[i] :: tables, ?_, ?_, ?_⟩
      · rw [List.mapM_cons, List.getElem?_eq_getElem hi', has]
        rfl
      · rw [List.mapM_cons, List.getElem?_eq_getElem hi, hbs]
        rfl
      · rw [appendAll_cons, hround, hall]
        rfl

/-- What stands at the places of a list, and the texts of it. -/
theorem mapM_places {as : List α} {order : List Nat} (horder : ∀ i ∈ order, i < as.length)
    (text : α → β) : ∃ bs, order.mapM (fun i => as[i]?) = some bs ∧
      order.mapM (fun i => (as[i]?).map text) = some (bs.map text) := by
  induction order with
  | nil => exact ⟨[], rfl, rfl⟩
  | cons i order ih =>
      obtain ⟨bs, has, htexts⟩ := ih fun j hj => horder j (List.mem_cons_of_mem i hj)
      have hi : i < as.length := horder i List.mem_cons_self
      refine ⟨as[i] :: bs, ?_, ?_⟩
      · rw [List.mapM_cons, List.getElem?_eq_getElem hi, has]
        rfl
      · rw [List.mapM_cons, List.getElem?_eq_getElem hi, htexts]
        rfl

end Ycetl.Lib
