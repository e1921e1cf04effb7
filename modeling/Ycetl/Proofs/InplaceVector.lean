import Ycetl.Ref.InplaceVector

/-!
# Vectors in place are bounded lists

A program over an `inplace_vector` goes as one over lists of at most `N`
elements, and has no result where such a list has none: the vector is full, or
to be made longer than it can be. What was left in the slots past the size is
not seen by any call, nor by `operator==`.
-/

namespace Ycetl.Ref.InplaceVector

open Ycetl.Lib

variable {T : Type} {N : Nat}

/-! ## Lists -/

/-- The list a constructor makes, if it is not too long. -/
def Ctor.onList [Inhabited T] (N : Nat) (c : Ctor T) : Option (List T) :=
  let l := match c with
    | .none => []
    | .sized n => List.replicate n default
    | .filled n x => List.replicate n x
    | .range il => il
  if l.length ≤ N then some l else Option.none

def grown (N : Nat) (l : List T) (x : T) (out : Out T) : Option (List T × Out T) :=
  if l.length < N then some (l ++ [x], out) else none

def resized (N : Nat) (l : List T) (n : Nat) (x : T) : Option (List T × Out T) :=
  if n ≤ N then some (l.take n ++ List.replicate (n - l.length) x, .done) else none

/-- The list a call leaves, and what it answers. -/
def onList [Inhabited T] (N : Nat) (l : List T) : Call T → Option (List T × Out T)
  | .pushBack x => grown N l x .done
  | .emplaceBack x => grown N l x (.elem x)
  | .popBack => if 0 < l.length then some (l.dropLast, .done) else none
  | .clear => some ([], .done)
  | .resize n => resized N l n default
  | .resizeWith n x => resized N l n x
  | .assign i x => if i < l.length then some (l.set i x, .done) else none
  | .index i => l[i]?.map fun x => (l, .elem x)
  | .front => l.head?.map fun x => (l, .elem x)
  | .back => l.getLast?.map fun x => (l, .elem x)
  | .empty => some (l, .test l.isEmpty)
  | .full => some (l, .test (l.length = N))

/-! ## What a vector holds -/

/-- The slots below the size hold the list. -/
structure Holds (v : InplaceVector T N) (l : List T) : Prop where
  size : v.size = l.length
  room : l.length ≤ N
  index : ∀ i < l.length, v.index i = l[i]?

variable {v w : InplaceVector T N} {l m : List T} {i k : Nat} {x : T}

theorem put_of_lt (h : i < N) (v : InplaceVector T N) (x : T) :
    v.put i x = some { v with storage := v.storage.set i x h } := dif_pos h

theorem put_of_le (h : N ≤ i) (v : InplaceVector T N) (x : T) : v.put i x = none :=
  dif_neg (Nat.not_lt_of_le h)

theorem index_set (h : i < N) (s : Vector T N) (n j : Nat) (x : T) :
    index ⟨s.set i x h, n⟩ j = if i = j then some x else s[j]? := Vector.getElem?_set h

/-- The loop writes all its slots, or one that is not there. -/
theorem fillLoop_fills (hk : i + k ≤ N) (v : InplaceVector T N) :
    ∃ w, fillLoop x k i v = some w ∧ w.size = v.size ∧
      ∀ j, w.index j = if i ≤ j ∧ j < i + k then some x else v.index j := by
  induction k generalizing i v with
  | zero => exact ⟨v, rfl, rfl, fun j => (if_neg (by omega)).symm⟩
  | succ k ih =>
      rw [fillLoop, put_of_lt (by omega : i < N), Option.bind_some]
      obtain ⟨w, hw, hsize, hindex⟩ := ih (i := i + 1) (by omega) _
      refine ⟨w, hw, hsize, fun j => ?_⟩
      rw [hindex, index_set]
      by_cases hij : i = j
      · rw [if_neg (by omega), if_pos hij, if_pos (by omega)]
      · rw [if_neg hij]
        by_cases hj : i + 1 ≤ j ∧ j < i + 1 + k
        · rw [if_pos hj, if_pos (by omega)]
        · rw [if_neg hj, if_neg (by omega)]
          rfl

theorem fillLoop_none (hk : N < i + k) (hi : i ≤ N) (v : InplaceVector T N) :
    fillLoop x k i v = none := by
  induction k generalizing i v with
  | zero => omega
  | succ k ih =>
      rw [fillLoop]
      by_cases hlt : i < N
      · rw [put_of_lt hlt, Option.bind_some]
        exact ih (by omega) hlt _
      · rw [put_of_le (Nat.le_of_not_lt hlt), Option.bind_none]

namespace Holds

theorem fresh [Inhabited T] : (InplaceVector.fresh : InplaceVector T N).Holds [] where
  size := rfl
  room := Nat.zero_le N
  index := fun i hi => absurd hi (Nat.not_lt_zero i)

/-- Up to `n` elements of a list, the rest one value. -/
theorem resize (h : v.Holds l) {n : Nat} (hn : n ≤ N) :
    ∃ w, v.resize n x = some w ∧ w.Holds (l.take n ++ List.replicate (n - l.length) x) := by
  have hsize := h.size
  have hlength : (l.take n ++ List.replicate (n - l.length) x).length = n := by
    rw [List.length_append, List.length_take, List.length_replicate]
    omega
  rw [InplaceVector.resize]
  split
  · next hlt =>
      obtain ⟨w, hw, -, hindex⟩ := fillLoop_fills (x := x)
        (by omega : v.size + (n - v.size) ≤ N) v
      rw [hw]
      refine ⟨{ w with size := n }, rfl, hlength.symm, by rwa [hlength], fun i hi => ?_⟩
      rw [hlength] at hi
      show w.index i = _
      rw [hindex, List.take_of_length_le (by omega)]
      by_cases hil : i < l.length
      · rw [if_neg (by omega), h.index i hil, List.getElem?_append_left hil]
      · rw [if_pos (by omega), List.getElem?_append_right (by omega),
          List.getElem?_replicate_of_lt (by omega)]
  · next hge =>
      refine ⟨{ v with size := n }, rfl, hlength.symm, by rwa [hlength], fun i hi => ?_⟩
      rw [hlength] at hi
      show v.index i = _
      rw [h.index i (by omega), List.getElem?_append_left (by rw [List.length_take]; omega),
        List.getElem?_take_of_lt hi]

theorem resize_none (h : v.Holds l) {n : Nat} (hn : N < n) : v.resize n x = none := by
  have hsize := h.size
  have hroom := h.room
  rw [InplaceVector.resize, if_pos (by omega), fillLoop_none (by omega) (by omega)]
  rfl

theorem pushBack (h : v.Holds l) (hlt : l.length < N) :
    ∃ w, v.pushBack x = some w ∧ w.Holds (l ++ [x]) ∧ w.index v.size = some x := by
  rw [InplaceVector.pushBack, h.size, put_of_lt hlt]
  refine ⟨_, rfl, ⟨?_, ?_, fun i hi => ?_⟩, ?_⟩
  · show v.size + 1 = _
    rw [h.size, List.length_append, List.length_singleton]
  · rw [List.length_append, List.length_singleton]
    exact hlt
  · rw [List.length_append, List.length_singleton] at hi
    rw [index_set]
    by_cases hil : i < l.length
    · rw [if_neg (Nat.ne_of_gt hil), List.getElem?_append_left hil]
      exact h.index i hil
    · have heq : l.length = i := by omega
      rw [if_pos heq, ← heq, List.getElem?_concat_length]
  · rw [index_set, if_pos rfl]

theorem pushBack_none (h : v.Holds l) (hle : N ≤ l.length) : v.pushBack x = none := by
  rw [InplaceVector.pushBack, h.size, put_of_le hle]
  rfl

theorem popBack (h : v.Holds l) (hl : 0 < l.length) : v.popBack.Holds l.dropLast where
  size := by
    have hsize := h.size
    rw [InplaceVector.popBack, List.length_dropLast]
    show (if v.size = 0 then 2 ^ 64 - 1 else v.size - 1) = _
    rw [if_neg (by omega), hsize]
  room := by
    rw [List.length_dropLast]
    exact Nat.le_trans (Nat.sub_le _ _) h.room
  index := fun i hi => by
    rw [List.length_dropLast] at hi
    rw [List.getElem?_dropLast, if_pos hi]
    exact h.index i (by omega)

theorem put (h : v.Holds l) (hi : i < l.length) :
    ∃ w, v.put i x = some w ∧ w.Holds (l.set i x) := by
  have hlt : i < N := Nat.lt_of_lt_of_le hi h.room
  rw [put_of_lt hlt]
  refine ⟨_, rfl, h.size.trans List.length_set.symm, List.length_set.symm ▸ h.room,
    fun j hj => ?_⟩
  rw [List.length_set] at hj
  rw [index_set]
  by_cases hij : i = j
  · subst hij
    rw [if_pos rfl, List.getElem?_set_self hi]
  · rw [if_neg hij, List.getElem?_set_ne hij]
    exact h.index j hj

theorem foldlM_pushBack (h : v.Holds l) (il : List T) (hroom : l.length + il.length ≤ N) :
    ∃ w, il.foldlM InplaceVector.pushBack v = some w ∧ w.Holds (l ++ il) := by
  induction il generalizing v l with
  | nil => exact ⟨v, rfl, by rwa [List.append_nil]⟩
  | cons x il ih =>
      rw [List.length_cons] at hroom
      obtain ⟨w, hw, hholds, -⟩ := h.pushBack (x := x) (by omega)
      obtain ⟨u, hu, hall⟩ := ih hholds (by rw [List.length_append, List.length_singleton]; omega)
      rw [List.append_assoc] at hall
      refine ⟨u, ?_, hall⟩
      rw [List.foldlM_cons, hw]
      exact hu

theorem foldlM_none (h : v.Holds l) (il : List T) (hroom : N < l.length + il.length) :
    il.foldlM InplaceVector.pushBack v = none := by
  induction il generalizing v l with
  | nil => exact absurd h.room (Nat.not_le_of_lt hroom)
  | cons x il ih =>
      rw [List.length_cons] at hroom
      rw [List.foldlM_cons]
      by_cases hlt : l.length < N
      · obtain ⟨w, hw, hholds, -⟩ := h.pushBack (x := x) hlt
        rw [hw]
        exact ih hholds (by rw [List.length_append, List.length_singleton]; omega)
      · rw [h.pushBack_none (Nat.le_of_not_lt hlt)]
        rfl

/-- What iteration reads are the elements. -/
theorem iterate (h : v.Holds l) : v.iterate = l.map some := by
  refine List.ext_getElem? fun i => ?_
  rw [InplaceVector.iterate, h.size, List.getElem?_map, List.getElem?_map]
  by_cases hi : i < l.length
  · rw [List.getElem?_range hi, Option.map_some, h.index i hi, List.getElem?_eq_getElem hi]
    rfl
  · rw [List.getElem?_eq_none (by rw [List.length_range]; omega), List.getElem?_eq_none (by omega)]
    rfl

/-! ## Comparing -/

theorem eqLoop_eq [BEq T] (hv : v.Holds l) (hw : w.Holds m) (hlm : l.length = m.length)
    (hk : i + k = l.length) : eqLoop v w k i = some (l.drop i == m.drop i) := by
  induction k generalizing i with
  | zero =>
      rw [eqLoop, List.drop_of_length_le (by omega), List.drop_of_length_le (by omega)]
      rfl
  | succ k ih =>
      have hi : i < l.length := by omega
      have hj : i < m.length := by omega
      rw [eqLoop, hv.index i hi, hw.index i hj, List.getElem?_eq_getElem hi,
        List.getElem?_eq_getElem hj, List.drop_eq_getElem_cons hi, List.drop_eq_getElem_cons hj,
        List.cons_beq_cons]
      simp only [Option.bind_eq_bind, Option.bind_some]
      cases hxy : l[i] == m[i] with
      | true => simpa using ih (by omega)
      | false => rfl

theorem eq_eq [BEq T] (hv : v.Holds l) (hw : w.Holds m) : v.eq w = some (l == m) := by
  rw [InplaceVector.eq, hv.size, hw.size]
  split
  · next hne =>
      cases hbeq : l == m with
      | false => rfl
      | true => exact absurd (List.length_eq_of_beq hbeq) hne
  · next heq => exact eqLoop_eq hv hw (not_not.mp heq) (Nat.zero_add _)

end Holds

/-! ## Programs -/

section

variable [Inhabited T]

/-- The constructors fill an empty vector. -/
theorem fillLoop_fresh (n : Nat) (x : T) :
    (fillLoop x n 0 (fresh : InplaceVector T N)).map (fun v => { v with size := n }) =
      fresh.resize n x := by
  cases n with
  | zero => rfl
  | succ n =>
      have hlt : (fresh : InplaceVector T N).size < n + 1 := Nat.succ_pos n
      rw [resize, if_pos hlt]
      rfl

theorem resize_rel (n : Nat) (x : T) :
    Option.Rel Holds ((fresh : InplaceVector T N).resize n x)
      (if (List.replicate n x).length ≤ N then some (List.replicate n x) else none) := by
  rw [List.length_replicate]
  split
  · next hn =>
      obtain ⟨w, hw, hholds⟩ := Holds.fresh.resize (x := x) hn
      rw [hw]
      exact .some (by simpa using hholds)
  · next hn =>
      rw [Holds.fresh.resize_none (Nat.lt_of_not_le hn)]
      exact .none

/-- What is constructed holds the list, or neither is there. -/
theorem construct_rel (c : Ctor T) :
    Option.Rel Holds (construct c : Option (InplaceVector T N)) (c.onList N) := by
  cases c with
  | none =>
      rw [construct, Ctor.onList, if_pos (by exact Nat.zero_le N)]
      exact .some Holds.fresh
  | sized n =>
      rw [construct, fillLoop_fresh]
      exact resize_rel n default
  | filled n x =>
      rw [construct, fillLoop_fresh]
      exact resize_rel n x
  | range il =>
      rw [construct, Ctor.onList]
      split
      · next hil =>
          have hroom : ([] : List T).length + il.length ≤ N := by
            rwa [List.length_nil, Nat.zero_add]
          obtain ⟨w, hw, hholds⟩ := Holds.fresh.foldlM_pushBack il hroom
          rw [hw]
          exact .some hholds
      · next hil =>
          have hroom : N < ([] : List T).length + il.length := by
            rw [List.length_nil, Nat.zero_add]
            exact Nat.lt_of_not_le hil
          rw [Holds.fresh.foldlM_none il hroom]
          exact .none

omit [Inhabited T] in
theorem resize_agree (h : v.Holds l) (n : Nat) (x : T) :
    Agree Holds ((v.resize n x).map fun v => (v, (.done : Out T))) (resized N l n x) := by
  rw [resized]
  split
  · next hn =>
      obtain ⟨w, hw, hholds⟩ := h.resize (x := x) hn
      rw [hw]
      exact ⟨hholds, rfl⟩
  · next hn =>
      rw [h.resize_none (Nat.lt_of_not_le hn)]
      exact agree_none

theorem step_of_legal {c : Call T} (h : c.Legal v) : step v c = v.call c := if_pos h

theorem step_of_illegal {c : Call T} (h : ¬ c.Legal v) : step v c = none := if_neg h

/-- What is asked of one element. -/
theorem elem_agree {c : Call T} (h : v.Holds l) (hi : i < l.length) (hc : c.Legal v)
    (hcall : v.call c = (v.index i).map fun x => (v, .elem x)) :
    Agree Holds (step v c) (l[i]?.map fun x => (l, .elem x)) := by
  rw [step_of_legal hc, hcall, h.index i hi, List.getElem?_eq_getElem hi]
  exact ⟨h, rfl⟩

theorem grown_agree {c : Call T} {out : Out T} (h : v.Holds l) (hc : c.Legal v)
    (hcall : ∀ w, v.pushBack x = some w → w.index v.size = some x → v.call c = some (w, out))
    (hnone : v.pushBack x = none → v.call c = none) :
    Agree Holds (step v c) (grown N l x out) := by
  rw [step_of_legal hc, grown]
  split
  · next hlt =>
      obtain ⟨w, hw, hholds, helem⟩ := h.pushBack (x := x) hlt
      rw [hcall w hw helem]
      exact ⟨hholds, rfl⟩
  · next hlt =>
      rw [hnone (h.pushBack_none (Nat.le_of_not_lt hlt))]
      exact agree_none

/-- One call answers what the list answers. -/
theorem step_agree (h : v.Holds l) (c : Call T) : Agree Holds (step v c) (onList N l c) := by
  have hsize := h.size
  cases c with
  | pushBack x =>
      refine grown_agree h trivial (fun w hw _ => ?_) fun hnone => ?_
      · rw [call, hw, Option.map_some]
      · rw [call, hnone, Option.map_none]
  | emplaceBack x =>
      refine grown_agree h trivial (fun w hw helem => ?_) fun hnone => ?_
      · rw [call, hw, Option.bind_some, helem, Option.map_some]
      · rw [call, hnone, Option.bind_none]
  | popBack =>
      rw [onList]
      split
      · next hl =>
          rw [step_of_legal (c := .popBack) (hsize ▸ hl : 0 < v.size)]
          exact ⟨h.popBack hl, rfl⟩
      · next hl =>
          rw [step_of_illegal (c := .popBack) (hsize ▸ hl : ¬ 0 < v.size)]
          exact agree_none
  | clear =>
      rw [step_of_legal (v := v) (c := .clear) trivial]
      exact ⟨⟨rfl, Nat.zero_le N, fun i hi => absurd hi (Nat.not_lt_zero i)⟩, rfl⟩
  | resize n =>
      rw [step_of_legal (v := v) (c := .resize n) trivial]
      exact resize_agree h n default
  | resizeWith n x =>
      rw [step_of_legal (v := v) (c := .resizeWith n x) trivial]
      exact resize_agree h n x
  | assign i x =>
      rw [onList]
      split
      · next hi =>
          obtain ⟨w, hw, hholds⟩ := h.put (x := x) hi
          rw [step_of_legal (c := .assign i x) (hsize ▸ hi : i < v.size), call, hw]
          exact ⟨hholds, rfl⟩
      · next hi =>
          rw [step_of_illegal (c := .assign i x) (hsize ▸ hi : ¬ i < v.size)]
          exact agree_none
  | index i =>
      rw [onList]
      by_cases hi : i < l.length
      · exact elem_agree h hi (hsize ▸ hi : i < v.size) rfl
      · rw [step_of_illegal (c := .index i) (hsize ▸ hi : ¬ i < v.size),
          List.getElem?_eq_none (Nat.le_of_not_lt hi)]
        exact agree_none
  | front =>
      rw [onList, List.head?_eq_getElem?]
      by_cases hl : 0 < l.length
      · exact elem_agree h hl (hsize ▸ hl : 0 < v.size) rfl
      · rw [step_of_illegal (c := .front) (hsize ▸ hl : ¬ 0 < v.size),
          List.getElem?_eq_none (Nat.le_of_not_lt hl)]
        exact agree_none
  | back =>
      rw [onList, List.getLast?_eq_getElem?]
      by_cases hl : 0 < l.length
      · have hlast : l.length - 1 < l.length := by omega
        have hback : v.back = v.index (l.length - 1) := by
          rw [back, popBack]
          show v.index (if v.size = 0 then 2 ^ 64 - 1 else v.size - 1) = _
          rw [if_neg (by omega), hsize]
        refine elem_agree h hlast (hsize ▸ hl : 0 < v.size) ?_
        rw [call, hback]
      · rw [step_of_illegal (c := .back) (hsize ▸ hl : ¬ 0 < v.size),
          List.getElem?_eq_none (by omega)]
        exact agree_none
  | empty =>
      rw [step_of_legal (v := v) (c := .empty) trivial]
      refine ⟨h, congrArg Out.test ?_⟩
      rw [empty, hsize]
      cases l <;> rfl
  | full =>
      rw [step_of_legal (v := v) (c := .full) trivial]
      refine ⟨h, congrArg Out.test ?_⟩
      rw [full, hsize]

/-- The list, with all that is asked of it. -/
def listRun (N : Nat) (c : Ctor T) (calls : List (Call T)) : Option (List T × List (Out T)) :=
  (c.onList N).bind fun l => answersFrom (onList N) l calls

theorem run_agree (c : Ctor T) (calls : List (Call T)) :
    Agree Holds (run c calls : Option (InplaceVector T N × _)) (listRun N c calls) := by
  have hrel := construct_rel (N := N) c
  rw [run, listRun]
  generalize (construct c : Option (InplaceVector T N)) = v at hrel ⊢
  generalize c.onList N = l at hrel ⊢
  cases hrel with
  | some h => exact answersFrom_agree (fun _ _ c h => step_agree h c) h calls
  | none => exact agree_none

/-- Every program over a vector answers what it does over lists of at most `N`
elements, with the same elements in the end, or has no result over either. And
any two vectors that come of programs are equal just if their elements are,
whatever is in the slots behind them. -/
theorem inplace_vectors_refine_bounded_lists :
    (∀ (c : Ctor T) (calls : List (Call T)),
      Agree (fun (v : InplaceVector T N) l => v.iterate = l.map some ∧ v.size = l.length ∧
        l.length ≤ N) (run c calls) (listRun N c calls)) ∧
    ∀ [BEq T] (c d : Ctor T) (calls dalls : List (Call T)) (v w : InplaceVector T N)
      (outs douts : List (Out T)), run c calls = some (v, outs) → run d dalls = some (w, douts) →
      ∃ l m, listRun N c calls = some (l, outs) ∧ listRun N d dalls = some (m, douts) ∧
        v.eq w = some (l == m) := by
  refine ⟨fun c calls => (run_agree c calls).mono fun v l h => ⟨h.iterate, h.size, h.room⟩, ?_⟩
  intro _ c d calls dalls v w outs douts hv hw
  have hc := run_agree (N := N) c calls
  have hd := run_agree (N := N) d dalls
  rw [hv] at hc
  rw [hw] at hd
  obtain ⟨l, hl, hvl⟩ := hc.of_some_left
  obtain ⟨m, hm, hwm⟩ := hd.of_some_left
  exact ⟨l, m, hl, hm, hvl.eq_eq hwm⟩

end

/-- Two vectors with different values behind their only element. -/
theorem inplace_vectors_equal_small :
    ∃ l m : List Nat, listRun 3 (.range [1, 2, 3]) [.resize 1] = some (l, [.done]) ∧
      listRun 3 (.filled 1 1) [] = some (m, []) ∧
      (⟨#v[1, 2, 3], 1⟩ : InplaceVector Nat 3).eq ⟨#v[1, 0, 0], 1⟩ = some (l == m) :=
  inplace_vectors_refine_bounded_lists.2 (.range [1, 2, 3]) (.filled 1 1) [.resize 1] [] _ _
    [.done] [] (by decide) (by decide)

end Ycetl.Ref.InplaceVector
