import Mathlib.Data.List.Nodup
import Mathlib.Data.List.Perm.Subperm
import Mathlib.Data.List.Range
import Mathlib.Data.Set.Insert
import Ycetl.Lib.Records

/-!
# Chains of nodes

Nodes are records of a heap, numbered in the order in which `new` made them.
A chain is a run of nodes that are linked one to the next; `mk` makes a node
from the link before it, its value and the link behind it, so the same
definition serves nodes with one link and with two. The ends of a chain are
parameters: a chain that ends in another chain's first node is the front part
of a longer one, and `chain_append` cuts and joins at any place.

A write to the last node moves the end of a chain, a write to the first node
moves its start, and a write elsewhere leaves it alone. These are the steps
every insertion and removal is made of.
-/

namespace Ycetl.Lib

variable {N V σ : Type}

/-! ## The heap -/

/-- `new N{...}`: the heap with the node, and its number. -/
def newNode (H : List (Option N)) (n : N) : List (Option N) × Nat :=
  (H ++ [some n], H.length)

/-- `delete p`; a node is deleted once. -/
def deleteNode (H : List (Option N)) (p : Nat) : Option (List (Option N)) :=
  (record? H p).map fun _ => H.set p none

/-- A write through a pointer. -/
def updateNode (H : List (Option N)) (p : Nat) (f : N → N) : Option (List (Option N)) :=
  (record? H p).map fun n => H.set p (some (f n))

/-- A write that is made unless the pointer is null. -/
def updateIf (H : List (Option N)) (p : Option Nat) (f : N → N) :
    Option (List (Option N)) :=
  match p with
  | none => some H
  | some p => updateNode H p f

section

variable (next : N → Option Nat)

/-- The nodes a walk along `next` comes to; it stops at null, at a node that
is not there, and when the fuel is spent. -/
def nodesFrom (H : List (Option N)) : Nat → Option Nat → List Nat
  | _, none => []
  | 0, some _ => []
  | fuel + 1, some p =>
      p :: match record? H p with
        | some n => nodesFrom H fuel (next n)
        | none => []

/-- `while (cur) { nx = cur->next; delete cur; cur = nx; }` -/
def deleteFrom : Nat → Option Nat → List (Option N) → Option (List (Option N))
  | _, none, H => some H
  | 0, some _, _ => none
  | fuel + 1, some p, H => do
      let n ← record? H p
      let H ← deleteNode H p
      deleteFrom fuel (next n) H

/-- `for (it = p; it; it = it->next) body(*it);`, where the body may write to
the heap. -/
def forEachFrom (body : List (Option N) → σ → N → Option (List (Option N) × σ)) :
    Nat → Option Nat → List (Option N) → σ → Option (List (Option N) × σ)
  | _, none, H, s => some (H, s)
  | 0, some _, _, _ => none
  | fuel + 1, some p, H, s => do
      let n ← record? H p
      let (H, s) ← body H s n
      let n ← record? H p
      forEachFrom body fuel (next n) H s

end

/-! ## How many nodes were made -/

theorem length_updateNode {H H' : List (Option N)} {p : Nat} {f : N → N}
    (h : updateNode H p f = some H') : H'.length = H.length := by
  obtain ⟨n, -, rfl⟩ := Option.map_eq_some_iff.mp h
  exact List.length_set

theorem length_updateIf {H H' : List (Option N)} {p : Option Nat} {f : N → N}
    (h : updateIf H p f = some H') : H'.length = H.length := by
  cases p with
  | none => rw [Option.some.inj h]
  | some p => exact length_updateNode h

theorem length_deleteNode {H H' : List (Option N)} {p : Nat} (h : deleteNode H p = some H') :
    H'.length = H.length := by
  obtain ⟨n, -, rfl⟩ := Option.map_eq_some_iff.mp h
  exact List.length_set

theorem length_deleteFrom {next : N → Option Nat} {fuel : Nat} {p : Option Nat}
    {H H' : List (Option N)} (h : deleteFrom next fuel p H = some H') :
    H'.length = H.length := by
  induction fuel generalizing p H with
  | zero =>
      cases p with
      | none => rw [Option.some.inj h]
      | some p => cases h
  | succ fuel ih =>
      cases p with
      | none => rw [Option.some.inj h]
      | some p =>
          obtain ⟨n, -, h⟩ := Option.bind_eq_some_iff.mp h
          obtain ⟨H₁, hd, h⟩ := Option.bind_eq_some_iff.mp h
          rw [ih h, length_deleteNode hd]

/-! ## What a piece of work leaves alone -/

/-- The nodes outside `F` are as they were. -/
structure KeepsOutside (H : List (Option N)) (F : Set Nat) (H' : List (Option N)) :
    Prop where
  length_le : H.length ≤ H'.length
  record_eq : ∀ p < H.length, p ∉ F → record? H' p = record? H p

theorem KeepsOutside.refl (H : List (Option N)) (F : Set Nat) : KeepsOutside H F H :=
  ⟨Nat.le_refl _, fun _ _ _ => rfl⟩

/-- Work on what was owned, or made, before. -/
theorem KeepsOutside.trans {H₁ H₂ H₃ : List (Option N)} {F G : Set Nat}
    (h₁ : KeepsOutside H₁ F H₂) (h₂ : KeepsOutside H₂ G H₃)
    (hG : ∀ p ∈ G, p ∈ F ∨ H₁.length ≤ p) : KeepsOutside H₁ F H₃ := by
  refine ⟨h₁.length_le.trans h₂.length_le, fun p hp hpF => ?_⟩
  have hpG : p ∉ G := by
    intro h
    rcases hG p h with hF | hle
    · exact hpF hF
    · omega
  rw [h₂.record_eq p (Nat.lt_of_lt_of_le hp h₁.length_le) hpG, h₁.record_eq p hp hpF]

theorem KeepsOutside.trans_same {H₁ H₂ H₃ : List (Option N)} {F : Set Nat}
    (h₁ : KeepsOutside H₁ F H₂) (h₂ : KeepsOutside H₂ F H₃) : KeepsOutside H₁ F H₃ :=
  h₁.trans h₂ fun _ hp => Or.inl hp

theorem KeepsOutside.mono {H H' : List (Option N)} {F G : Set Nat}
    (h : KeepsOutside H F H') (hFG : F ⊆ G) : KeepsOutside H G H' :=
  ⟨h.length_le, fun p hp hpG => h.record_eq p hp fun hpF => hpG (hFG hpF)⟩

theorem newNode_keeps (H : List (Option N)) (n : N) :
    KeepsOutside H ∅ (newNode H n).1 := by
  refine ⟨by simp [newNode], fun p hp _ => ?_⟩
  rw [newNode, record?_append, if_neg (by omega)]

theorem set_keeps {H : List (Option N)} {p : Nat} (hp : p < H.length) (o : Option N) :
    KeepsOutside H {p} (H.set p o) := by
  refine ⟨by simp, fun q _ hq => ?_⟩
  rw [record?_set hp, if_neg fun h => hq (Set.mem_singleton_iff.mpr h.symm)]

/-! ## Chains -/

/-- The first node of a chain, or where it ends. -/
def firstOr : List (Nat × V) → Option Nat → Option Nat
  | [], e => e
  | (p, _) :: _, _ => some p

/-- The last node of a chain, or where it starts. -/
def lastOr : List (Nat × V) → Option Nat → Option Nat
  | [], b => b
  | (p, _) :: es, _ => lastOr es (some p)

@[simp] theorem firstOr_nil (e : Option Nat) : firstOr ([] : List (Nat × V)) e = e := rfl

@[simp] theorem firstOr_cons (p : Nat) (v : V) (es : List (Nat × V)) (e : Option Nat) :
    firstOr ((p, v) :: es) e = some p := rfl

@[simp] theorem lastOr_nil (b : Option Nat) : lastOr ([] : List (Nat × V)) b = b := rfl

theorem firstOr_append (es fs : List (Nat × V)) (e : Option Nat) :
    firstOr (es ++ fs) e = firstOr es (firstOr fs e) := by
  cases es <;> rfl

@[simp] theorem lastOr_concat (es : List (Nat × V)) (p : Nat) (v : V) (b : Option Nat) :
    lastOr (es ++ [(p, v)]) b = some p := by
  induction es generalizing b with
  | nil => rfl
  | cons x es ih => exact ih (some x.1)

theorem lastOr_append (es fs : List (Nat × V)) (b : Option Nat) :
    lastOr (es ++ fs) b = lastOr fs (lastOr es b) := by
  induction es generalizing b with
  | nil => rfl
  | cons x es ih => exact ih (some x.1)

theorem isSome_lastOr (es : List (Nat × V)) (p : Nat) : (lastOr es (some p)).isSome := by
  induction es generalizing p with
  | nil => rfl
  | cons x es ih => exact ih x.1

/-- The first node, when all that follows `l` is exchanged. -/
theorem firstOr_splice (l r r' : List (Nat × V)) :
    (if (lastOr l none).isSome then firstOr (l ++ r') none else firstOr r none) =
      firstOr (l ++ r) none := by
  cases l with
  | nil => rfl
  | cons x l => rw [lastOr, if_pos (isSome_lastOr l x.1)]; rfl

/-- The last node, when all that precedes `r` is exchanged. -/
theorem lastOr_splice (l l' r : List (Nat × V)) :
    (if (firstOr r none).isSome then lastOr (l' ++ r) none else lastOr l none) =
      lastOr (l ++ r) none := by
  cases r with
  | nil => simp
  | cons x r => rw [lastOr_append, lastOr_append]; rfl

/-- The numbers of the nodes of a chain. -/
def nodesOf (es : List (Nat × V)) : List Nat := es.map Prod.fst

/-- The same as a set of cells. -/
def cellsOf (es : List (Nat × V)) : Set Nat := {p | p ∈ nodesOf es}

@[simp] theorem mem_cellsOf {p : Nat} {es : List (Nat × V)} :
    p ∈ cellsOf es ↔ p ∈ nodesOf es := Iff.rfl

theorem cellsOf_subset_left (es fs : List (Nat × V)) : cellsOf es ⊆ cellsOf (es ++ fs) := by
  intro p hp
  rw [mem_cellsOf] at hp
  rw [mem_cellsOf, nodesOf, List.map_append]
  exact List.mem_append_left _ hp

@[simp] theorem nodesOf_nil : nodesOf ([] : List (Nat × V)) = [] := rfl

@[simp] theorem nodesOf_cons (p : Nat) (v : V) (es : List (Nat × V)) :
    nodesOf ((p, v) :: es) = p :: nodesOf es := rfl

@[simp] theorem nodesOf_append (es fs : List (Nat × V)) :
    nodesOf (es ++ fs) = nodesOf es ++ nodesOf fs :=
  List.map_append ..

/-- A node between two parts. -/
theorem nodup_middle {es fs : List (Nat × V)} {p : Nat} {v : V} :
    (nodesOf (es ++ (p, v) :: fs)).Nodup ↔
      p ∉ nodesOf (es ++ fs) ∧ (nodesOf (es ++ fs)).Nodup := by
  rw [nodesOf_append, nodesOf_cons, List.nodup_middle, ← nodesOf_append, List.nodup_cons]

section

variable (mk : Option Nat → V → Option Nat → N)

/-- The nodes of `es` are linked in this order, from `b` to `e`. -/
def Chain (H : List (Option N)) : Option Nat → List (Nat × V) → Option Nat → Prop
  | _, [], _ => True
  | b, (p, v) :: es, e =>
      record? H p = some (mk b v (firstOr es e)) ∧ Chain H (some p) es e

variable {mk} {H H' : List (Option N)} {b e : Option Nat} {es fs : List (Nat × V)}

theorem chain_append :
    Chain mk H b (es ++ fs) e ↔
      Chain mk H b es (firstOr fs e) ∧ Chain mk H (lastOr es b) fs e := by
  induction es generalizing b with
  | nil => simp [Chain]
  | cons x es ih =>
      obtain ⟨p, v⟩ := x
      rw [List.cons_append, Chain, Chain, ih, firstOr_append, and_assoc]
      rfl

/-- A chain depends on its own nodes only. -/
theorem Chain.congr (h : Chain mk H b es e)
    (hkeep : ∀ p ∈ nodesOf es, record? H' p = record? H p) : Chain mk H' b es e := by
  induction es generalizing b with
  | nil => trivial
  | cons x es ih =>
      obtain ⟨p, v⟩ := x
      exact ⟨(hkeep p (by simp)).trans h.1, ih h.2 fun q hq => hkeep q (by simp [hq])⟩

theorem Chain.lt (h : Chain mk H b es e) : ∀ p ∈ nodesOf es, p < H.length := by
  induction es generalizing b with
  | nil => simp
  | cons x es ih =>
      obtain ⟨p, v⟩ := x
      intro q hq
      rw [nodesOf_cons, List.mem_cons] at hq
      rcases hq with rfl | hq
      · exact lt_of_record? h.1
      · exact ih h.2 q hq

theorem Chain.keep {F : Set Nat} (h : Chain mk H b es e) (hk : KeepsOutside H F H')
    (hF : ∀ p ∈ nodesOf es, p ∉ F) : Chain mk H' b es e :=
  h.congr fun p hp => hk.record_eq p (h.lt p hp) (hF p hp)

/-- Another node is written, or deleted. -/
theorem Chain.keepOther {p : Nat} (h : Chain mk H b es e) (hk : KeepsOutside H {p} H')
    (hp : p ∉ nodesOf es) : Chain mk H' b es e :=
  h.keep hk fun _ hq hqp => hp (Set.mem_singleton_iff.mp hqp ▸ hq)

/-- The number of the next node is on no chain. -/
theorem Chain.fresh (h : Chain mk H b es e) : H.length ∉ nodesOf es := fun hmem =>
  Nat.lt_irrefl _ (h.lt _ hmem)

/-- A node on the chain cuts it in two. -/
theorem exists_cut {p : Nat} (hp : p ∈ nodesOf es) : ∃ l v r, es = l ++ (p, v) :: r := by
  rw [nodesOf, List.mem_map] at hp
  obtain ⟨⟨q, v⟩, hmem, rfl⟩ := hp
  obtain ⟨l, r, rfl⟩ := List.append_of_mem hmem
  exact ⟨l, v, r, rfl⟩

/-- A node is one of a sequence, which is cut there, or it is not. -/
theorem cut_cases (hnd : (nodesOf es).Nodup) (p : Nat) {A B : Prop}
    (hin : p ∈ nodesOf es → ∀ l v r, es = l ++ (p, v) :: r → p ∉ nodesOf l → A)
    (hout : p ∉ nodesOf es → B) : (p ∈ nodesOf es ∧ A) ∨ (p ∉ nodesOf es ∧ B) := by
  by_cases hp : p ∈ nodesOf es
  · obtain ⟨l, v, r, hes⟩ := exists_cut hp
    rw [hes, nodup_middle, nodesOf_append, List.mem_append, not_or] at hnd
    exact .inl ⟨hp, hin hp l v r hes hnd.1.1⟩
  · exact .inr ⟨hp, hout hp⟩

theorem firstOr_eq_head? (es : List (Nat × V)) (e : Option Nat) :
    firstOr es e = ((nodesOf es).head?).or e := by
  cases es <;> rfl

theorem lastOr_eq_getLast? (es : List (Nat × V)) (b : Option Nat) :
    lastOr es b = ((nodesOf es).getLast?).or b := by
  rcases List.eq_nil_or_concat es with rfl | ⟨es, ⟨p, v⟩, rfl⟩
  · rfl
  · rw [List.concat_eq_append, lastOr_concat, nodesOf_append]
    simp

/-- Read backwards, a chain is one for the links swapped. -/
theorem Chain.reverse (h : Chain mk H b es e) :
    Chain (fun b v e => mk e v b) H e es.reverse b := by
  induction es generalizing b with
  | nil => trivial
  | cons x es ih =>
      obtain ⟨p, v⟩ := x
      have hlast : lastOr es.reverse e = firstOr es e := by
        rw [lastOr_eq_getLast?, firstOr_eq_head?, nodesOf, nodesOf, List.map_reverse,
          List.getLast?_reverse]
      rw [List.reverse_cons, chain_append]
      refine ⟨ih h.2, ?_, trivial⟩
      rw [hlast]
      exact h.1

/-- A chain is no longer than the heap. -/
theorem Chain.length_le (h : Chain mk H b es e) (hnd : (nodesOf es).Nodup) :
    es.length ≤ H.length := by
  have hsub : nodesOf es ⊆ List.range H.length := fun p hp =>
    List.mem_range.mpr (h.lt p hp)
  have := (hnd.subperm hsub).length_le
  rwa [nodesOf, List.length_map, List.length_range] at this

/-! ## Accounts -/

/-- A piece of work on the nodes of `es` that leaves those of `es'`. It made
the others of the new nodes, and deleted the others of the old ones. -/
structure Reworks (H : List (Option N)) (es : List (Nat × V)) (H' : List (Option N))
    (es' : List (Nat × V)) : Prop where
  keeps : KeepsOutside H (cellsOf es) H'
  owned : ∀ p ∈ nodesOf es', p ∈ nodesOf es ∨ H.length ≤ p
  gone : ∀ p, p ∈ nodesOf es ∨ H.length ≤ p → p ∉ nodesOf es' → record? H' p = none

theorem Reworks.refl (H : List (Option N)) (es : List (Nat × V)) : Reworks H es H es := by
  refine ⟨KeepsOutside.refl H _, fun p hp => Or.inl hp, fun p hp hp' => ?_⟩
  exact record?_of_length_le (hp.resolve_left hp')

theorem Reworks.trans {H₁ H₂ H₃ : List (Option N)} {es₁ es₂ es₃ : List (Nat × V)}
    (h₁ : Reworks H₁ es₁ H₂ es₂) (h₂ : Reworks H₂ es₂ H₃ es₃) : Reworks H₁ es₁ H₃ es₃ := by
  have hle := h₁.keeps.length_le
  refine ⟨h₁.keeps.trans h₂.keeps h₁.owned, fun p hp => ?_, fun p hp hp₃ => ?_⟩
  · rcases h₂.owned p hp with h | h
    · exact h₁.owned p h
    · exact Or.inr (hle.trans h)
  · by_cases hmid : p ∈ nodesOf es₂ ∨ H₂.length ≤ p
    · exact h₂.gone p hmid hp₃
    · rw [not_or, Nat.not_le] at hmid
      rw [h₂.keeps.record_eq p hmid.2 hmid.1]
      exact h₁.gone p hp hmid.1

/-- One node was made. -/
theorem Reworks.insert {H H' : List (Option N)} {l r : List (Nat × V)} {v : V}
    (hk : KeepsOutside H (cellsOf (l ++ r)) H') (hlen : H'.length = H.length + 1) :
    Reworks H (l ++ r) H' (l ++ (H.length, v) :: r) := by
  refine ⟨hk, fun p hp => ?_, fun p hp hp' => record?_of_length_le ?_⟩
  · simp only [nodesOf_append, nodesOf_cons, List.mem_append, List.mem_cons] at hp ⊢
    rcases hp with hp | hp | hp
    · exact Or.inl (Or.inl hp)
    · exact Or.inr (Nat.le_of_eq hp.symm)
    · exact Or.inl (Or.inr hp)
  · simp only [nodesOf_append, nodesOf_cons, List.mem_append, List.mem_cons, not_or] at hp hp'
    rcases hp with (hp | hp) | hp
    · exact absurd hp hp'.1
    · exact absurd hp hp'.2.2
    · have := hp'.2.1
      omega

/-- One node was deleted. -/
theorem Reworks.erase {H H' : List (Option N)} {l r : List (Nat × V)} {p : Nat} {v : V}
    (hk : KeepsOutside H (cellsOf (l ++ (p, v) :: r)) H') (hlen : H'.length = H.length)
    (hp : record? H' p = none) : Reworks H (l ++ (p, v) :: r) H' (l ++ r) := by
  refine ⟨hk, fun q hq => Or.inl ?_, fun q hq hq' => ?_⟩
  · simp only [nodesOf_append, nodesOf_cons, List.mem_append, List.mem_cons] at hq ⊢
    exact hq.imp_right Or.inr
  · simp only [nodesOf_append, nodesOf_cons, List.mem_append, List.mem_cons, not_or] at hq hq'
    rcases hq with (hq | rfl | hq) | hq
    · exact absurd hq hq'.1
    · exact hp
    · exact absurd hq hq'.2
    · exact record?_of_length_le (hlen ▸ hq)

/-- The nodes stayed, and some of them were written. -/
theorem Reworks.write {H H' : List (Option N)} {es es' : List (Nat × V)}
    (hk : KeepsOutside H (cellsOf es) H') (hlen : H'.length = H.length)
    (hnodes : nodesOf es' = nodesOf es) : Reworks H es H' es' := by
  refine ⟨hk, fun p hp => Or.inl (hnodes ▸ hp), fun p hp hp' => record?_of_length_le ?_⟩
  rw [hnodes] at hp'
  exact hlen ▸ hp.resolve_left hp'

/-! ## Moving an end -/

theorem updateNode_spec {H : List (Option N)} {p : Nat} {n : N} (h : record? H p = some n)
    (f : N → N) :
    ∃ H', updateNode H p f = some H' ∧ KeepsOutside H {p} H' ∧ H'.length = H.length ∧
      record? H' p = some (f n) := by
  have hp := lt_of_record? h
  refine ⟨H.set p (some (f n)), by rw [updateNode, h]; rfl, set_keeps hp _,
    List.length_set, ?_⟩
  rw [record?_set hp, if_pos rfl]

/-- A chain is made to end elsewhere, by a write to its last node. -/
theorem Chain.relinkLast (h : Chain mk H b es e) (hnd : (nodesOf es).Nodup) (e' : Option Nat)
    (f : N → N) (hf : ∀ b v, f (mk b v e) = mk b v e') :
    ∃ H', updateIf H (lastOr es none) f = some H' ∧
      KeepsOutside H (cellsOf es) H' ∧ H'.length = H.length ∧
      Chain mk H' b es e' := by
  rcases List.eq_nil_or_concat es with rfl | ⟨l, ⟨p, v⟩, rfl⟩
  · exact ⟨H, rfl, KeepsOutside.refl H _, rfl, trivial⟩
  · rw [List.concat_eq_append] at h hnd ⊢
    obtain ⟨hl, hp, -⟩ := chain_append.mp h
    obtain ⟨H', hu, hk, hlen, hp'⟩ := updateNode_spec hp f
    rw [nodesOf_append] at hnd
    have hpl : p ∉ nodesOf l := fun hmem =>
      (List.nodup_append.mp hnd).2.2 p hmem p (by simp) rfl
    refine ⟨H', ?_, hk.mono ?_, hlen, chain_append.mpr ⟨?_, ?_, trivial⟩⟩
    · rw [lastOr_concat]
      exact hu
    · intro q hq
      simp [Set.mem_singleton_iff.mp hq]
    · exact hl.keepOther hk hpl
    · rw [hp', firstOr_nil, hf]
      rfl

/-- A chain is made to start elsewhere, by a write to its first node. -/
theorem Chain.relinkFirst (h : Chain mk H b es e) (hnd : (nodesOf es).Nodup) (b' : Option Nat)
    (f : N → N) (hf : ∀ v e, f (mk b v e) = mk b' v e) :
    ∃ H', updateIf H (firstOr es none) f = some H' ∧
      KeepsOutside H (cellsOf es) H' ∧ H'.length = H.length ∧
      Chain mk H' b' es e := by
  cases es with
  | nil => exact ⟨H, rfl, KeepsOutside.refl H _, rfl, trivial⟩
  | cons x es =>
      obtain ⟨p, v⟩ := x
      obtain ⟨H', hu, hk, hlen, hp'⟩ := updateNode_spec h.1 f
      rw [nodesOf_cons, List.nodup_cons] at hnd
      refine ⟨H', hu, hk.mono ?_, hlen, ?_, ?_⟩
      · intro q hq
        simp [Set.mem_singleton_iff.mp hq]
      · rw [hp', hf]
      · exact h.2.keepOther hk hnd.1

/-- The value of a node is overwritten. -/
theorem Chain.write {l r : List (Nat × V)} {p : Nat} {v : V}
    (h : Chain mk H b (l ++ (p, v) :: r) e) (hnd : (nodesOf (l ++ (p, v) :: r)).Nodup) (v' : V)
    (f : N → N) (hf : ∀ b e, f (mk b v e) = mk b v' e) :
    ∃ H', updateNode H p f = some H' ∧ Chain mk H' b (l ++ (p, v') :: r) e ∧
      (nodesOf (l ++ (p, v') :: r)).Nodup ∧
      Reworks H (l ++ (p, v) :: r) H' (l ++ (p, v') :: r) := by
  obtain ⟨hl, hp, hr⟩ := chain_append.mp h
  obtain ⟨H', hu, hk, hlen, hp'⟩ := updateNode_spec hp f
  have hother := (nodup_middle.mp hnd).1
  rw [nodesOf_append, List.mem_append, not_or] at hother
  refine ⟨H', hu, chain_append.mpr ⟨hl.keepOther hk hother.1, ?_, hr.keepOther hk hother.2⟩,
    nodup_middle.mpr (nodup_middle.mp hnd), Reworks.write (hk.mono ?_) hlen (by simp)⟩
  · rw [hp', hf]
  · intro q hq
    rw [Set.mem_singleton_iff.mp hq]
    simp

/-! ## New nodes -/

/-- A node that was just made is on no chain. -/
theorem Chain.newNode (h : Chain mk H b es e) (n : N) :
    ∃ H', newNode H n = (H', H.length) ∧ H'.length = H.length + 1 ∧
      KeepsOutside H ∅ H' ∧ Chain mk H' b es e ∧ H.length ∉ nodesOf es ∧
      record? H' H.length = some n := by
  have hk := newNode_keeps H n
  refine ⟨H ++ [some n], rfl, by simp, hk, h.keep hk fun p _ => Set.notMem_empty p,
    h.fresh, ?_⟩
  rw [record?_append, if_pos rfl]

/-- A new node is linked behind the last one. -/
theorem Chain.pushBack (h : Chain mk H none es none) (hnd : (nodesOf es).Nodup) (v : V)
    (f : N → N) (hf : ∀ b v, f (mk b v none) = mk b v (some H.length)) :
    ∃ H₁ H₂, Lib.newNode H (mk (lastOr es none) v none) = (H₁, H.length) ∧
      updateIf H₁ (lastOr es none) f = some H₂ ∧
      Chain mk H₂ none (es ++ [(H.length, v)]) none ∧
      (nodesOf (es ++ [(H.length, v)])).Nodup ∧ Reworks H es H₂ (es ++ [(H.length, v)]) := by
  obtain ⟨H₁, hnew, hlen₁, hk₁, hc₁, hfresh, hf₁⟩ := h.newNode (mk (lastOr es none) v none)
  obtain ⟨H₂, hu, hk₂, hlen₂, hc₂⟩ := hc₁.relinkLast hnd (some H.length) f hf
  have hf₂ := (hk₂.record_eq _ (lt_of_record? hf₁) hfresh).trans hf₁
  have hkeep := (hk₁.mono (Set.empty_subset _)).trans_same hk₂
  refine ⟨H₁, H₂, hnew, hu, chain_append.mpr ⟨hc₂, hf₂, trivial⟩, ?_, ?_⟩
  · rw [nodup_middle, List.append_nil]
    exact ⟨hfresh, hnd⟩
  · rw [← List.append_nil es] at hkeep ⊢
    rw [List.append_assoc]
    exact Reworks.insert hkeep (by omega)

/-! ## Walks -/

/-- What is read at the nodes of a chain. -/
theorem Chain.values {value : N → V} (hvalue : ∀ b v e, value (mk b v e) = v)
    (h : Chain mk H b es e) :
    (nodesOf es).map (fun p => (record? H p).map value) = es.map fun x => some x.2 := by
  induction es generalizing b with
  | nil => rfl
  | cons x es ih =>
      obtain ⟨p, v⟩ := x
      rw [nodesOf_cons, List.map_cons, List.map_cons, ih h.2, h.1, Option.map_some, hvalue]

section

variable (next : N → Option Nat) (hnext : ∀ b v e, next (mk b v e) = e)
include hnext

/-- A walk from the first node visits the chain. -/
theorem Chain.nodesFrom (h : Chain mk H b es none) {fuel : Nat} (hfuel : es.length ≤ fuel) :
    nodesFrom next H fuel (firstOr es none) = nodesOf es := by
  induction es generalizing b fuel with
  | nil => cases fuel <;> rfl
  | cons x es ih =>
      obtain ⟨p, v⟩ := x
      cases fuel with
      | zero => simp at hfuel
      | succ fuel =>
          rw [firstOr_cons, Lib.nodesFrom, h.1]
          simp only [hnext]
          rw [ih h.2 (Nat.le_of_succ_le_succ hfuel), nodesOf_cons]

/-- The whole chain is deleted, and nothing else. -/
theorem Chain.deleteFrom (h : Chain mk H b es none) (hnd : (nodesOf es).Nodup) {fuel : Nat}
    (hfuel : es.length ≤ fuel) :
    ∃ H', deleteFrom next fuel (firstOr es none) H = some H' ∧ H'.length = H.length ∧
      KeepsOutside H (cellsOf es) H' ∧ ∀ p ∈ nodesOf es, record? H' p = none := by
  induction es generalizing H b fuel with
  | nil => exact ⟨H, by cases fuel <;> rfl, rfl, KeepsOutside.refl H _, by simp⟩
  | cons x es ih =>
      obtain ⟨p, v⟩ := x
      cases fuel with
      | zero => simp at hfuel
      | succ fuel =>
          rw [nodesOf_cons, List.nodup_cons] at hnd
          have hp := lt_of_record? h.1
          have hk := set_keeps hp none
          have htail : Chain mk (H.set p none) (some p) es none := h.2.keepOther hk hnd.1
          obtain ⟨H', hd, hlen, hk', hgone⟩ :=
            ih htail hnd.2 (Nat.le_of_succ_le_succ hfuel)
          rw [List.length_set] at hlen
          refine ⟨H', ?_, hlen, (hk.mono ?_).trans hk' ?_, ?_⟩
          · rw [firstOr_cons, Lib.deleteFrom, h.1]
            simp only [Option.bind_eq_bind, Option.bind_some, deleteNode, h.1, Option.map_some,
              hnext]
            exact hd
          · intro q hq
            simp [Set.mem_singleton_iff.mp hq]
          · intro q hq
            exact Or.inl (List.mem_cons_of_mem _ hq)
          · intro q hq
            rw [nodesOf_cons, List.mem_cons] at hq
            rcases hq with rfl | hq
            · rw [hk'.record_eq q (by rw [List.length_set]; exact hp) hnd.1,
                record?_set hp, if_pos rfl]
            · exact hgone q hq

/-- The loop that deletes all nodes, with the heap's size as its fuel. -/
theorem Chain.deleteAll (h : Chain mk H b es none) (hnd : (nodesOf es).Nodup) :
    ∃ H', Lib.deleteFrom next H.length (firstOr es none) H = some H' ∧
      Reworks H es H' ([] : List (Nat × V)) := by
  obtain ⟨H', hd, hlen, hk, hgone⟩ := h.deleteFrom next hnext hnd (h.length_le hnd)
  refine ⟨H', hd, hk, fun p hp => absurd hp (by simp), fun p hp _ => ?_⟩
  rcases hp with hp | hp
  · exact hgone p hp
  · exact record?_of_length_le (hlen ▸ hp)

/-- A loop over one chain whose body appends the value it sees to another.
`S` is the shape of the other one. -/
theorem Chain.copyFrom (S : List (Option N) → σ → List (Nat × V) → Prop)
    (body : List (Option N) → σ → N → Option (List (Option N) × σ))
    (hbody : ∀ H s es b v e, S H s es → ∃ H' s' p, body H s (mk b v e) = some (H', s') ∧
      S H' s' (es ++ [(p, v)]) ∧ Reworks H es H' (es ++ [(p, v)]))
    (h : Chain mk H b fs none) (s : σ) (es : List (Nat × V)) (hS : S H s es)
    (hdis : ∀ p ∈ nodesOf fs, p ∉ nodesOf es) {fuel : Nat} (hfuel : fs.length ≤ fuel) :
    ∃ H' s' gs, forEachFrom next body fuel (firstOr fs none) H s = some (H', s') ∧
      S H' s' (es ++ gs) ∧ gs.map Prod.snd = fs.map Prod.snd ∧
      Reworks H es H' (es ++ gs) := by
  induction fs generalizing H b s es fuel with
  | nil =>
      refine ⟨H, s, [], by cases fuel <;> rfl, ?_, rfl, ?_⟩
      · rwa [List.append_nil]
      · rw [List.append_nil]
        exact Reworks.refl H es
  | cons x fs ih =>
      obtain ⟨p, v⟩ := x
      cases fuel with
      | zero => simp at hfuel
      | succ fuel =>
          obtain ⟨H₁, s₁, q, hb, hS₁, hw₁⟩ := hbody H s es b v (firstOr fs none) hS
          have hp₁ := (hw₁.keeps.record_eq p (lt_of_record? h.1) (hdis p (by simp))).trans h.1
          have htail := h.2.keep hw₁.keeps fun r hr => hdis r (List.mem_cons_of_mem _ hr)
          have hdis₁ : ∀ r ∈ nodesOf fs, r ∉ nodesOf (es ++ [(q, v)]) := by
            intro r hr hmem
            rcases hw₁.owned r hmem with hold | hnew
            · exact hdis r (List.mem_cons_of_mem _ hr) hold
            · exact Nat.not_lt.mpr hnew (h.2.lt r hr)
          obtain ⟨H', s', gs, hrun, hS', hgs, hw'⟩ :=
            ih htail s₁ _ hS₁ hdis₁ (Nat.le_of_succ_le_succ hfuel)
          rw [List.append_assoc] at hS' hw'
          refine ⟨H', s', (q, v) :: gs, ?_, hS', by rw [List.map_cons, hgs]; rfl,
            hw₁.trans hw'⟩
          rw [firstOr_cons, Lib.forEachFrom, h.1]
          simp only [Option.bind_eq_bind, Option.bind_some, hb, hp₁, hnext]
          exact hrun

end

end

end Ycetl.Lib
