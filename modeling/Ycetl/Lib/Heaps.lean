import Mathlib.Logic.Equiv.Basic
import Ycetl.Lib.WeakOrder

/-!
# Binary heaps in a list

A list read level by level is a binary tree: the places below `i` are
`2 * i + 1` and `2 * i + 2`, and the place above it is `parent i`. In a heap no
element is below the one under it, so the first is one that nothing exceeds.

A heap is repaired by exchanges along one path. `UpHeap` is a heap but for the
edge above one place, `DownHeap` is one but for the edges below it. In both the
place above the bad one already tops the places below it, and that is what
keeps the invariant when the bad place moves by an exchange. Nothing is asked
of the order except that it is a strict weak one.
-/

namespace Ycetl.Lib.Heaps

variable {T : Type*} (C : WeakOrder T)

def parent (i : Nat) : Nat := (i - 1) / 2

theorem parent_lt {i : Nat} (h : 0 < i) : parent i < i := by
  unfold parent
  omega

theorem child_cases {i c : Nat} (hc : 0 < c) (h : parent c = i) :
    c = 2 * i + 1 ∨ c = 2 * i + 2 := by
  unfold parent at h
  omega

theorem parent_left (i : Nat) : parent (2 * i + 1) = i := by
  unfold parent
  omega

theorem parent_right (i : Nat) : parent (2 * i + 2) = i := by
  unfold parent
  omega

/-- What is at `p` is not below what is at `i`. -/
def Tops (l : List T) (p i : Nat) : Prop :=
  ∀ a b, l[p]? = some a → l[i]? = some b → C.lt a b = false

/-- No element is below the one under it. -/
def Heap (l : List T) : Prop := ∀ i, 0 < i → Tops C l (parent i) i

/-- A heap, but for the edge above `i`. -/
structure UpHeap (l : List T) (i : Nat) : Prop where
  others : ∀ k, 0 < k → k ≠ i → Tops C l (parent k) k
  above : 0 < i → ∀ k, 0 < k → parent k = i → Tops C l (parent i) k

/-- A heap, but for the edges below `i`. -/
structure DownHeap (l : List T) (i : Nat) : Prop where
  others : ∀ k, 0 < k → parent k ≠ i → Tops C l (parent k) k
  above : 0 < i → ∀ k, 0 < k → parent k = i → Tops C l (parent i) k

variable {C} {l : List T} {i j k p : Nat}

theorem Tops.of_le (h : l.length ≤ i) : Tops C l p i := fun _ _ _ hb => by
  rw [List.getElem?_eq_none h] at hb
  cases hb

theorem Tops.trans (h₁ : Tops C l i j) (h₂ : Tops C l j k) (hj : j < l.length) :
    Tops C l i k := fun a c ha hc =>
  WeakOrder.not_lt_trans (h₂ _ c (List.getElem?_eq_getElem hj) hc)
    (h₁ a _ ha (List.getElem?_eq_getElem hj))

theorem Tops.refl (C : WeakOrder T) (l : List T) (i : Nat) : Tops C l i i := fun a b ha hb => by
  rw [ha, Option.some.injEq] at hb
  rw [hb, C.irrefl]

/-- What is above something that it is below tops it. -/
theorem Tops.of_lt {a b : T} (ha : l[i]? = some a) (hb : l[j]? = some b)
    (h : C.lt a b = true) : Tops C l j i := fun b' a' hb' ha' => by
  rw [hb, Option.some.injEq] at hb'
  rw [ha, Option.some.injEq] at ha'
  rw [← hb', ← ha']
  exact WeakOrder.asymm h

theorem Tops.of_not_lt {a b : T} (ha : l[i]? = some a) (hb : l[j]? = some b)
    (h : C.lt a b = false) : Tops C l i j := fun a' b' ha' hb' => by
  rw [ha, Option.some.injEq] at ha'
  rw [hb, Option.some.injEq] at hb'
  rw [← ha', ← hb', h]

theorem Tops.congr {l' : List T} (hp : l'[p]? = l[i]?) (hk : l'[k]? = l[j]?)
    (h : Tops C l i j) : Tops C l' p k := fun a b ha hb =>
  h a b (hp ▸ ha) (hk ▸ hb)

/-! ## The root -/

theorem Heap.tops_root (h : Heap C l) (i : Nat) : Tops C l 0 i := by
  induction i using Nat.strongRecOn with
  | ind i ih =>
      rcases Nat.eq_zero_or_pos i with rfl | hi
      · exact Tops.refl C l 0
      · rcases Nat.lt_or_ge i l.length with hlt | hge
        · have hp := parent_lt hi
          exact (ih (parent i) hp).trans (h i hi) (Nat.lt_trans hp hlt)
        · exact Tops.of_le hge

/-- The first element of a heap is one that nothing exceeds. -/
theorem Heap.root_max (h : Heap C l) {r : T} (hr : l[0]? = some r) :
    ∀ y ∈ l, C.lt r y = false := fun y hy => by
  obtain ⟨i, hi⟩ := List.mem_iff_getElem?.mp hy
  exact h.tops_root i r y hr hi

theorem heap_nil (C : WeakOrder T) : Heap C ([] : List T) := fun _ _ =>
  Tops.of_le (Nat.zero_le _)

/-! ## Exchanges -/

/-- The elements at two places change places. -/
def exchange (l : List T) (i j : Nat) : List T :=
  match l[i]?, l[j]? with
  | some a, some b => (l.set i b).set j a
  | _, _ => l

theorem exchange_eq (hi : i < l.length) (hj : j < l.length) :
    exchange l i j = (l.set i l[j]).set j l[i] := by
  rw [exchange, List.getElem?_eq_getElem hi, List.getElem?_eq_getElem hj]

theorem length_exchange (hi : i < l.length) (hj : j < l.length) :
    (exchange l i j).length = l.length := by
  rw [exchange_eq hi hj, List.length_set, List.length_set]

theorem exchange_perm (hi : i < l.length) (hj : j < l.length) : (exchange l i j).Perm l := by
  rw [exchange_eq hi hj]
  exact List.set_set_perm hi hj

theorem getElem?_exchange (hi : i < l.length) (hj : j < l.length) (k : Nat) :
    (exchange l i j)[k]? = l[Equiv.swap i j k]? := by
  rw [exchange_eq hi hj]
  by_cases hkj : k = j
  · rw [hkj, Equiv.swap_apply_right, List.getElem?_set_self (by rw [List.length_set]; exact hj),
      List.getElem?_eq_getElem hi]
  · rw [List.getElem?_set_ne fun h => hkj h.symm]
    by_cases hki : k = i
    · rw [hki, Equiv.swap_apply_left, List.getElem?_set_self hi, List.getElem?_eq_getElem hj]
    · rw [List.getElem?_set_ne fun h => hki h.symm, Equiv.swap_apply_of_ne_of_ne hki hkj]

/-- What tops what after an exchange, read off before it. -/
theorem Tops.exchange {i' p' k' : Nat} (hi : i' < l.length) (hj : j < l.length)
    (hp : Equiv.swap i' j p = p') (hk : Equiv.swap i' j k = k') (h : Tops C l p' k') :
    Tops C (Heaps.exchange l i' j) p k :=
  Tops.congr (by rw [getElem?_exchange hi hj, hp]) (by rw [getElem?_exchange hi hj, hk]) h

/-! ## Upwards -/

/-- The bad place moves up when its element exceeds the one above. -/
theorem UpHeap.move (h : UpHeap C l i) (hi0 : 0 < i) (hi : i < l.length)
    (hlt : Tops C l i (parent i)) : UpHeap C (exchange l (parent i) i) (parent i) := by
  have hpi := parent_lt hi0
  have hp := Nat.lt_trans hpi hi
  have hsame : ∀ {x}, x ≠ parent i → x ≠ i → Equiv.swap (parent i) i x = x :=
    Equiv.swap_apply_of_ne_of_ne
  constructor
  · intro k hk0 hkp
    by_cases hki : k = i
    · exact Tops.exchange hp hi (by rw [hki, Equiv.swap_apply_left])
        (by rw [hki, Equiv.swap_apply_right]) hlt
    by_cases hpk : parent k = parent i
    · exact Tops.exchange hp hi (by rw [hpk, Equiv.swap_apply_left]) (hsame hkp hki)
        (hlt.trans (hpk ▸ h.others k hk0 hki) hp)
    by_cases hpki : parent k = i
    · exact Tops.exchange hp hi (by rw [hpki, Equiv.swap_apply_right]) (hsame hkp hki)
        (h.above hi0 k hk0 hpki)
    · exact Tops.exchange hp hi (hsame hpk hpki) (hsame hkp hki) (h.others k hk0 hki)
  · intro hp0 k hk0 hpk
    have hpp := parent_lt hp0
    have hpar := h.others (parent i) hp0 (by omega)
    have hup := hsame (x := parent (parent i)) (by omega) (by omega)
    by_cases hki : k = i
    · exact Tops.exchange hp hi hup (by rw [hki, Equiv.swap_apply_right]) hpar
    · have hkp : k ≠ parent i := fun he => by rw [he] at hpk; omega
      exact Tops.exchange hp hi hup (hsame hkp hki)
        (hpar.trans (hpk ▸ h.others k hk0 hki) hp)

theorem UpHeap.stop (h : UpHeap C l i) (hi : 0 < i → Tops C l (parent i) i) : Heap C l := by
  intro k hk
  by_cases hki : k = i
  · exact hki ▸ hi (hki ▸ hk)
  · exact h.others k hk hki

/-- A new last element. -/
theorem Heap.concat (h : Heap C l) (v : T) : UpHeap C (l ++ [v]) l.length := by
  constructor
  · intro k hk hne
    rcases Nat.lt_or_ge k l.length with hlt | hge
    · have hp := parent_lt hk
      exact Tops.congr (List.getElem?_append_left (by omega)) (List.getElem?_append_left hlt)
        (h k hk)
    · exact Tops.of_le (by rw [List.length_append, List.length_singleton]; omega)
  · intro _ k hk hpk
    have hp := parent_lt hk
    exact Tops.of_le (by rw [List.length_append, List.length_singleton]; omega)

/-! ## Downwards -/

/-- The bad place moves down to a child that exceeds its element, and that
tops the other child. -/
theorem DownHeap.move (h : DownHeap C l i) {b : Nat} (hb0 : 0 < b) (hpb : parent b = i)
    (hb : b < l.length) (hbi : Tops C l b i)
    (hbest : ∀ c, 0 < c → parent c = i → Tops C l b c) : DownHeap C (exchange l b i) b := by
  have hib : i < b := hpb ▸ parent_lt hb0
  have hi := Nat.lt_trans hib hb
  have hsame : ∀ {x}, x ≠ b → x ≠ i → Equiv.swap b i x = x := Equiv.swap_apply_of_ne_of_ne
  constructor
  · intro k hk0 hpk
    by_cases hkb : k = b
    · exact Tops.exchange hb hi (by rw [hkb, hpb, Equiv.swap_apply_right])
        (by rw [hkb, Equiv.swap_apply_left]) hbi
    by_cases hki : k = i
    · have hp := parent_lt hk0
      exact Tops.exchange hb hi (hsame hpk (by omega)) (by rw [hki, Equiv.swap_apply_right])
        (hki ▸ h.above (hki ▸ hk0) b hb0 hpb)
    by_cases hpki : parent k = i
    · exact Tops.exchange hb hi (by rw [hpki, Equiv.swap_apply_right]) (hsame hkb hki)
        (hbest k hk0 hpki)
    · exact Tops.exchange hb hi (hsame hpk hpki) (hsame hkb hki) (h.others k hk0 hpki)
  · intro _ k hk0 hpk
    have hbk : b < k := hpk ▸ parent_lt hk0
    have hkb := h.others k hk0 (by omega)
    exact Tops.exchange hb hi (by rw [hpb, Equiv.swap_apply_right]) (hsame (by omega) (by omega))
      (hpk ▸ hkb)

theorem DownHeap.stop (h : DownHeap C l i)
    (hi : ∀ c, 0 < c → parent c = i → Tops C l i c) : Heap C l := by
  intro k hk
  by_cases hpk : parent k = i
  · rw [hpk]
    exact hi k hk hpk
  · exact h.others k hk hpk

/-! ## Taking the root out -/

/-- The list without its first element, which the last one replaces. -/
def withoutRoot (l : List T) : List T := (exchange l 0 (l.length - 1)).dropLast

theorem withoutRoot_get (h2 : 1 < l.length) {k : Nat} (hk : 0 < k) (hlt : k < l.length - 1) :
    (withoutRoot l)[k]? = l[k]? := by
  rw [withoutRoot, List.getElem?_dropLast,
    if_pos (by rw [length_exchange (by omega) (by omega)]; exact hlt),
    getElem?_exchange (by omega) (by omega),
    Equiv.swap_apply_of_ne_of_ne (by omega) (by omega)]

theorem length_withoutRoot (h2 : 1 < l.length) : (withoutRoot l).length = l.length - 1 := by
  rw [withoutRoot, List.length_dropLast, length_exchange (by omega) (by omega)]

theorem withoutRoot_perm (h2 : 1 < l.length) {r : T} (hr : l[0]? = some r) :
    l.Perm (r :: withoutRoot l) := by
  have h0 : 0 < l.length := by omega
  have hlast : l.length - 1 < l.length := by omega
  have hne : exchange l 0 (l.length - 1) ≠ [] := by
    rw [← List.length_pos_iff, length_exchange h0 hlast]
    exact h0
  have hget : (exchange l 0 (l.length - 1)).getLast hne = r := by
    have hlen := length_exchange h0 hlast
    have hswap := getElem?_exchange h0 hlast (l.length - 1)
    rw [Equiv.swap_apply_right, hr] at hswap
    rw [← Option.some.injEq, ← List.getLast?_eq_some_getLast hne, List.getLast?_eq_getElem?, hlen,
      hswap]
  have hsplit := List.dropLast_concat_getLast hne
  rw [hget] at hsplit
  refine (exchange_perm h0 hlast).symm.trans ?_
  rw [← hsplit]
  exact List.perm_append_singleton r (withoutRoot l)

theorem Heap.withoutRoot (h : Heap C l) (h2 : 1 < l.length) :
    DownHeap C (Heaps.withoutRoot l) 0 := by
  refine ⟨fun k hk hpk => ?_, fun h0 => absurd h0 (Nat.lt_irrefl 0)⟩
  have hp := parent_lt hk
  rcases Nat.lt_or_ge k (l.length - 1) with hlt | hge
  · exact Tops.congr (withoutRoot_get h2 (by omega) (by omega)) (withoutRoot_get h2 hk hlt)
      (h k hk)
  · exact Tops.of_le (by rw [length_withoutRoot h2]; exact hge)

end Ycetl.Lib.Heaps
