import Ycetl.Lib.Pools
import Ycetl.Proofs.BitsetBits

/-!
# `bitset` is a vector of booleans

What the operations do to the legal bits is what the same operations do to a
vector of `N` booleans, one place at a time. The vectors are a machine of their
own, with the calls of the bitsets, and every run of legal calls takes the two
through related states.

All of this rests on one property of `N`: that rounding it up to whole words
stays inside `size_type`. For the 63 largest values of the type it does not,
the storage then is a single word, and already the bit after it is out of
reach.
-/

namespace Ycetl.Ref.Bitset

open Ycetl.Lib

/-! ## Vectors of booleans -/

/-- A vector of `n` booleans under the calls of a bitset. -/
def vectorStep {n : Nat} (t : List (Vector Bool n)) : Op → Option (List (Vector Bool n))
  | .create => some (t ++ [Vector.replicate n false])
  | .createWord v => some (t ++ [Vector.ofFn fun i => v.getLsbD i])
  | .set a i x => onOne t a fun v => if h : i < n then some (v.set i x) else none
  | .setAll a => onOne t a fun _ => some (Vector.replicate n true)
  | .reset a i => onOne t a fun v => if h : i < n then some (v.set i false) else none
  | .resetAll a => onOne t a fun _ => some (Vector.replicate n false)
  | .flip a i => onOne t a fun v => if h : i < n then some (v.set i !v[i]) else none
  | .flipAll a => onOne t a fun v => some (v.map Bool.not)
  | .andAssign a o => onTwo t a o (Vector.zipWith Bool.and)
  | .orAssign a o => onTwo t a o (Vector.zipWith Bool.or)
  | .xorAssign a o => onTwo t a o (Vector.zipWith Bool.xor)
  | .and a o => newOfTwo t a o (Vector.zipWith Bool.and)
  | .or a o => newOfTwo t a o (Vector.zipWith Bool.or)
  | .xor a o => newOfTwo t a o (Vector.zipWith Bool.xor)
  | .complement a => newOfOne t a (Vector.map Bool.not)

variable {N : UInt64}

/-- The legal bits of the bitset are the entries of the vector. -/
def Represents (b : Bitset N) (v : Vector Bool N.toNat) : Prop :=
  ∀ i (h : i < N.toNat), b.test i = some v[i]

/-- The two agree on every legal bit. -/
def Agrees (a b : Bitset N) : Prop := ∀ i < N.toNat, a.test i = b.test i

/-- The laws of Boolean algebra, and of the group that `^` makes, bit by bit. -/
structure PointwiseLaws (N : UInt64) : Prop where
  and_comm : ∀ a b : Bitset N, Agrees (a.and b) (b.and a)
  or_comm : ∀ a b : Bitset N, Agrees (a.or b) (b.or a)
  and_assoc : ∀ a b c : Bitset N, Agrees ((a.and b).and c) (a.and (b.and c))
  or_assoc : ∀ a b c : Bitset N, Agrees ((a.or b).or c) (a.or (b.or c))
  and_or_distrib : ∀ a b c : Bitset N, Agrees (a.and (b.or c)) ((a.and b).or (a.and c))
  or_and_distrib : ∀ a b c : Bitset N, Agrees (a.or (b.and c)) ((a.or b).and (a.or c))
  and_or_self : ∀ a b : Bitset N, Agrees (a.and (a.or b)) a
  or_and_self : ∀ a b : Bitset N, Agrees (a.or (a.and b)) a
  and_complement : ∀ a : Bitset N, Agrees (a.and a.complement) a.resetAll
  or_complement : ∀ a : Bitset N, Agrees (a.or a.complement) a.setAll
  complement_complement : ∀ a : Bitset N, Agrees a.complement.complement a
  complement_and : ∀ a b : Bitset N,
    Agrees (a.and b).complement (a.complement.or b.complement)
  complement_or : ∀ a b : Bitset N,
    Agrees (a.or b).complement (a.complement.and b.complement)
  xor_comm : ∀ a b : Bitset N, Agrees (a.xor b) (b.xor a)
  xor_assoc : ∀ a b c : Bitset N, Agrees ((a.xor b).xor c) (a.xor (b.xor c))
  xor_empty : ∀ a : Bitset N, Agrees (a.xor empty) a
  xor_self : ∀ a : Bitset N, Agrees (a.xor a) empty

/-- Every mutator and every operator acts on the legal bits one by one. -/
structure ActsPointwise (N : UInt64) : Prop where
  set : ∀ (a : Bitset N) (j : Nat) (v : Bool), j < N.toNat → ∃ a', a.set j v = some a' ∧
    ∀ i < N.toNat, ∃ x, a.test i = some x ∧ a'.test i = some (if i = j then v else x)
  reset : ∀ (a : Bitset N) (j : Nat), j < N.toNat → ∃ a', a.reset j = some a' ∧
    ∀ i < N.toNat, ∃ x, a.test i = some x ∧ a'.test i = some (if i = j then false else x)
  flip : ∀ (a : Bitset N) (j : Nat), j < N.toNat → ∃ a', a.flip j = some a' ∧
    ∀ i < N.toNat, ∃ x, a.test i = some x ∧ a'.test i = some (if i = j then !x else x)
  setAll : ∀ (a : Bitset N), ∀ i < N.toNat, a.setAll.test i = some true
  resetAll : ∀ (a : Bitset N), ∀ i < N.toNat, a.resetAll.test i = some false
  negated : ∀ (a : Bitset N), ∀ i < N.toNat, ∃ x, a.test i = some x ∧
    a.flipAll.test i = some (!x) ∧ a.complement.test i = some (!x)
  combined : ∀ (a b : Bitset N), ∀ i < N.toNat, ∃ x y, a.test i = some x ∧ b.test i = some y ∧
    (a.and b).test i = some (x && y) ∧ (a.andAssign b).test i = some (x && y) ∧
    (a.or b).test i = some (x || y) ∧ (a.orAssign b).test i = some (x || y) ∧
    (a.xor b).test i = some (x ^^ y) ∧ (a.xorAssign b).test i = some (x ^^ y)
  ofWord : ∀ (w : BitVec 64), ∀ i < N.toNat,
    (ofWord w : Bitset N).test i = some (if i < 64 then w.getLsbD i else false)
  laws : PointwiseLaws N
  runs : ∀ ops : List Op,
    Along step (fun (s : List (Bitset N)) op => op.Legal N s.length) [] ops →
    ∃ (s : List (Bitset N)) (t : List (Vector Bool N.toNat)),
      runFrom step [] ops = some s ∧ runFrom vectorStep [] ops = some t ∧
        List.Forall₂ Represents s t

/-! ## The laws -/

theorem bit_and (a b : Bitset N) (i : Nat) : (a.and b).bit i = (a.bit i && b.bit i) :=
  bit_andAssign a b i

theorem bit_or (a b : Bitset N) (i : Nat) : (a.or b).bit i = (a.bit i || b.bit i) :=
  bit_orAssign a b i

section

variable (h : Sized N)

include h

theorem bit_xor {i : Nat} (hi : i < N.toNat) (a b : Bitset N) :
    (a.xor b).bit i = (a.bit i ^^ b.bit i) :=
  bit_xorAssign h hi a b

theorem bit_complement {i : Nat} (hi : i < N.toNat) (a : Bitset N) :
    a.complement.bit i = !a.bit i :=
  bit_flipAll h hi a

theorem agrees_of_bit {a b : Bitset N} (hbit : ∀ i < N.toNat, a.bit i = b.bit i) :
    Agrees a b := by
  intro i hi
  rw [test_eq h hi, test_eq h hi, hbit i hi]

theorem pointwise_laws : PointwiseLaws N where
  and_comm a b := agrees_of_bit h fun i _ => by rw [bit_and, bit_and, Bool.and_comm]
  or_comm a b := agrees_of_bit h fun i _ => by rw [bit_or, bit_or, Bool.or_comm]
  and_assoc a b c := agrees_of_bit h fun i _ => by simp only [bit_and, Bool.and_assoc]
  or_assoc a b c := agrees_of_bit h fun i _ => by simp only [bit_or, Bool.or_assoc]
  and_or_distrib a b c := agrees_of_bit h fun i _ => by
    simp only [bit_and, bit_or, Bool.and_or_distrib_left]
  or_and_distrib a b c := agrees_of_bit h fun i _ => by
    simp only [bit_and, bit_or, Bool.or_and_distrib_left]
  and_or_self a b := agrees_of_bit h fun i _ => by
    rw [bit_and, bit_or]
    cases a.bit i <;> rfl
  or_and_self a b := agrees_of_bit h fun i _ => by
    rw [bit_or, bit_and]
    cases a.bit i <;> rfl
  and_complement a := agrees_of_bit h fun i hi => by
    rw [bit_and, bit_complement h hi, Bool.and_not_self, bit_resetAll]
  or_complement a := agrees_of_bit h fun i hi => by
    rw [bit_or, bit_complement h hi, Bool.or_not_self, bit_setAll h hi]
  complement_complement a := agrees_of_bit h fun i hi => by
    rw [bit_complement h hi, bit_complement h hi, Bool.not_not]
  complement_and a b := agrees_of_bit h fun i hi => by
    rw [bit_complement h hi, bit_and, bit_or, bit_complement h hi, bit_complement h hi,
      Bool.not_and]
  complement_or a b := agrees_of_bit h fun i hi => by
    rw [bit_complement h hi, bit_or, bit_and, bit_complement h hi, bit_complement h hi,
      Bool.not_or]
  xor_comm a b := agrees_of_bit h fun i hi => by
    rw [bit_xor h hi, bit_xor h hi, Bool.xor_comm]
  xor_assoc a b c := agrees_of_bit h fun i hi => by
    rw [bit_xor h hi, bit_xor h hi, bit_xor h hi, bit_xor h hi, Bool.xor_assoc]
  xor_empty a := agrees_of_bit h fun i hi => by
    rw [bit_xor h hi, bit_empty, Bool.xor_false]
  xor_self a := agrees_of_bit h fun i hi => by
    rw [bit_xor h hi, Bool.xor_self, bit_empty]

end

/-! ## Bitsets and vectors side by side -/

section

variable {β γ : Type} {R : β → γ → Prop} {s : List β} {t : List γ}

theorem onOne_related (hst : List.Forall₂ R s t) {a : Nat} (ha : a < s.length)
    {f : β → Option β} {g : γ → Option γ}
    (hfg : ∀ b v, R b v → ∃ b' v', f b = some b' ∧ g v = some v' ∧ R b' v') :
    ∃ s' t', onOne s a f = some s' ∧ onOne t a g = some t' ∧ List.Forall₂ R s' t' := by
  obtain ⟨b, v, hb, hv, hR⟩ := forall₂_getElem? hst ha
  obtain ⟨b', v', hf, hg, hR'⟩ := hfg b v hR
  refine ⟨s.set a b', t.set a v', ?_, ?_, forall₂_set hst hR' a⟩
  · rw [onOne, hb, Option.bind_some, hf, Option.map_some]
  · rw [onOne, hv, Option.bind_some, hg, Option.map_some]

theorem onTwo_related (hst : List.Forall₂ R s t) {a o : Nat} (ha : a < s.length)
    (ho : o < s.length) {f : β → β → β} {g : γ → γ → γ}
    (hfg : ∀ b v c w, R b v → R c w → R (f b c) (g v w)) :
    ∃ s' t', onTwo s a o f = some s' ∧ onTwo t a o g = some t' ∧ List.Forall₂ R s' t' := by
  obtain ⟨c, w, hc, hw, hR⟩ := forall₂_getElem? hst ho
  rw [onTwo, onTwo, hc, hw]
  exact onOne_related hst ha fun b v hbv => ⟨_, _, rfl, rfl, hfg b v c w hbv hR⟩

theorem newOfOne_related (hst : List.Forall₂ R s t) {a : Nat} (ha : a < s.length)
    {f : β → β} {g : γ → γ} (hfg : ∀ b v, R b v → R (f b) (g v)) :
    ∃ s' t', newOfOne s a f = some s' ∧ newOfOne t a g = some t' ∧ List.Forall₂ R s' t' := by
  obtain ⟨b, v, hb, hv, hR⟩ := forall₂_getElem? hst ha
  refine ⟨s ++ [f b], t ++ [g v], ?_, ?_, List.rel_append hst (.cons (hfg b v hR) .nil)⟩
  · rw [newOfOne, hb, Option.map_some]
  · rw [newOfOne, hv, Option.map_some]

theorem newOfTwo_related (hst : List.Forall₂ R s t) {a o : Nat} (ha : a < s.length)
    (ho : o < s.length) {f : β → β → β} {g : γ → γ → γ}
    (hfg : ∀ b v c w, R b v → R c w → R (f b c) (g v w)) :
    ∃ s' t', newOfTwo s a o f = some s' ∧ newOfTwo t a o g = some t' ∧
      List.Forall₂ R s' t' := by
  obtain ⟨c, w, hc, hw, hR⟩ := forall₂_getElem? hst ho
  rw [newOfTwo, newOfTwo, hc, hw]
  exact newOfOne_related hst ha fun b v hbv => hfg b v c w hbv hR

end

section

variable (h : Sized N)

include h

theorem represents_iff {b : Bitset N} {v : Vector Bool N.toNat} :
    Represents b v ↔ ∀ i (hi : i < N.toNat), b.bit i = v[i] := by
  refine forall₂_congr fun i hi => ?_
  rw [test_eq h hi, Option.some.injEq]

theorem represents_zipWith {b c r : Bitset N} {v w : Vector Bool N.toNat}
    {g : Bool → Bool → Bool} (hr : ∀ i < N.toNat, r.bit i = g (b.bit i) (c.bit i))
    (hbv : Represents b v) (hcw : Represents c w) : Represents r (Vector.zipWith g v w) := by
  refine (represents_iff h).mpr fun i hi => ?_
  rw [hr i hi, Vector.getElem_zipWith, (represents_iff h).mp hbv i hi,
    (represents_iff h).mp hcw i hi]

/-- A legal call on bitsets and the same call on the vectors. -/
theorem step_related {s : List (Bitset N)} {t : List (Vector Bool N.toNat)} {op : Op}
    (hst : List.Forall₂ Represents s t) (hop : op.Legal N s.length) :
    ∃ s' t', step s op = some s' ∧ vectorStep t op = some t' ∧
      List.Forall₂ Represents s' t' := by
  have hset {b : Bitset N} {v : Vector Bool N.toNat} (hbv : Represents b v) {j : Nat}
      (hj : j < N.toNat) (x : Bool) :
      ∃ b' v', b.set j x = some b' ∧ some (v.set j x) = some v' ∧ Represents b' v' := by
    obtain ⟨b', hb'⟩ := set_isSome h hj b x
    refine ⟨b', _, hb', rfl, (represents_iff h).mpr fun i hi => ?_⟩
    rw [bit_set hb', Vector.getElem_set, (represents_iff h).mp hbv i hi]
    simp only [eq_comm]
  cases op with
  | create =>
      refine ⟨_, _, rfl, rfl, List.rel_append hst (.cons ?_ .nil)⟩
      refine (represents_iff h).mpr fun i hi => ?_
      rw [bit_empty, Vector.getElem_replicate]
  | createWord w =>
      refine ⟨_, _, rfl, rfl, List.rel_append hst (.cons ?_ .nil)⟩
      refine (represents_iff h).mpr fun i hi => ?_
      rw [bit_ofWord h hi, Vector.getElem_ofFn]
  | set a j x =>
      refine onOne_related hst hop.1 fun b v hbv => ?_
      simp only [dif_pos hop.2]
      exact hset hbv hop.2 x
  | setAll a =>
      refine onOne_related hst hop fun b v hbv => ⟨_, _, rfl, rfl, ?_⟩
      refine (represents_iff h).mpr fun i hi => ?_
      rw [bit_setAll h hi, Vector.getElem_replicate]
  | reset a j =>
      refine onOne_related hst hop.1 fun b v hbv => ?_
      simp only [dif_pos hop.2]
      exact hset hbv hop.2 false
  | resetAll a =>
      refine onOne_related hst hop fun b v hbv => ⟨_, _, rfl, rfl, ?_⟩
      refine (represents_iff h).mpr fun i hi => ?_
      rw [bit_resetAll, Vector.getElem_replicate]
  | flip a j =>
      refine onOne_related hst hop.1 fun b v hbv => ?_
      obtain ⟨b', hb'⟩ := flip_isSome h hop.2 b
      have hbv := (represents_iff h).mp hbv
      simp only [dif_pos hop.2]
      refine ⟨b', _, hb', rfl, (represents_iff h).mpr fun i hi => ?_⟩
      rw [bit_flip hb', Vector.getElem_set]
      by_cases hij : i = j
      · subst hij
        rw [if_pos rfl, if_pos rfl, hbv i hi]
      · rw [if_neg hij, if_neg fun hji => hij hji.symm, hbv i hi]
  | flipAll a =>
      refine onOne_related hst hop fun b v hbv => ⟨_, _, rfl, rfl, ?_⟩
      refine (represents_iff h).mpr fun i hi => ?_
      rw [bit_flipAll h hi, Vector.getElem_map, (represents_iff h).mp hbv i hi]
  | andAssign a o =>
      exact onTwo_related hst hop.1 hop.2 fun b v c w =>
        represents_zipWith h fun i _ => bit_andAssign b c i
  | orAssign a o =>
      exact onTwo_related hst hop.1 hop.2 fun b v c w =>
        represents_zipWith h fun i _ => bit_orAssign b c i
  | xorAssign a o =>
      exact onTwo_related hst hop.1 hop.2 fun b v c w =>
        represents_zipWith h fun i hi => bit_xorAssign h hi b c
  | and a o =>
      exact newOfTwo_related hst hop.1 hop.2 fun b v c w =>
        represents_zipWith h fun i _ => bit_and b c i
  | or a o =>
      exact newOfTwo_related hst hop.1 hop.2 fun b v c w =>
        represents_zipWith h fun i _ => bit_or b c i
  | xor a o =>
      exact newOfTwo_related hst hop.1 hop.2 fun b v c w =>
        represents_zipWith h fun i hi => bit_xor h hi b c
  | complement a =>
      refine newOfOne_related hst hop fun b v hbv => (represents_iff h).mpr fun i hi => ?_
      rw [bit_complement h hi, Vector.getElem_map, (represents_iff h).mp hbv i hi]

theorem acts_pointwise_of_sized : ActsPointwise N where
  set a j v hj := by
    obtain ⟨a', ha'⟩ := set_isSome h hj a v
    refine ⟨a', ha', fun i hi => ⟨a.bit i, test_eq h hi a, ?_⟩⟩
    rw [test_eq h hi, bit_set ha']
  reset a j hj := by
    obtain ⟨a', ha'⟩ := set_isSome h hj a false
    refine ⟨a', ha', fun i hi => ⟨a.bit i, test_eq h hi a, ?_⟩⟩
    rw [test_eq h hi, bit_set ha']
  flip a j hj := by
    obtain ⟨a', ha'⟩ := flip_isSome h hj a
    refine ⟨a', ha', fun i hi => ⟨a.bit i, test_eq h hi a, ?_⟩⟩
    rw [test_eq h hi, bit_flip ha']
  setAll a i hi := by rw [test_eq h hi, bit_setAll h hi]
  resetAll a i hi := by rw [test_eq h hi, bit_resetAll]
  negated a i hi := by
    refine ⟨a.bit i, test_eq h hi a, ?_, ?_⟩
    · rw [test_eq h hi, bit_flipAll h hi]
    · rw [test_eq h hi, bit_complement h hi]
  combined a b i hi := by
    refine ⟨a.bit i, b.bit i, test_eq h hi a, test_eq h hi b, ?_, ?_, ?_, ?_, ?_, ?_⟩
    · rw [test_eq h hi, bit_and]
    · rw [test_eq h hi, bit_andAssign]
    · rw [test_eq h hi, bit_or]
    · rw [test_eq h hi, bit_orAssign]
    · rw [test_eq h hi, bit_xor h hi]
    · rw [test_eq h hi, bit_xorAssign h hi]
  ofWord w i hi := by
    rw [test_eq h hi, bit_ofWord h hi]
    split
    · rfl
    · next hge => rw [BitVec.getLsbD_of_ge w i (by omega)]
  laws := pointwise_laws h
  runs ops hops := by
    refine runFrom_related (fun s t op hst hop => ?_) .nil hops
    exact step_related h hst hop

end

/-- The bitsets of `N` bits act bit by bit exactly if rounding `N` up to whole
words does not leave `size_type`. -/
theorem bitset_acts_pointwise (N : UInt64) : ActsPointwise N ↔ N.toNat + 63 < 2 ^ 64 := by
  constructor
  · intro hacts
    by_contra hwrap
    have hset := hacts.setAll empty 64 (by omega)
    rw [test_of_ge _ (by rw [storageCount_of_wrap hwrap])] at hset
    cases hset
  · exact fun h => acts_pointwise_of_sized h

/-- A bitset of the largest size has one word, and bit 64 is not in it. -/
theorem largest_bitset_has_one_word :
    (empty : Bitset 18446744073709551615).test 63 = some false ∧
      (empty : Bitset 18446744073709551615).test 64 = none ∧
      ¬ ActsPointwise 18446744073709551615 := by
  refine ⟨by decide, by decide, fun hacts => ?_⟩
  obtain ⟨x, hx, -⟩ := hacts.negated empty 64 (by decide)
  have : (empty : Bitset 18446744073709551615).test 64 = none := by decide
  rw [this] at hx
  cases hx

end Ycetl.Ref.Bitset
