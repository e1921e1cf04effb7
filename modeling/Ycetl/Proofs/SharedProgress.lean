import Ycetl.Proofs.SharedRelease

/-!
# A release comes to an end

`Ready` makes sure that a release has a result. Some nodes are kept, and every
count is the number of handles that stay, of the handles that are still to be
released, and of the fields of the nodes that are alive and not kept. A kept
node that is held has a handle that stays, so its count does not become zero.
The depth of the recursion is bounded by the number of nodes that are alive,
because a `delete` begins with making one of them die.
-/

namespace Ycetl.Ref.Shared.Heap

open Ycetl.Lib

variable {C : Type} {K : Counter C} {ok : C → Prop} {obj : Nat → Option Nat} {R : Nat → Nat}
  {B : Finset Nat} {fuel : Nat} {H H₁ H₂ H' : Heap C} {a : Loc} {h v : Handle} {c d n m i : Nat}
  {t : List (Option Nat)}

/-- `R` counts the handles that stay, `B` are the nodes that are kept, and `t`
has what is still to be released. -/
structure Ready (K : Counter C) (ok : C → Prop) (obj : Nat → Option Nat) (R : Nat → Nat)
    (B : Finset Nat) (fuel : Nat) (H : Heap C) (t : List (Option Nat)) : Prop where
  refs_eq : ∀ d, H.refs K d =
    R d + holders t d + ∑ n ∈ H.aliveSet \ B, holders (H.targets n) d
  typed : Typed obj H
  live : ∀ c, obj c = some c → 0 < H.refs K c → H.lifetime? c = some .alive
  ok : ∀ c k, H.counter? c = some k → 0 < K.strong k → ok k
  kept : ∀ n ∈ B, H.lifetime? n = some .alive
  guarded : ∀ n ∈ B, R n = 0 → H.refs K n = 0
  bound : H.aliveSet.card ≤ fuel

theorem Ready.congr (hr : Ready K ok obj R B fuel H t) {t' : List (Option Nat)}
    (ht : ∀ d, holders t' d = holders t d) : Ready K ok obj R B fuel H t' :=
  { hr with refs_eq := fun d => by rw [ht, hr.refs_eq d] }

/-- What is to be released has a count. -/
theorem Ready.refs_pos (hr : Ready K ok obj R B fuel H (some c :: t)) : 0 < H.refs K c := by
  have hpos : 0 < holders (some c :: t) c := List.count_pos_iff.mpr List.mem_cons_self
  rw [hr.refs_eq c]
  omega

/-- The last handle of a kept node is not released. -/
theorem Ready.not_kept (hr : Ready K ok obj R B fuel H (some c :: t)) (hone : H.refs K c = 1) :
    c ∉ B := by
  intro hB
  have hpos : 0 < holders (some c :: t) c := List.count_pos_iff.mpr List.mem_cons_self
  have hsum := hr.refs_eq c
  have hR : R c = 0 := by omega
  rw [hr.guarded c hB hR] at hone
  cases hone

theorem Ready.dec (hr : Ready K ok obj R B fuel H (some c :: t)) {k k' : C}
    (hc : H.counter? c = some k) (hpos : 0 < K.strong k) (hk' : K.strong k' = K.strong k - 1)
    (hok : ok k → ok k') : Ready K ok obj R B fuel (H.setCounter c k') t := by
  have hrefs := refs_of_counter (K := K) hc
  have hset := refs_setCounter (K := K) hc k'
  have hle : ∀ d, (H.setCounter c k').refs K d ≤ H.refs K d := by
    intro d
    rw [hset]
    split
    · next hcd =>
        rw [← hcd]
        omega
    · exact Nat.le_refl _
  refine ⟨fun d => ?_, typed_congr hr.typed (load_setCounter k'),
    fun e he hz => hr.live e he (Nat.lt_of_lt_of_le hz (hle e)), fun e k₁ he hk₁ => ?_, hr.kept,
    fun m hm hR => Nat.le_zero.mp (hr.guarded m hm hR ▸ hle m), hr.bound⟩
  · have hd := hr.refs_eq d
    rw [holders_cons_add, holders_singleton] at hd
    rw [hset]
    show _ = R d + holders t d + ∑ n ∈ H.aliveSet \ B, holders (H.targets n) d
    by_cases hcd : c = d
    · subst hcd
      rw [if_pos rfl] at hd ⊢
      omega
    · rw [if_neg fun he => hcd (Option.some.inj he)] at hd
      rw [if_neg hcd]
      omega
  · rw [counter?_setCounter hc] at he
    split at he
    · cases he
      exact hok (hr.ok c k hc hpos)
    · exact hr.ok e k₁ he hk₁

theorem Ready.dispose (hr : Ready K ok obj R B fuel H t) {k : C} {o : Option C}
    (hc : H.counter? c = some k) (hk : K.strong k = 0) (ho : (o.map K.strong).getD 0 = 0) :
    Ready K ok obj R B fuel (H.putCounter c o) t := by
  have hput : ∀ d, (H.putCounter c o).refs K d = H.refs K d := by
    intro d
    rw [refs_putCounter hc]
    split
    · next hcd => rw [ho, ← hcd, refs_of_counter hc, hk]
    · rfl
  have hnodes := nodes_putCounter (H := H) (c := c) o
  have hlife : ∀ m, (H.putCounter c o).lifetime? m = H.lifetime? m := fun m =>
    lifetime?_congr (by rw [hnodes])
  have hset : (H.putCounter c o).aliveSet = H.aliveSet := aliveSet_congr hlife
  refine ⟨fun d => ?_, typed_congr hr.typed (load_putCounter o), fun e he hz => ?_,
    fun e k₁ he hk₁ => ?_, fun m hm => ?_, fun m hm hR => ?_, ?_⟩
  · rw [hput, hset, hr.refs_eq d]
    rw [Finset.sum_congr rfl fun m _ => by rw [targets_congr (n := m) (by rw [hnodes])]]
  · rw [hlife]
    exact hr.live e he (hput e ▸ hz)
  · rw [counter?_putCounter hc] at he
    split at he
    · rw [he] at ho
      exact absurd ho (Nat.ne_of_gt hk₁)
    · exact hr.ok e k₁ he hk₁
  · rw [hlife]
    exact hr.kept m hm
  · rw [hput]
    exact hr.guarded m hm hR
  · rw [hset]
    exact hr.bound

/-- A write to a place whose holders are not counted with the alive nodes. -/
theorem Ready.stored (hr : Ready K ok obj R B fuel H t) (hs : Stored H a v H')
    (hv : v.counter = none) (ha : ∀ n, a.node = some n → n ∈ B ∨ H.lifetime? n = some .dying) :
    Ready K ok obj R B fuel H' t := by
  have hcounter : ∀ d, H'.counter? d = H.counter? d := fun d => by
    rw [counter?, counter?, hs.counters_eq]
  have hrefs : ∀ d, H'.refs K d = H.refs K d := fun d => refs_congr (hcounter d)
  have hset : H'.aliveSet = H.aliveSet := aliveSet_congr hs.lifetime_eq
  refine ⟨fun d => ?_, typed_stored hr.typed hs hv, fun e he hz => ?_, fun e k₁ he hk₁ => ?_,
    fun m hm => ?_, fun m hm hR => ?_, ?_⟩
  · rw [hrefs, hset, hr.refs_eq d]
    refine congrArg _ (Finset.sum_congr rfl fun m hm => ?_)
    obtain ⟨halive, hmB⟩ := Finset.mem_sdiff.mp hm
    rw [targets_congr (hs.nodes_eq m fun hn => ?_)]
    rcases ha m hn with hB | hdying
    · exact hmB hB
    · rw [mem_aliveSet.mp halive] at hdying
      cases hdying
  · rw [hs.lifetime_eq]
    exact hr.live e he (hrefs e ▸ hz)
  · exact hr.ok e k₁ ((hcounter e).symm.trans he) hk₁
  · rw [hs.lifetime_eq]
    exact hr.kept m hm
  · rw [hrefs]
    exact hr.guarded m hm hR
  · rw [hset]
    exact hr.bound

/-- What makes a `delete` have a result. -/
def DeleteReady (K : Counter C) (ok : C → Prop) (obj : Nat → Option Nat) (R : Nat → Nat)
    (B : Finset Nat) (fuel : Nat) (delete : Heap C → Nat → Option (Heap C)) : Prop :=
  ∀ H n t, Ready K ok obj R B fuel H t → H.lifetime? n = some .alive → n ∉ B →
    H.refs K n = 0 → ∃ H', delete H n = some H' ∧ Ready K ok obj R B fuel H' t

theorem release_ready (hK : K.Lawful ok) (hobj : ∀ c n, obj c = some n → n = c)
    {delete : Heap C → Nat → Option (Heap C)} (hfell : DeleteFells K obj delete)
    (hdel : DeleteReady K ok obj R B fuel delete) (hl : H.load a = some h)
    (hr : Ready K ok obj R B fuel H (h.counter :: t))
    (ha : ∀ n, a.node = some n → n ∈ B ∨ H.lifetime? n = some .dying) :
    ∃ H', release K delete H a = some H' ∧ Ready K ok obj R B fuel H' t := by
  cases hc : h.counter with
  | none =>
      obtain ⟨H', hs⟩ := exists_store hl (K.rest h)
      have hr₁ : Ready K ok obj R B fuel H t := (hc ▸ hr).congr fun d => by
        rw [holders_cons_add, holders_singleton, if_neg (fun he => by cases he), Nat.zero_add]
      refine ⟨H', ?_, hr₁.stored (stored hs) (hK.rest_counter h) ha⟩
      simp only [release, hl, hc, Option.bind_eq_bind, Option.bind_some]
      exact hs
  | some c =>
      rw [hc] at hr
      obtain ⟨k, hk, hkrefs⟩ := counter_of_refs hr.refs_pos
      have hpos : 0 < K.strong k := hkrefs ▸ hr.refs_pos
      obtain ⟨k', hdec, hk', hok⟩ := hK.dec_pos k hpos
      have hr₁ := hr.dec hk hpos hk' hok
      have hl₁ : (H.setCounter c k').load a = some h := (load_setCounter k' a).trans hl
      by_cases hzero : K.strong k' = 0
      · have hz₁ : (H.setCounter c k').refs K c = 0 := by
          rw [refs_setCounter hk, if_pos rfl, hzero]
        -- the object goes, and the place that is released stays
        have hgone : ∃ H₂, deletePtr delete (H.setCounter c k') h.ptr = some H₂ ∧
            Ready K ok obj R B fuel H₂ t ∧ H₂.load a = some h ∧
            H₂.counter? c = some k' ∧ ∀ n, a.node = some n →
              n ∈ B ∨ H₂.lifetime? n = some .dying := by
          rw [hr.typed a h c hl hc]
          cases ho : obj c with
          | none => exact ⟨_, rfl, hr₁, hl₁, by rw [counter?_setCounter hk, if_pos rfl], ha⟩
          | some n =>
              cases hobj c n ho
              have halive := hr.live c ho hr.refs_pos
              have hcB : c ∉ B := hr.not_kept (by omega)
              obtain ⟨H₂, hd, hr₂⟩ := hdel _ c t hr₁ halive hcB hz₁
              obtain ⟨S, -, hf, hframe, -⟩ := hfell _ c H₂ hd hr₁.typed
              have hstay : ∀ n, a.node = some n → n ∉ S := by
                intro n hn hS
                have hdead := hf.dead n hS
                rcases ha n hn with hB | hdying
                · rw [hr₂.kept n hB] at hdead
                  cases hdead
                · have halive := hf.alive n hS
                  rw [show (H.setCounter c k').lifetime? n = H.lifetime? n from rfl, hdying]
                    at halive
                  cases halive
              refine ⟨H₂, hd, hr₂, (hframe.load_eq hstay).trans hl₁, ?_, fun n hn => ?_⟩
              · rw [hf.counter_eq c hz₁, counter?_setCounter hk, if_pos rfl]
              · refine (ha n hn).imp_right fun hdying => ?_
                rw [lifetime?_congr (hframe.nodes_eq n (hstay n hn))]
                exact hdying
        obtain ⟨H₂, hd, hr₂, hl₂, hc₂, ha₂⟩ := hgone
        obtain ⟨o, ho⟩ := hK.dispose_ok k' (hok (hr.ok c k hk hpos))
        have hleft : (o.map K.strong).getD 0 = 0 := by
          cases o with
          | none => rfl
          | some k₂ => exact (hK.strong_dispose k' k₂ ho).trans hzero
        have hl₃ : (H₂.putCounter c o).load a = some h := (load_putCounter o a).trans hl₂
        obtain ⟨H', hs⟩ := exists_store hl₃ .null
        have hlife : ∀ n, (H₂.putCounter c o).lifetime? n = H₂.lifetime? n := fun n =>
          lifetime?_congr (by rw [nodes_putCounter])
        refine ⟨H', ?_, (hr₂.dispose hc₂ hzero hleft).stored (stored hs) rfl fun n hn => ?_⟩
        · simp only [release, releaseLast, hl, hc, hk, hdec, hzero, hd, hl₂, hc₂, ho,
            Option.bind_eq_bind, Option.bind_some, if_pos]
          exact hs
        · rw [hlife]
          exact ha₂ n hn
      · obtain ⟨H', hs⟩ := exists_store hl₁ (K.rest h)
        refine ⟨H', ?_, hr₁.stored (stored hs) (hK.rest_counter h) ha⟩
        simp only [release, hl, hc, hk, hdec, if_neg hzero, Option.bind_eq_bind, Option.bind_some]
        exact hs

theorem destroyFields_ready (hK : K.Lawful ok) (hobj : ∀ c n, obj c = some n → n = c)
    {delete : Heap C → Nat → Option (Heap C)} (hfell : DeleteFells K obj delete)
    (hdel : DeleteReady K ok obj R B fuel delete) (n : Nat) (t : List (Option Nat)) (i : Nat) :
    ∀ H, Ready K ok obj R B fuel H ((H.targets n).take i ++ t) → H.lifetime? n = some .dying →
      i ≤ (H.targets n).length →
      ∃ H', destroyFields K delete n i H = some H' ∧ Ready K ok obj R B fuel H' t := by
  induction i with
  | zero =>
      intro H hr _ _
      exact ⟨H, rfl, hr⟩
  | succ i ih =>
      intro H hr hn hi
      obtain ⟨x, hx, hlife⟩ := Option.map_eq_some_iff.mp hn
      rw [targets_of_node hx, List.length_map] at hi
      have hl : H.load (.field n i) = some x.fields[i] := by
        rw [load_field_of hx (by rw [hlife]; exact fun he => by cases he),
          List.getElem?_eq_getElem hi]
      have htake : (H.targets n).take (i + 1) =
          (H.targets n).take i ++ [x.fields[i].counter] := by
        rw [List.take_add_one, targets_of_node hx, List.getElem?_map,
          List.getElem?_eq_getElem hi]
        rfl
      have hr₁ : Ready K ok obj R B fuel H
          (x.fields[i].counter :: ((H.targets n).take i ++ t)) := by
        refine hr.congr fun d => ?_
        rw [htake, holders_cons_add, List.append_assoc, holders_append_add, holders_append_add,
          holders_append_add]
        omega
      obtain ⟨H₂, hrel, hr₂⟩ := release_ready hK hobj hfell hdel hl hr₁ fun m hm => by
        cases hm
        exact .inr hn
      -- the fields that are still there have not been touched
      obtain ⟨S, h, v, H₁, hl', hf, hframe, -, hl₁, -, hs⟩ :=
        release_fell hK hobj hfell hr.typed hrel
      have hn₁ : H₁.nodes[n]? = H.nodes[n]? := hframe.nodes_eq n (hf.not_mem hl₁ rfl)
      have hst := stored hs
      have htar : H₂.targets n = (H.targets n).set i v.counter := by
        rw [(targets_store hl₁ hs).1, targets_congr hn₁]
      have hn₂ : H₂.lifetime? n = some .dying := by
        rw [hst.lifetime_eq, lifetime?_congr hn₁, hn]
      obtain ⟨H', hd, hr'⟩ := ih H₂ (by rwa [htar, List.take_set_of_le (Nat.le_refl i)]) hn₂
        (by
          rw [htar, List.length_set, targets_of_node hx, List.length_map]
          exact Nat.le_of_lt hi)
      exact ⟨H', by rw [destroyFields, hrel]; exact hd, hr'⟩

theorem aliveSet_setLifetime (hn : H.lifetime? n = some .alive) :
    (H.setLifetime n .dying).aliveSet = H.aliveSet.erase n := by
  ext m
  rw [mem_aliveSet, Finset.mem_erase, mem_aliveSet, lifetime?_setLifetime hn]
  split
  · next hnm =>
      refine iff_of_false (fun he => by cases he) fun he => he.1 hnm.symm
  · next hnm => exact (and_iff_right (Ne.symm hnm)).symm

/-- The node that dies leaves what its fields hold to be released. -/
theorem Ready.dying (hr : Ready K ok obj R B (fuel + 1) H t) (hn : H.lifetime? n = some .alive)
    (hB : n ∉ B) (hz : H.refs K n = 0) :
    Ready K ok obj R B fuel (H.setLifetime n .dying) (H.targets n ++ t) := by
  have hlife := lifetime?_setLifetime hn .dying
  have hmem : n ∈ H.aliveSet \ B := Finset.mem_sdiff.mpr ⟨mem_aliveSet.mpr hn, hB⟩
  have hset := aliveSet_setLifetime hn
  refine ⟨fun d => ?_, typed_congr hr.typed (load_setLifetime hn), fun c hc hpos => ?_, hr.ok,
    fun m hm => ?_, hr.guarded, ?_⟩
  · have hsum : ∑ m ∈ (H.setLifetime n .dying).aliveSet \ B,
        holders ((H.setLifetime n .dying).targets m) d =
        ∑ m ∈ (H.aliveSet \ B).erase n, holders (H.targets m) d := by
      rw [hset, Finset.erase_sdiff_comm]
      exact Finset.sum_congr rfl fun m _ => by rw [targets_setLifetime]
    have hd := hr.refs_eq d
    rw [← Finset.add_sum_erase _ _ hmem] at hd
    rw [hsum, holders_append_add]
    exact hd.trans (by omega)
  · have hcn : n ≠ c := by
      rintro rfl
      exact absurd hz (Nat.ne_of_gt hpos)
    rw [hlife, if_neg hcn]
    exact hr.live c hc hpos
  · have hnm : n ≠ m := fun he => hB (he ▸ hm)
    rw [hlife, if_neg hnm]
    exact hr.kept m hm
  · rw [hset, Finset.card_erase_of_mem (mem_aliveSet.mpr hn)]
    exact Nat.sub_le_of_le_add hr.bound

theorem Ready.dead (hr : Ready K ok obj R B fuel H t) (hn : H.lifetime? n = some .dying) :
    Ready K ok obj R B (fuel + 1) (H.setLifetime n .dead) t := by
  have hlife := lifetime?_setLifetime hn .dead
  have halive : ∀ m, (H.setLifetime n .dead).lifetime? m = some .alive ↔
      H.lifetime? m = some .alive := by
    intro m
    rw [hlife]
    split
    · next hnm =>
        rw [← hnm, hn]
        exact iff_of_false (fun he => by cases he) fun he => by cases he
    · exact Iff.rfl
  have hset : (H.setLifetime n .dead).aliveSet = H.aliveSet := by
    ext m
    rw [mem_aliveSet, mem_aliveSet, halive]
  refine ⟨fun d => ?_, fun b h c hl => hr.typed b h c (load_of_setLifetime_dead hl),
    fun c hc hpos => (halive c).mpr (hr.live c hc hpos), hr.ok,
    fun m hm => (halive m).mpr (hr.kept m hm), hr.guarded, ?_⟩
  · rw [hset]
    refine (hr.refs_eq d).trans (congrArg _ (Finset.sum_congr rfl fun m _ => ?_))
    rw [targets_setLifetime]
  · rw [hset]
    exact Nat.le_succ_of_le hr.bound

theorem deleteNode_ready (hK : K.Lawful ok) (hobj : ∀ c n, obj c = some n → n = c) :
    ∀ fuel, DeleteReady K ok obj R B fuel (deleteNode K fuel) := by
  intro fuel
  induction fuel with
  | zero =>
      intro H n t hr hn _ _
      have hpos := Finset.card_pos.mpr ⟨n, mem_aliveSet.mpr hn⟩
      exact absurd hr.bound (Nat.not_le.mpr hpos)
  | succ fuel ih =>
      intro H n t hr hn hB hz
      obtain ⟨x, hx, halive⟩ := Option.map_eq_some_iff.mp hn
      let H₀ : Heap C := { H.setLifetime n .dying with deleted := H.deleted ++ [n] }
      have hn₀ : H₀.lifetime? n = some .dying :=
        (lifetime?_setLifetime hn .dying n).trans (if_pos rfl)
      have htar : H₀.targets n = H.targets n := targets_setLifetime n .dying n
      have hlen : (H.targets n).length = x.fields.length := by
        rw [targets_of_node hx, List.length_map]
      have hr₀ : Ready K ok obj R B fuel H₀ ((H₀.targets n).take x.fields.length ++ t) := by
        rw [htar, List.take_of_length_le (Nat.le_of_eq hlen)]
        exact { hr.dying hn hB hz with }
      have hfell : DeleteFells K obj (deleteNode K fuel) := deleteNode_fell hK hobj fuel
      obtain ⟨H₁, hd, hr₁⟩ := destroyFields_ready hK hobj hfell ih n t _ H₀ hr₀ hn₀
        (by rw [htar, hlen])
      obtain ⟨-, -, -, -, -, hn₁⟩ := destroyFields_fell hK hobj hfell n _ _ _ hd hr₀.typed hn₀
      refine ⟨H₁.setLifetime n .dead, ?_, hr₁.dead hn₁⟩
      simp only [deleteNode, hx, halive, Option.bind_eq_bind, Option.bind_some, if_pos]
      exact Option.bind_eq_some_iff.mpr ⟨H₁, hd, rfl⟩

end Ycetl.Ref.Shared.Heap
