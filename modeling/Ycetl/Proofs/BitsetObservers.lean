import Ycetl.Proofs.BitsetBits

/-!
# What the observers of a `bitset` see

`count`, `any`, `none`, `all` and `==` read whole words, and so they see the
don't-care bits too. They answer for the legal bits alone as long as no other
bit is set. The operations on whole words that could set one all end in
`clear_tail`; but a bitset of no bits has a word and no last word, so that
there `set()`, `flip()` and `~` leave the word full of ones.
-/

namespace Ycetl.Ref.Bitset

open Ycetl.Lib

variable {N : UInt64}

/-- No bit of the storage outside `0 .. N - 1` is set. -/
def TailClear (b : Bitset N) : Prop := ∀ i, N.toNat ≤ i → b.bit i = false

/-- What the observers of one bitset have to answer. -/
structure Observed (b : Bitset N) : Prop where
  tail : TailClear b
  test : ∀ i < N.toNat, ∃ v, b.test i = some v
  count : b.count = Nat.count (fun i => b.test i = some true) N.toNat
  any : b.any = true ↔ ∃ i < N.toNat, b.test i = some true
  none : b.none = true ↔ ¬ ∃ i < N.toNat, b.test i = some true
  all : b.all = true ↔ ∀ i < N.toNat, b.test i = some true

/-- And so of every bitset of the pool, and `==` of every two of them. -/
def AllObserved (s : List (Bitset N)) : Prop :=
  (∀ b ∈ s, Observed b) ∧
    ∀ a ∈ s, ∀ b ∈ s, a.eq b = true ↔ ∀ i < N.toNat, a.test i = b.test i

/-- The call leaves the tail clear: a size that does not wrap, and on a bitset
of no bits none of the calls that fill whole words. -/
def Op.KeepsTail (N : UInt64) (op : Op) : Prop :=
  N.toNat + 63 < 2 ^ 64 ∧
    (N = 0 → match op with
      | .setAll _ | .flipAll _ | .complement _ => False
      | _ => True)

/-! ## Counting -/

theorem countWord_eq (w : BitVec 64) (c : Nat) : countWord w c = c + popcount w := by
  fun_induction countWord w c with
  | case1 c => rw [popcount_zero, Nat.add_zero]
  | case2 w c hw ih =>
      rw [ih, popcount_clear_lowest hw]
      omega

/-- `count` is the number of bits of the storage that are set, wherever they
are. -/
theorem count_eq (b : Bitset N) :
    b.count = Nat.count (fun i => b.bit i = true) (64 * storageCount N) := by
  rw [Bitset.count]
  simp only [countWord_eq]
  rw [foldl_popcount _ (by omega), Nat.zero_add, b.length_words]
  rfl

/-! ## The observers, once the tail is clear -/

theorem any_iff (b : Bitset N) : b.any = true ↔ ∃ i, b.bit i = true := by
  rw [Bitset.any, List.any_eq_true]
  constructor
  · intro hex
    obtain ⟨x, hx, hne⟩ := hex
    rw [bne_iff_ne] at hne
    obtain ⟨k, hk⟩ := List.getElem?_of_mem hx
    by_contra hnone
    refine hne (BitVec.eq_of_getLsbD_eq fun j hj => ?_)
    have hdiv : (64 * k + j) / 64 = k := by omega
    have hmod : (64 * k + j) % 64 = j := by omega
    have hbit := bit_of_word (b := b) (i := 64 * k + j) (x := x) (by rw [hdiv, hk])
    rw [hmod] at hbit
    rw [BitVec.getLsbD_zero, ← hbit]
    exact eq_false_of_ne_true fun ht => hnone ⟨_, ht⟩
  · intro hex
    obtain ⟨i, hi⟩ := hex
    by_cases hlt : i / 64 < storageCount N
    · obtain ⟨x, hx⟩ := b.word_of_lt hlt
      refine ⟨x, List.mem_of_getElem? hx, bne_iff_ne.mpr ?_⟩
      rintro rfl
      rw [bit_of_word hx, BitVec.getLsbD_zero] at hi
      cases hi
    · rw [bit_of_ge b (by omega)] at hi
      cases hi

/-- Two rows of words with the same bits are the same. -/
theorem words_eq {a b : Bitset N} (h : ∀ i, a.bit i = b.bit i) : a.words = b.words := by
  refine List.ext_getElem? fun k => ?_
  by_cases hk : k < storageCount N
  · obtain ⟨x, hx⟩ := a.word_of_lt hk
    obtain ⟨y, hy⟩ := b.word_of_lt hk
    rw [hx, hy, Option.some.injEq]
    refine BitVec.eq_of_getLsbD_eq fun j hj => ?_
    have hdiv : (64 * k + j) / 64 = k := by omega
    have hmod : (64 * k + j) % 64 = j := by omega
    have hbit := h (64 * k + j)
    rw [bit_of_word (x := x) (by rw [hdiv, hx]), bit_of_word (x := y) (by rw [hdiv, hy]),
      hmod] at hbit
    exact hbit
  · rw [List.getElem?_eq_none (by rw [a.length_words]; omega),
      List.getElem?_eq_none (by rw [b.length_words]; omega)]

theorem eq_iff {a b : Bitset N} : a.eq b = true ↔ ∀ i, a.bit i = b.bit i := by
  have hzip : a.eq b = true ↔ a.words = b.words := by
    rw [Bitset.eq, List.all_eq_true, ← List.forall₂_eq_eq_eq, List.forall₂_iff_zip, a.length_words,
      b.length_words]
    simp
  rw [hzip]
  constructor
  · intro heq i
    rw [bit, bit, heq]
  · exact words_eq

section

variable (h : Sized N) {b : Bitset N} (hb : TailClear b)

include h hb

theorem bit_iff_test (i : Nat) : b.bit i = true ↔ i < N.toNat ∧ b.test i = some true := by
  constructor
  · intro hi
    have hlt : i < N.toNat := by
      by_contra hge
      rw [hb i (by omega)] at hi
      cases hi
    exact ⟨hlt, by rw [test_eq h hlt, hi]⟩
  · intro hex
    obtain ⟨hlt, htest⟩ := hex
    rw [test_eq h hlt, Option.some.injEq] at htest
    exact htest

theorem any_iff_test : b.any = true ↔ ∃ i < N.toNat, b.test i = some true := by
  rw [any_iff]
  exact exists_congr fun i => bit_iff_test h hb i

theorem count_eq_test :
    b.count = Nat.count (fun i => b.test i = some true) N.toNat := by
  rw [count_eq, Nat.count_eq_card_filter_range, Nat.count_eq_card_filter_range]
  congr 1
  ext i
  simp only [Finset.mem_filter, Finset.mem_range, bit_iff_test h hb]
  constructor
  · exact And.right
  · intro hex
    have := h.div_lt hex.1
    exact ⟨by omega, hex⟩

theorem observed_of_tailClear : Observed b where
  tail := hb
  test i hi := ⟨_, test_eq h hi b⟩
  count := count_eq_test h hb
  any := any_iff_test h hb
  none := by
    rw [← any_iff_test h hb, Bitset.none, Bool.not_eq_true', Bool.not_eq_true]
  all := by
    rw [Bitset.all, beq_iff_eq, count_eq_test h hb]
    exact Nat.count_iff_forall

theorem eq_iff_test {a : Bitset N} (ha : TailClear a) :
    a.eq b = true ↔ ∀ i < N.toNat, a.test i = b.test i := by
  rw [eq_iff]
  constructor
  · intro hbit i hi
    rw [test_eq h hi, test_eq h hi, hbit i]
  · intro htest i
    by_cases hi : i < N.toNat
    · have := htest i hi
      rw [test_eq h hi, test_eq h hi, Option.some.injEq] at this
      exact this
    · rw [ha i (by omega), hb i (by omega)]

end

theorem allObserved (h : Sized N) {s : List (Bitset N)} (hs : ∀ b ∈ s, TailClear b) :
    AllObserved s :=
  ⟨fun b hb => observed_of_tailClear h (hs b hb),
    fun a ha b hb => eq_iff_test h (hs b hb) (hs a ha)⟩

/-! ## The tail of the results -/

theorem tailClear_clearTail (h : Sized N) (hN : N ≠ 0) (b : Bitset N) :
    TailClear b.clearTail := by
  intro i hi
  rw [bit_clearTail h hN, decide_eq_false (by omega), Bool.and_false]

theorem tailClear_empty : TailClear (empty : Bitset N) := fun i _ => bit_empty i

theorem tailClear_ofWord (h : Sized N) (v : BitVec 64) : TailClear (ofWord v : Bitset N) := by
  by_cases hN : N = 0
  · subst hN
    exact tailClear_empty
  · exact tailClear_clearTail h hN _

theorem tailClear_set {b b' : Bitset N} (hb : TailClear b) {j : Nat} (hj : j < N.toNat)
    {v : Bool} (h : b.set j v = some b') : TailClear b' := by
  intro i hi
  rw [bit_set h, if_neg (by omega), hb i hi]

theorem tailClear_flip {b b' : Bitset N} (hb : TailClear b) {j : Nat} (hj : j < N.toNat)
    (h : b.flip j = some b') : TailClear b' := by
  intro i hi
  rw [bit_flip h, if_neg (by omega), hb i hi]

theorem tailClear_andAssign {a b : Bitset N} (ha : TailClear a) :
    TailClear (a.andAssign b) := by
  intro i hi
  rw [bit_andAssign, ha i hi, Bool.false_and]

theorem tailClear_orAssign {a b : Bitset N} (ha : TailClear a) (hb : TailClear b) :
    TailClear (a.orAssign b) := by
  intro i hi
  rw [bit_orAssign, ha i hi, hb i hi, Bool.or_false]

theorem tailClear_xorAssign (h : Sized N) {a b : Bitset N} (ha : TailClear a)
    (hb : TailClear b) : TailClear (a.xorAssign b) := by
  by_cases hN : N = 0
  · intro i hi
    rw [xorAssign, clearTail_zero _ hN, bit_zipWords_xor, ha i hi, hb i hi, Bool.xor_false]
  · exact tailClear_clearTail h hN _

/-! ## Pools -/

section

variable {β : Type} {P : β → Prop} {s : List β}

theorem onOne_forall (hs : ∀ b ∈ s, P b) {a : Nat} (ha : a < s.length) {f : β → Option β}
    (hf : ∀ b, P b → ∃ b', f b = some b' ∧ P b') :
    ∃ s', onOne s a f = some s' ∧ ∀ b ∈ s', P b := by
  obtain ⟨b', hb', hP⟩ := hf s[a] (hs _ (List.getElem_mem ha))
  refine ⟨s.set a b', ?_, fun b hb => ?_⟩
  · rw [onOne, List.getElem?_eq_getElem ha, Option.bind_some, hb', Option.map_some]
  · rcases List.mem_or_eq_of_mem_set hb with hmem | heq
    · exact hs b hmem
    · exact heq ▸ hP

theorem onTwo_forall (hs : ∀ b ∈ s, P b) {a o : Nat} (ha : a < s.length) (ho : o < s.length)
    {f : β → β → β} (hf : ∀ b c, P b → P c → P (f b c)) :
    ∃ s', onTwo s a o f = some s' ∧ ∀ b ∈ s', P b := by
  rw [onTwo, List.getElem?_eq_getElem ho, Option.bind_some]
  exact onOne_forall hs ha fun b hb => ⟨_, rfl, hf b _ hb (hs _ (List.getElem_mem ho))⟩

theorem forall_mem_snoc (hs : ∀ b ∈ s, P b) {c : β} (hc : P c) : ∀ b ∈ s ++ [c], P b := by
  intro b hb
  rcases List.mem_append.mp hb with hmem | hmem
  · exact hs b hmem
  · exact List.mem_singleton.mp hmem ▸ hc

theorem newOfOne_forall (hs : ∀ b ∈ s, P b) {a : Nat} (ha : a < s.length) {f : β → β}
    (hf : ∀ b, P b → P (f b)) : ∃ s', newOfOne s a f = some s' ∧ ∀ b ∈ s', P b := by
  refine ⟨s ++ [f s[a]], ?_, forall_mem_snoc hs (hf _ (hs _ (List.getElem_mem ha)))⟩
  rw [newOfOne, List.getElem?_eq_getElem ha, Option.map_some]

theorem newOfTwo_forall (hs : ∀ b ∈ s, P b) {a o : Nat} (ha : a < s.length)
    (ho : o < s.length) {f : β → β → β} (hf : ∀ b c, P b → P c → P (f b c)) :
    ∃ s', newOfTwo s a o f = some s' ∧ ∀ b ∈ s', P b := by
  rw [newOfTwo, List.getElem?_eq_getElem ho, Option.bind_some]
  exact newOfOne_forall hs ha fun b hb => hf b _ hb (hs _ (List.getElem_mem ho))

end

/-! ## Runs -/

/-- A legal call that keeps the tail is defined, and leaves every tail clear. -/
theorem step_tailClear {s : List (Bitset N)} (hs : ∀ b ∈ s, TailClear b) {op : Op}
    (hop : op.Legal N s.length) (hkeeps : op.KeepsTail N) :
    ∃ s', step s op = some s' ∧ ∀ b ∈ s', TailClear b := by
  obtain ⟨h, hzero⟩ := hkeeps
  cases op with
  | create => exact ⟨_, rfl, forall_mem_snoc hs tailClear_empty⟩
  | createWord v => exact ⟨_, rfl, forall_mem_snoc hs (tailClear_ofWord h v)⟩
  | set a j v =>
      refine onOne_forall hs hop.1 fun b hb => ?_
      obtain ⟨b', hb'⟩ := set_isSome h hop.2 b v
      exact ⟨b', hb', tailClear_set hb hop.2 hb'⟩
  | setAll a =>
      exact onOne_forall hs hop fun b hb => ⟨_, rfl, tailClear_clearTail h hzero _⟩
  | reset a j =>
      refine onOne_forall hs hop.1 fun b hb => ?_
      obtain ⟨b', hb'⟩ := set_isSome h hop.2 b false
      exact ⟨b', hb', tailClear_set hb hop.2 hb'⟩
  | resetAll a =>
      exact onOne_forall hs hop fun b hb => ⟨_, rfl, fun i _ => bit_resetAll b i⟩
  | flip a j =>
      refine onOne_forall hs hop.1 fun b hb => ?_
      obtain ⟨b', hb'⟩ := flip_isSome h hop.2 b
      exact ⟨b', hb', tailClear_flip hb hop.2 hb'⟩
  | flipAll a =>
      exact onOne_forall hs hop fun b hb => ⟨_, rfl, tailClear_clearTail h hzero _⟩
  | andAssign a o =>
      exact onTwo_forall hs hop.1 hop.2 fun b c hb _ => tailClear_andAssign hb
  | orAssign a o =>
      exact onTwo_forall hs hop.1 hop.2 fun b c hb hc => tailClear_orAssign hb hc
  | xorAssign a o =>
      exact onTwo_forall hs hop.1 hop.2 fun b c hb hc => tailClear_xorAssign h hb hc
  | and a o =>
      exact newOfTwo_forall hs hop.1 hop.2 fun b c hb _ => tailClear_andAssign hb
  | or a o =>
      exact newOfTwo_forall hs hop.1 hop.2 fun b c hb hc => tailClear_orAssign hb hc
  | xor a o =>
      exact newOfTwo_forall hs hop.1 hop.2 fun b c hb hc => tailClear_xorAssign h hb hc
  | complement a =>
      exact newOfOne_forall hs hop fun b hb => tailClear_clearTail h hzero _

/-- On a bitset of no bits the calls that fill whole words break the tail. -/
theorem bit_filled_zero (b : Bitset N) (hN : N = 0) (hb : TailClear b) :
    b.setAll.bit 0 = true ∧ b.flipAll.bit 0 = true := by
  have h₀ : 0 / 64 < storageCount N := storageCount_pos N
  rw [setAll, flipAll, clearTail_zero _ hN, clearTail_zero _ hN, bit_mapWords_ones b h₀,
    bit_mapWords_not b h₀, hb 0 (by rw [hN]; decide)]
  exact ⟨rfl, rfl⟩

/-- What a call has to leave behind. -/
def StepObserved (s : List (Bitset N)) (op : Op) : Prop :=
  ∃ s', step s op = some s' ∧ AllObserved s'

/-- A size that wraps has no bitset whose bits can all be read. -/
theorem sized_of_test {b : Bitset N} (hb : Observed b) : Sized N := by
  by_contra hwrap
  have hN : 64 < N.toNat := by
    rw [Sized] at hwrap
    omega
  obtain ⟨v, hv⟩ := hb.test 64 hN
  rw [test_of_ge b (by rw [storageCount_of_wrap hwrap])] at hv
  cases hv

theorem mem_of_onOne {β : Type} {s s' : List β} {a : Nat} (ha : a < s.length)
    {f : β → β} (h : onOne s a (fun b => some (f b)) = some s') : f s[a] ∈ s' := by
  rw [onOne, List.getElem?_eq_getElem ha, Option.bind_some, Option.map_some,
    Option.some.injEq] at h
  rw [← h]
  exact List.mem_set ha _

theorem keepsTail_of_observed {s : List (Bitset N)} (hs : ∀ b ∈ s, TailClear b)
    (hsized : Sized N ∨ s = []) {op : Op} (hop : op.Legal N s.length)
    (h : StepObserved s op) : op.KeepsTail N := by
  obtain ⟨s', hs', hobs, -⟩ := h
  have hfilled {b : Bitset N} (hN : N = 0) (hb : b ∈ s') (hbit : b.bit 0 = true) : False := by
    have := (hobs b hb).tail 0 (by rw [hN]; decide)
    rw [this] at hbit
    cases hbit
  refine ⟨?_, fun hN => ?_⟩
  · rcases hsized with hsized | rfl
    · exact hsized
    -- Only a constructor is a call on an empty pool.
    · cases op with
      | create =>
          cases hs'
          exact sized_of_test (hobs empty List.mem_cons_self)
      | createWord v =>
          cases hs'
          exact sized_of_test (hobs (ofWord v) List.mem_cons_self)
      | _ => simp [Op.Legal] at hop
  · cases op with
    | setAll a =>
        exact hfilled hN (mem_of_onOne hop hs')
          (bit_filled_zero _ hN (hs _ (List.getElem_mem hop))).1
    | flipAll a =>
        exact hfilled hN (mem_of_onOne hop hs')
          (bit_filled_zero _ hN (hs _ (List.getElem_mem hop))).2
    | complement a =>
        rw [step, newOfOne, List.getElem?_eq_getElem hop, Option.map_some,
          Option.some.injEq] at hs'
        have hmem : s[a].complement ∈ s' := by
          rw [← hs']
          exact List.mem_append_right _ List.mem_cons_self
        exact hfilled hN hmem (bit_filled_zero _ hN (hs _ (List.getElem_mem hop))).2
    | _ => trivial

/-- Along a run of legal calls the observers answer for the legal bits, and the
other bits stay zero, exactly if no call of the run breaks the tail. -/
theorem observers_see_legal_bits {ops : List Op}
    (hops : Along step (fun (s : List (Bitset N)) op => op.Legal N s.length) [] ops) :
    Along step (fun (s : List (Bitset N)) op => StepObserved s op) [] ops ↔
      ∀ op ∈ ops, op.KeepsTail N := by
  refine along_iff_forall
    (fun s : List (Bitset N) => (∀ b ∈ s, TailClear b) ∧ (Sized N ∨ s = []))
    (fun s op hs hop => ?_) (fun s op hs hop hkeeps => ?_) ⟨by simp, Or.inr rfl⟩ hops
  · constructor
    · exact keepsTail_of_observed hs.1 hs.2 hop
    · intro hkeeps
      obtain ⟨s', hstep, hs'⟩ := step_tailClear hs.1 hop hkeeps
      exact ⟨s', hstep, allObserved hkeeps.1 hs'⟩
  · obtain ⟨s', hstep, hs'⟩ := step_tailClear hs.1 hop hkeeps
    exact ⟨s', hstep, hs', Or.inl hkeeps.1⟩

/-- A bitset of 70 bits, set and complemented. -/
theorem observers_see_legal_bits_seventy :
    Along step (fun (s : List (Bitset 70)) op => StepObserved s op) []
        [.create, .setAll 0, .complement 0, .flip 1 69] ↔
      ∀ op ∈ ([.create, .setAll 0, .complement 0, .flip 1 69] : List Op), op.KeepsTail 70 :=
  observers_see_legal_bits (by decide)

/-- `bitset<0>` after `set()`: no bit, and yet `any()`. -/
theorem empty_bitset_sees_a_bit :
    runFrom step ([] : List (Bitset 0)) [.create, .setAll 0] = some [empty.setAll] ∧
      (empty : Bitset 0).setAll.any = true ∧
      ¬ Observed (empty : Bitset 0).setAll := by
  refine ⟨by decide, by decide, fun hobs => ?_⟩
  obtain ⟨i, hi, -⟩ := hobs.any.mp (by decide)
  exact absurd hi (by simp)

end Ycetl.Ref.Bitset
