import Mathlib.Data.List.InsertIdx
import Ycetl.Lib.Refinement
import Ycetl.Proofs.DynamicArrayWorld

/-!
# Arrays are lists

With a memory that grants every request, a program over `dynamic_array`s goes
as one over lists: `onSeq` is the list a call leaves and the position it
returns, where the interface allows the call. Each step of the arrays keeps
them placed and answers what the lists answer, with one exception: an empty
range that is erased before the end has the loop construct every element behind
it from itself, and where a move changes its source their values are gone.

What the lists do not show is said of each step of its own: every slot it
writes is in the buffer the array has before it or in the one it has after it,
and no capacity shrinks but that of an array which gives its buffer up.
-/

namespace Ycetl.Ref.DynamicArray

open Ycetl.Lib Ycetl.Lib.Store

variable {T : Type} {s s' : Store T} {a a' : Arr}

/-! ## Where the loops write -/

section

variable {P : Nat → Prop}

theorem upLoop_worksIn {body : Nat → Store T → Store T} {lo n : Nat}
    (h : ∀ i s, lo ≤ i → i < lo + n → WritesIn P s (body i s)) :
    WorksIn P s (upLoop body lo n s) :=
  upLoop_inv body (fun _ s' => WorksIn P s s') lo n .refl fun i s' hlo hhi hs =>
    hs.tail (h i s' hlo hhi)

theorem constructN_worksIn {p n : Nat} (hP : ∀ q, p ≤ q → q < p + n → P q) (v : T) :
    WorksIn P s (constructN s p n (.value v)) := by
  apply upLoop_worksIn
  intro i s _ hi
  exact .construct _ _ (hP _ (by omega) (by omega)) (by simp [Src.moved])

theorem copyConstructN_worksIn {p n dest : Nat} (hP : ∀ q, dest ≤ q → q < dest + n → P q) :
    WorksIn P s (copyConstructN s p n dest) := by
  apply upLoop_worksIn
  intro i s _ hi
  exact .construct _ _ (hP _ (by omega) (by omega)) (by simp [Src.moved])

theorem copyConstructList_worksIn {vs : List T} {dest : Nat}
    (hP : ∀ q, dest ≤ q → q < dest + vs.length → P q) :
    WorksIn P s (copyConstructList s vs dest) := by
  induction vs generalizing s dest with
  | nil => exact .refl
  | cons v vs ih =>
      rw [List.length_cons] at hP
      have hfirst : WritesIn P s (s.constructAt dest (.value v)) :=
        .construct _ _ (hP _ (by omega) (by omega)) (by simp [Src.moved])
      exact hfirst.worksIn.trans (ih fun q hlo hhi => hP q (by omega) (by omega))

theorem destroyRange_worksIn {first last : Nat} (hle : first ≤ last)
    (hP : ∀ q, a.data ≤ q → q < a.data + last → P q) :
    WorksIn P s (destroyRange s a first last) := by
  apply upLoop_worksIn
  intro i s _ hi
  exact .destroy _ (hP _ (by omega) (by omega))

theorem moved_eq {p q : Nat} (h : (Src.move p : Src T).moved = some q) : q = p := by
  rw [Src.moved, Option.some.injEq] at h
  exact h.symm

theorem shiftUp_worksIn {idx : Nat} (hP : ∀ q, a.data ≤ q → q ≤ a.data + a.size → P q) :
    WorksIn P s (shiftUp s a idx) := by
  refine downLoop_inv _ (fun _ s' => WorksIn P s s') (Nat.sub_le a.size idx) .refl ?_
  intro i s' hlo hi hs
  have hsrc : ∀ q, (Src.move (a.data + (i - 1)) : Src T).moved = some q → P q := by
    intro q hq
    rw [moved_eq hq]
    exact hP _ (by omega) (by omega)
  split
  · exact hs.tail (.assign _ _ (hP _ (by omega) (by omega)) hsrc)
  · exact hs.tail (.construct _ _ (hP _ (by omega) (by omega)) hsrc)

theorem shiftDown_worksIn {idx n : Nat} (hP : ∀ q, a.data ≤ q → q < a.data + a.size → P q) :
    WorksIn P s (shiftDown s a idx n) := by
  apply upLoop_worksIn
  intro i s _ hi
  refine .construct _ _ (hP _ (by omega) (by omega)) fun q hq => ?_
  rw [moved_eq hq]
  exact hP _ (by omega) (by omega)

end

/-! ## Where the calls write -/

section

variable {alloc : Allocate}

theorem allocate_worksIn {n : Nat} {P : Nat → Prop} (hg : Granted alloc s n) :
    WorksIn P s (allocate alloc s n).2 := by
  rw [allocate, hg]
  split
  · exact .refl
  · exact (WritesIn.bump n).worksIn

/-- `reserve` writes its new slots and destroys the elements in the old ones. -/
theorem reserve_worksIn (h : Fits s a) {n : Nat} (hg : a.capacity < n → Granted alloc s n) :
    WorksIn (fun q => Owns a q ∨ Owns (reserve alloc s a n).2 q) s (reserve alloc s a n).1 := by
  have hsz := h.size_le
  rw [reserve]
  split
  · exact .refl
  · next hn =>
      have hnew := fun P => allocate_worksIn (P := P) (hg (by omega))
      generalize allocate alloc s n = r at hnew ⊢
      obtain ⟨newBuf, s₁⟩ := r
      dsimp only
      have hold : ∀ q, a.data ≤ q → q < a.data + a.size →
          Owns a q ∨ Owns { a with data := newBuf, capacity := n } q :=
        fun q hlo hhi => .inl ⟨hlo, by omega⟩
      refine ((hnew _).trans (upLoop_worksIn ?_)).trans
        (destroyRange_worksIn (Nat.zero_le _) hold)
      intro i s' _ hi
      refine .construct _ _ (.inr ⟨Nat.le_add_right _ _, ?_⟩) fun q hq => ?_
      · exact Nat.add_lt_add_left (show i < n by omega) newBuf
      · rw [moved_eq hq]
        exact hold _ (by omega) (by omega)

theorem inPlaceCall_worksIn [Inhabited T] (h : Fits s a) {c : Call T} (hl : c.Legal a)
    (hroom : HasRoom a c) : WorksIn (Owns a) s (inPlaceCall s a c).1 := by
  have hsz := h.size_le
  have hin : ∀ n ≤ a.capacity, ∀ q, a.data ≤ q → q < a.data + n → Owns a q :=
    fun n hn q hlo hhi => ⟨hlo, by omega⟩
  have hresize : ∀ n ≤ a.capacity, ∀ v : T, WorksIn (Owns a) s
      (if a.size < n then constructN s (a.data + a.size) (n - a.size) (.value v)
        else destroyRange s a n a.size) := by
    intro n hn v
    split
    · exact constructN_worksIn (fun q hlo hhi => hin n hn q (by omega) (by omega)) v
    · exact destroyRange_worksIn (by omega) (hin a.size hsz)
  cases c with
  | reserve n => exact .refl
  | resize n => exact hresize n hroom default
  | resizeWith n v => exact hresize n hroom v
  | pushBack v =>
      have hcap : a.size + 1 ≤ a.capacity := hroom
      exact constructN_worksIn (fun q hlo hhi => hin _ hcap q (by omega) (by omega)) v
  | popBack => exact destroyRange_worksIn (Nat.sub_le _ _) (hin a.size hsz)
  | clear => exact destroyRange_worksIn (Nat.zero_le _) (hin a.size hsz)
  | clearAndDeallocateBuffer => exact destroyRange_worksIn (Nat.zero_le _) (hin a.size hsz)
  | insert pos v =>
      have hcap : a.size + 1 ≤ a.capacity := hroom
      have hpos : pos ≤ a.size := hl
      have hshift : WorksIn (Owns a) s (shiftUp s a pos) :=
        shiftUp_worksIn fun q hlo hhi => hin _ hcap q hlo (by omega)
      exact hshift.tail
        (.construct _ _ (hin _ hcap _ (by omega) (by omega)) (by simp [Src.moved]))
  | erase pos =>
      have hpos : pos < a.size := hl
      exact (destroyRange_worksIn (Nat.le_succ pos) (hin (pos + 1) (by omega))).trans
        (shiftDown_worksIn (hin a.size hsz))
  | eraseRange first last =>
      exact (destroyRange_worksIn hl.1 (hin last (Nat.le_trans hl.2 hsz))).trans
        (shiftDown_worksIn (hin a.size hsz))

/-- A call that has its buffer keeps it, or gives it up. -/
theorem inPlaceCall_buffer [Inhabited T] {c : Call T} (hc : c ≠ .clearAndDeallocateBuffer) :
    (inPlaceCall s a c).2.data = a.data ∧ (inPlaceCall s a c).2.capacity = a.capacity := by
  cases c with
  | clearAndDeallocateBuffer => exact absurd rfl hc
  | _ => exact ⟨rfl, rfl⟩

theorem call_worksIn [Inhabited T] (h : Fits s a) (h0 : 0 < s.offset) {c : Call T}
    (hl : c.Legal a) (hg : Granted alloc s (growthRequest a c)) :
    WorksIn (fun q => Owns a q ∨ Owns (call alloc s a c).2 q) s (call alloc s a c).1 ∧
      (c ≠ .clearAndDeallocateBuffer →
        (call alloc s a c).2.capacity = max a.capacity (growTo a c)) := by
  by_cases hc : c = .clearAndDeallocateBuffer
  · subst hc
    have hin : ∀ q, a.data ≤ q → q < a.data + a.size → Owns a q := fun q hlo hhi =>
      h.owns ⟨hlo, hhi⟩
    exact ⟨(destroyRange_worksIn (Nat.zero_le _) hin).mono fun q hq => .inl hq,
      fun hne => absurd rfl hne⟩
  · obtain ⟨-, hfit, hl', hroom, hcap⟩ := reserve_ready h h0 hl hg rfl
    have hgrow : WorksIn (fun q => Owns a q ∨ Owns (reserve alloc s a (growTo a c)).2 q) s
        (reserve alloc s a (growTo a c)).1 :=
      reserve_worksIn h fun hlt => by rwa [growthRequest, if_pos hlt] at hg
    have hwork := inPlaceCall_worksIn hfit hl' hroom
    obtain ⟨hdata, hcap'⟩ := inPlaceCall_buffer
      (s := (reserve alloc s a (growTo a c)).1) (a := (reserve alloc s a (growTo a c)).2) hc
    rw [call_eq c hl]
    have howns : ∀ q, Owns (reserve alloc s a (growTo a c)).2 q →
        Owns (inPlaceCall (reserve alloc s a (growTo a c)).1
          (reserve alloc s a (growTo a c)).2 c).2 q := by
      intro q hq
      rwa [Owns, hdata, hcap']
    refine ⟨?_, fun _ => hcap'.trans hcap⟩
    exact (hgrow.mono fun q hq => hq.imp_right (howns q)).trans
      (hwork.mono fun q hq => .inr (howns q hq))

theorem construct_worksIn [Inhabited T] {c : Ctor T} (hg : Granted alloc s (requested c)) :
    WorksIn (Owns (construct alloc s c).2) s (construct alloc s c).1 := by
  have hall := fun P => allocate_worksIn (P := P) hg
  cases c with
  | none => exact .refl
  | sized n => exact (hall _).trans (constructN_worksIn (fun _ hlo hhi => ⟨hlo, hhi⟩) default)
  | filled n v => exact (hall _).trans (constructN_worksIn (fun _ hlo hhi => ⟨hlo, hhi⟩) v)
  | range vs => exact (hall _).trans (copyConstructList_worksIn fun _ hlo hhi => ⟨hlo, hhi⟩)

theorem ofCopy_worksIn {b : Arr} (hb : Fits s b) (hg : Granted alloc s b.capacity) :
    WorksIn (Owns (ofCopy alloc s b).2) s (ofCopy alloc s b).1 := by
  have hsz := hb.size_le
  refine (allocate_worksIn hg).trans (copyConstructN_worksIn fun q hlo hhi => ⟨hlo, ?_⟩)
  exact Nat.lt_of_lt_of_le hhi (Nat.add_le_add_left hsz _)

theorem clearAndDeallocateBuffer_worksIn (h : Fits s a) :
    WorksIn (Owns a) s (clearAndDeallocateBuffer s a).1 :=
  destroyRange_worksIn (Nat.zero_le _) fun _ hlo hhi => h.owns ⟨hlo, hhi⟩

end

/-! ## The lists -/

/-- The list a constructor makes. -/
def Ctor.onSeq [Inhabited T] : Ctor T → List T
  | .none => []
  | .sized n => List.replicate n default
  | .filled n v => List.replicate n v
  | .range vs => vs

/-- The list a call leaves, and the position it returns, on the lists the
interface allows it on. -/
def Call.onSeq [Inhabited T] (l : List T) : Call T → Option (List T × Option Nat)
  | .reserve _ => some (l, none)
  | .resize n => some (l.take n ++ List.replicate (n - l.length) default, none)
  | .resizeWith n v => some (l.take n ++ List.replicate (n - l.length) v, none)
  | .pushBack v => some (l ++ [v], some l.length)
  | .popBack => if l = [] then none else some (l.dropLast, none)
  | .clear | .clearAndDeallocateBuffer => some ([], none)
  | .insert pos v => if pos ≤ l.length then some (l.insertIdx pos v, some pos) else none
  | .erase pos => if pos < l.length then some (l.eraseIdx pos, some pos) else none
  | .eraseRange first last =>
      if first ≤ last ∧ last ≤ l.length then
        some (l.take first ++ l.drop last, some first)
      else none

/-- The lists of a program. -/
abbrev Lists (T : Type) : Type := Nat → Option (List T)

namespace Lists

def initial : Lists T := fun _ => none

/-- List `i` takes the elements of list `j`. -/
def moveTo (v : Lists T) (i j : Nat) (l : List T) : Lists T :=
  Function.update (Function.update v j (some [])) i (some l)

/-- What list `i` was does not matter. -/
theorem moveTo_update {v : Lists T} {i j : Nat} (hij : i ≠ j) (o : Option (List T))
    (l : List T) : moveTo (Function.update v i o) i j l = v.moveTo i j l := by
  rw [moveTo, moveTo, Function.update_comm hij, Function.update_idem]

def step [Inhabited T] (v : Lists T) : Op T → Option (Lists T × Option (Option Nat))
  | .construct i c =>
      match v i with
      | none => some (Function.update v i (some c.onSeq), none)
      | some _ => none
  | .copyConstruct i j =>
      match v i, v j with
      | none, some l => some (Function.update v i (some l), none)
      | _, _ => none
  | .moveConstruct i j =>
      match v i, v j with
      | none, some l => some (v.moveTo i j l, none)
      | _, _ => none
  | .moveAssign i j =>
      match v i, v j with
      | some _, some l => if i = j then some (v, none) else some (v.moveTo i j l, none)
      | _, _ => none
  | .call i c =>
      match v i with
      | some l => (c.onSeq l).map fun r => (Function.update v i (some r.1), r.2.map some)
      | none => none
  | .destroy i =>
      match v i with
      | some _ => some (Function.update v i none, none)
      | none => none

end Lists

/-! ## One call -/

section

variable [Inhabited T] {l l' : List T} {out : Option Nat}

omit [Inhabited T] in
theorem position_add {k : Nat} (hk : k ≤ a.size) : position a (a.data + k) = some k := by
  rw [position, if_pos ⟨Nat.le_add_right _ _, Nat.add_le_add_left hk _⟩,
    Nat.add_sub_cancel_left]

/-- The interface allows a call exactly where the list has it. -/
theorem legal_iff_onSeq (hlen : a.size = l.length) (c : Call T) :
    c.Legal a ↔ (c.onSeq l).isSome := by
  cases c with
  | popBack =>
      rw [Call.Legal, Call.onSeq, hlen, List.length_pos_iff]
      split <;> simp_all
  | insert pos v =>
      rw [Call.Legal, Call.onSeq, hlen]
      split <;> simp_all
  | erase pos =>
      rw [Call.Legal, Call.onSeq, hlen]
      split <;> simp_all
  | eraseRange first last =>
      rw [Call.Legal, Call.onSeq, hlen]
      split <;> simp_all
  | _ => exact iff_of_true trivial rfl

/-- The elements that a call shifts go to other slots: it is no erasure of an
empty range with elements behind it. -/
def Call.ShiftsAway (n : Nat) : Call T → Prop
  | .eraseRange first last => first = last → n ≤ last
  | _ => True

/-- Such a call does to elements with a value what it does to the list of
values. -/
theorem onList_of_onSeq {c : Call T} (haway : c.ShiftsAway l.length)
    (h : c.onSeq l = some (l', out)) : onList (l.map some) c = l'.map some := by
  cases c with
  | popBack =>
      rw [Call.onSeq] at h
      split at h
      · cases h
      · cases h
        rw [onList, List.length_map, ← List.map_take, List.dropLast_eq_take]
  | insert pos v =>
      rw [Call.onSeq] at h
      split at h
      · cases h
        rw [onList, List.map_insertIdx]
      · cases h
  | erase pos =>
      rw [Call.onSeq] at h
      split at h
      · cases h
        rw [onList, List.eraseIdx_eq_take_drop_succ, List.map_append, List.map_take,
          List.map_drop]
      · cases h
  | eraseRange first last =>
      rw [Call.onSeq] at h
      split at h
      · cases h
        rw [onList, List.map_append, List.map_take, List.map_drop, movedDown]
        split
        · next heq => rw [List.drop_eq_nil_of_le (by simpa using haway heq), List.map_nil]
        · rfl
      · cases h
  | _ =>
      cases h
      simp [onList]

omit [Inhabited T] in
theorem Call.not_shiftsAway {n : Nat} {c : Call T} (h : ¬ c.ShiftsAway n) :
    ∃ pos < n, c = .eraseRange pos pos := by
  cases c with
  | eraseRange first last =>
      rw [Call.ShiftsAway, Classical.not_imp] at h
      obtain ⟨heq, hlt⟩ := h
      subst heq
      exact ⟨first, by omega, rfl⟩
  | _ => exact absurd trivial h

/-- The element behind an empty range is left without its value. -/
theorem onList_eraseNothing {pos : Nat} (hpos : pos < l.length) (l' : List T) :
    onList (l.map some) (.eraseRange pos pos) ≠ l'.map some := by
  intro hl'
  have hget := congrArg (fun k => k[pos]?) hl'
  have hlen : ((l.map some).take pos).length = pos :=
    List.length_take_of_le (by rw [List.length_map]; exact Nat.le_of_lt hpos)
  dsimp only [onList] at hget
  rw [movedDown, if_pos rfl, List.getElem?_append_right (Nat.le_of_eq hlen), hlen, Nat.sub_self,
    List.getElem?_map, List.getElem?_drop, List.getElem?_map, List.getElem?_map, Nat.add_zero,
    List.getElem?_eq_getElem hpos] at hget
  cases hx : l'[pos]? with
  | none =>
      rw [hx] at hget
      cases hget
  | some x =>
      rw [hx] at hget
      cases hget

/-- The pointer a call returns is at the position the list has. -/
theorem returned_of_onSeq {c : Call T} (h : c.onSeq l = some (l', out))
    (hlen : a.size = l'.length) : (returned a c).map (position a) = out.map some := by
  cases c with
  | pushBack v =>
      cases h
      rw [List.length_append, List.length_singleton] at hlen
      rw [returned, Option.map_some, Option.map_some, position_add (by omega), hlen,
        Nat.add_sub_cancel]
  | popBack =>
      rw [Call.onSeq] at h
      split at h
      · cases h
      · cases h
        rfl
  | insert pos v =>
      rw [Call.onSeq] at h
      split at h
      · next hpos =>
          cases h
          rw [List.length_insertIdx_of_le_length hpos] at hlen
          rw [returned, Option.map_some, Option.map_some, position_add (by omega)]
      · cases h
  | erase pos =>
      rw [Call.onSeq] at h
      split at h
      · next hpos =>
          cases h
          rw [List.length_eraseIdx_of_lt hpos] at hlen
          rw [returned, Option.map_some, Option.map_some, position_add (by omega)]
      · cases h
  | eraseRange first last =>
      rw [Call.onSeq] at h
      split at h
      · next hle =>
          cases h
          rw [List.length_append, List.length_take, List.length_drop] at hlen
          rw [returned, Option.map_some, Option.map_some, position_add (by omega)]
      · cases h
  | _ =>
      cases h
      rfl

theorem built_eq_onSeq (c : Ctor T) : built c = c.onSeq.map some := by
  cases c <;> simp [built, Ctor.onSeq]

end

/-! ## Programs over arrays -/

namespace World

variable {w : World T} {v : Lists T}

/-- Every array holds the list of its number. -/
def Holds (w : World T) (v : Lists T) : Prop :=
  ∀ i, (w.arrays i).map (contents w.store) = (v i).map (List.map some)

theorem Holds.of_some (h : Holds w v) {i : Nat} (hi : w.arrays i = some a) :
    ∃ l, v i = some l ∧ contents w.store a = l.map some := by
  have hv := h i
  rw [hi, Option.map_some, eq_comm, Option.map_eq_some_iff] at hv
  obtain ⟨l, hl, hcon⟩ := hv
  exact ⟨l, hl, hcon.symm⟩

theorem Holds.of_none (h : Holds w v) {i : Nat} (hi : w.arrays i = none) : v i = none := by
  have hv := h i
  rwa [hi, Option.map_none, eq_comm, Option.map_eq_none_iff] at hv

theorem size_eq_length {l : List T} (h : contents s a = l.map some) : a.size = l.length := by
  rw [← length_contents (s := s), h, List.length_map]

/-- One array changes, and its list. -/
theorem Holds.put (h : Holds w v) (hp : Placed w) {i : Nat} {r : Store T × Arr} {l : List T}
    (hk : Kept w (w.put i r) [i]) (hc : contents r.1 r.2 = l.map some) :
    Holds (w.put i r) (Function.update v i (some l)) := by
  intro k
  by_cases hki : k = i
  · rw [hki, put_arrays_self, Function.update_self, Option.map_some, Option.map_some]
    exact congrArg some hc
  · rw [put_arrays_ne hki, Function.update_of_ne hki, ← h k]
    cases hb : w.arrays k with
    | none => rfl
    | some b => exact congrArg some (hk.contents_eq hp (by simpa using hki) hb)

/-- A buffer changes hands, and the list in it. -/
theorem Holds.moved (h : Holds w v) {i j : Nat} {b : Arr} {l : List T}
    (hb : w.arrays j = some b) (hl : v j = some l) :
    Holds ((w.release j).put i (w.store, b)) (v.moveTo i j l) := by
  intro k
  rw [Lists.moveTo]
  by_cases hki : k = i
  · have hv := h j
    rw [hb, hl] at hv
    rw [hki, put_arrays_self, Function.update_self]
    exact hv
  · rw [put_arrays_ne hki, Function.update_of_ne hki]
    by_cases hkj : k = j
    · rw [hkj, release, put_arrays_self, Function.update_self]
      rfl
    · rw [release, put_arrays_ne hkj, Function.update_of_ne hkj]
      exact h k

theorem Holds.drop (h : Holds w v) (i : Nat) :
    Holds ⟨w.store, Function.update w.arrays i none⟩ (Function.update v i none) := by
  intro k
  by_cases hki : k = i
  · simp only [hki, Function.update_self, Option.map_none]
  · simp only [Function.update_of_ne hki]
    exact h k

/-- What is known of a program between two steps. -/
def Same (w : World T) (v : Lists T) : Prop := Placed w ∧ Holds w v

theorem same_initial : Same (initial : World T) Lists.initial :=
  ⟨placed_initial, fun _ => rfl⟩

/-- A call of the program is none that leaves elements in their slots. -/
def ShiftsAway (w : World T) : Op T → Prop
  | .call i c => ∀ a, w.arrays i = some a → c.ShiftsAway a.size
  | _ => True

/-- One step answers what the lists answer. -/
theorem step_agree [Inhabited T] (h : Same w v) {op : Op T} (haway : ShiftsAway w op) :
    Agree Same (answer TypedDynamicMemory.allocate w op) (Lists.step v op) := by
  obtain ⟨hp, hv⟩ := h
  rw [answer]
  cases op with
  | construct i c =>
      rw [step, Lists.step]
      cases hi : w.arrays i with
      | none =>
          have hr := construct_result c (granted_dynamic w.store (requested c))
          obtain ⟨hp', hk⟩ := hp.put (current_of_none hi) hr
          rw [hv.of_none hi]
          exact ⟨⟨hp', hv.put hp hk (hr.contents_eq.trans (built_eq_onSeq c))⟩, rfl⟩
      | some a =>
          obtain ⟨l, hl, -⟩ := hv.of_some hi
          rw [hl]
          exact agree_none
  | copyConstruct i j =>
      rw [step, Lists.step]
      cases hi : w.arrays i with
      | none =>
          cases hj : w.arrays j with
          | none =>
              rw [hv.of_none hi, hv.of_none hj]
              exact agree_none
          | some b =>
              obtain ⟨l, hl, hcon⟩ := hv.of_some hj
              have hr := ofCopy_result (hp.fits j b hj) (granted_dynamic w.store b.capacity)
              obtain ⟨hp', hk⟩ := hp.put (current_of_none hi) hr
              rw [hv.of_none hi, hl]
              exact ⟨⟨hp', hv.put hp hk (hr.contents_eq.trans hcon)⟩, rfl⟩
      | some a =>
          obtain ⟨l, hl, -⟩ := hv.of_some hi
          rw [hl]
          exact agree_none
  | moveConstruct i j =>
      rw [step, Lists.step]
      cases hi : w.arrays i with
      | none =>
          cases hj : w.arrays j with
          | none =>
              rw [hv.of_none hi, hv.of_none hj]
              exact agree_none
          | some b =>
              obtain ⟨l, hl, -⟩ := hv.of_some hj
              have hij : i ≠ j := by
                intro hij
                rw [← hij, hi] at hj
                cases hj
              rw [hv.of_none hi, hl]
              exact ⟨⟨hp.moved hij hj, hv.moved hj hl⟩, rfl⟩
      | some a =>
          obtain ⟨l, hl, -⟩ := hv.of_some hi
          rw [hl]
          exact agree_none
  | moveAssign i j =>
      rw [step, Lists.step]
      cases hi : w.arrays i with
      | none =>
          rw [hv.of_none hi]
          exact agree_none
      | some a =>
          obtain ⟨k, hk, -⟩ := hv.of_some hi
          cases hj : w.arrays j with
          | none =>
              rw [hk, hv.of_none hj]
              exact agree_none
          | some b =>
              obtain ⟨l, hl, -⟩ := hv.of_some hj
              rw [hk, hl]
              by_cases hij : i = j
              · simp only [if_pos hij]
                exact ⟨⟨hp, hv⟩, rfl⟩
              · simp only [if_neg hij]
                have hr := clearAndDeallocateBuffer_result (hp.fits i a hi)
                obtain ⟨hp', hkept⟩ := hp.put (current_of_some hi) hr
                have hv' := hv.put (l := []) hp hkept hr.contents_eq
                have hj' := (put_arrays_ne (Ne.symm hij)
                  ((clearAndDeallocateBuffer w.store a).1, Arr.none)).trans hj
                have hl' := (Function.update_of_ne (Ne.symm hij) (some []) v).trans hl
                refine ⟨⟨hp'.moved hij hj', ?_⟩, rfl⟩
                have hm := hv'.moved (i := i) hj' hl'
                rwa [Lists.moveTo_update hij] at hm
  | call i c =>
      rw [step, Lists.step]
      cases hi : w.arrays i with
      | none =>
          rw [hv.of_none hi]
          exact agree_none
      | some a =>
          obtain ⟨l, hl, hcon⟩ := hv.of_some hi
          have hlegal := legal_iff_onSeq (size_eq_length hcon) c
          rw [hl]
          dsimp only
          cases hc : c.onSeq l with
          | none =>
              rw [hc] at hlegal
              rw [if_neg fun hn => by cases hlegal.mp hn]
              exact agree_none
          | some r =>
              rw [hc] at hlegal
              rw [if_pos (hlegal.mpr rfl)]
              have hr := call_result (hp.fits i a hi) hp.offset_pos (hlegal.mpr rfl)
                (granted_dynamic w.store (growthRequest a c))
              obtain ⟨hp', hk⟩ := hp.put (current_of_some hi) hr
              have hcon' := hr.contents_eq
              rw [hcon, onList_of_onSeq (size_eq_length hcon ▸ haway a hi) hc] at hcon'
              refine ⟨⟨hp', hv.put hp hk hcon'⟩, ?_⟩
              rw [put_arrays_self]
              exact returned_of_onSeq hc (size_eq_length hcon')
  | destroy i =>
      rw [step, Lists.step]
      cases hi : w.arrays i with
      | none =>
          rw [hv.of_none hi]
          exact agree_none
      | some a =>
          obtain ⟨l, hl, -⟩ := hv.of_some hi
          have hr := clearAndDeallocateBuffer_result (hp.fits i a hi)
          obtain ⟨hp', hk⟩ := hp.put (current_of_some hi) hr
          have hpd := hp'.drop i
          have hvd := (hv.put (l := []) hp hk hr.contents_eq).drop i
          rw [World.put, Function.update_idem] at hpd
          rw [World.put, Function.update_idem, Function.update_idem] at hvd
          rw [hl]
          exact ⟨⟨hpd, hvd⟩, rfl⟩

/-- A call that leaves elements in their slots leaves them without values. -/
theorem step_disagree [Inhabited T] (h : Same w v) {op : Op T} (haway : ¬ ShiftsAway w op) :
    ¬ Agree Holds (answer TypedDynamicMemory.allocate w op) (Lists.step v op) := by
  obtain ⟨hp, hv⟩ := h
  cases op with
  | call i c =>
      simp only [ShiftsAway, Classical.not_forall] at haway
      obtain ⟨a, hi, haway⟩ := haway
      obtain ⟨pos, hpos, rfl⟩ := Call.not_shiftsAway haway
      obtain ⟨l, hl, hcon⟩ := hv.of_some hi
      have hlegal : (Call.eraseRange pos pos : Call T).Legal a :=
        ⟨Nat.le_refl pos, Nat.le_of_lt hpos⟩
      have hr := call_result (hp.fits i a hi) hp.offset_pos hlegal
        (granted_dynamic w.store (growthRequest a (.eraseRange pos pos)))
      have hcon' := hr.contents_eq
      rw [hcon] at hcon'
      rw [answer, step, hi]
      dsimp only
      rw [if_pos hlegal]
      intro hagree
      obtain ⟨v', -, hholds⟩ := hagree.of_some_left
      obtain ⟨l', -, hl'⟩ := hholds.of_some (put_arrays_self _)
      exact onList_eraseNothing (size_eq_length hcon ▸ hpos) l' (hcon'.symm.trans hl')
  | _ => exact absurd trivial haway

/-! ## What a step does besides -/

/-- The array a step is made on. -/
def target : Op T → Nat
  | .construct i _ | .copyConstruct i _ | .moveConstruct i _ | .moveAssign i _ | .call i _
  | .destroy i => i

/-- The array that a step moves from. -/
def movedFrom : Op T → Option Nat
  | .moveConstruct _ j => some j
  | .moveAssign i j => if i = j then none else some j
  | _ => none

/-- Array `k` is moved from, or goes through `clear_and_deallocate_buffer`, as
the target of a move assignment does. -/
def GivesUp (k : Nat) : Op T → Prop
  | .moveConstruct _ j => k = j
  | .moveAssign i j => i ≠ j ∧ (k = i ∨ k = j)
  | .call i .clearAndDeallocateBuffer => k = i
  | .destroy i => k = i
  | _ => False

/-- What a step writes are slots below the capacity of its array, before it or
after it; no array loses capacity that does not give its buffer up; an array
that was moved from is empty. -/
structure Careful (w : World T) (op : Op T) (w' : World T) : Prop where
  writes : WorksIn (fun q => Owns (w.current (target op)) q ∨ Owns (w'.current (target op)) q)
    w.store w'.store
  capacity_le : ∀ k a a', w.arrays k = some a → w'.arrays k = some a' → ¬ GivesUp k op →
    a.capacity ≤ a'.capacity
  moved : ∀ j, movedFrom op = some j → w'.arrays j = some Arr.none

theorem put_current_self {i : Nat} (r : Store T × Arr) : (w.put i r).current i = r.2 :=
  current_of_some (put_arrays_self r)

section

variable [Inhabited T] {w' : World T} {op : Op T}

theorem step_writes (hp : Placed w) (h : step TypedDynamicMemory.allocate w op = some w') :
    WorksIn (fun q => Owns (w.current (target op)) q ∨ Owns (w'.current (target op)) q)
      w.store w'.store := by
  cases steps_of_step h with
  | construct hi =>
      rw [target, put_current_self]
      exact (construct_worksIn (granted_dynamic _ _)).mono fun q hq => .inr hq
  | @copyConstruct i j b hi hj =>
      rw [target, put_current_self]
      exact (ofCopy_worksIn (hp.fits j b hj) (granted_dynamic _ _)).mono fun q hq => .inr hq
  | moveConstruct hi hj hij => exact .refl
  | selfAssign hi => exact .refl
  | @moveAssign i j a b hi hj hij =>
      rw [target, current_of_some hi]
      exact (clearAndDeallocateBuffer_worksIn (hp.fits i a hi)).mono fun q hq => .inl hq
  | @call i c a hi hl =>
      rw [target, put_current_self, current_of_some hi]
      exact (call_worksIn (hp.fits i a hi) hp.offset_pos hl (granted_dynamic _ _)).1
  | @destroy i a hi =>
      rw [target, current_of_some hi]
      exact (clearAndDeallocateBuffer_worksIn (hp.fits i a hi)).mono fun q hq => .inl hq

theorem step_capacity_le (hp : Placed w)
    (h : step TypedDynamicMemory.allocate w op = some w') {k : Nat}
    (ha : w.arrays k = some a) (ha' : w'.arrays k = some a') (hk : ¬ GivesUp k op) :
    a.capacity ≤ a'.capacity := by
  obtain ⟨-, hkept, -⟩ := step_placed hp (granted_dynamic _ _) h
  by_cases hkt : k ∈ targets op
  · cases steps_of_step h with
    | construct hi =>
        rw [targets, List.mem_singleton] at hkt
        rw [← hkt, ha] at hi
        cases hi
    | copyConstruct hi hj =>
        rw [targets, List.mem_singleton] at hkt
        rw [← hkt, ha] at hi
        cases hi
    | moveConstruct hi hj hij =>
        rw [targets, List.mem_pair] at hkt
        rcases hkt with hki | hkj
        · rw [← hki, ha] at hi
          cases hi
        · exact absurd hkj hk
    | selfAssign hi =>
        rw [ha] at ha'
        exact Nat.le_of_eq (congrArg Arr.capacity (Option.some.inj ha'))
    | moveAssign hi hj hij =>
        rw [targets, List.mem_pair] at hkt
        exact absurd ⟨hij, hkt⟩ hk
    | @call i c b hi hl =>
        rw [targets, List.mem_singleton] at hkt
        have hc : c ≠ .clearAndDeallocateBuffer := by
          intro hc
          rw [hc] at hk
          exact hk hkt
        rw [← hkt, ha, Option.some.injEq] at hi
        subst hi
        rw [hkt, put_arrays_self, Option.some.injEq] at ha'
        obtain ⟨-, hcap⟩ := call_worksIn (hp.fits k a ha) hp.offset_pos hl (granted_dynamic _ _)
        rw [← ha', hcap hc]
        exact Nat.le_max_left _ _
    | destroy hi =>
        rw [targets, List.mem_singleton] at hkt
        exact absurd hkt hk
  · have hsame := (hkept k hkt a ha).1
    rw [ha', Option.some.injEq] at hsame
    exact Nat.le_of_eq (congrArg Arr.capacity hsame.symm)

theorem step_moved (h : step TypedDynamicMemory.allocate w op = some w') {j : Nat}
    (hj : movedFrom op = some j) : w'.arrays j = some Arr.none := by
  cases steps_of_step h with
  | moveConstruct hi hk hij =>
      rw [movedFrom, Option.some.injEq] at hj
      rw [← hj, put_arrays_ne (Ne.symm hij), release, put_arrays_self]
  | selfAssign hi =>
      rw [movedFrom, if_pos rfl] at hj
      cases hj
  | moveAssign hi hk hij =>
      rw [movedFrom, if_neg hij, Option.some.injEq] at hj
      rw [← hj, put_arrays_ne (Ne.symm hij), release, put_arrays_self]
  | _ => cases hj

end

end World

/-- A run of arrays is defined where it is over lists and returns the same
positions, every array then holds its list; and in every state that it reaches
each array is within its capacity and every further step is careful. -/
def RefinesLists [Inhabited T] (ops : List (Op T)) : Prop :=
  AgreeThroughout World.Holds (World.answer TypedDynamicMemory.allocate) Lists.step
    World.initial Lists.initial ops ∧
  ∀ k w outs,
    answersFrom (World.answer TypedDynamicMemory.allocate) World.initial (ops.take k) =
      some (w, outs) →
    (∀ i a, w.arrays i = some a → a.size ≤ a.capacity) ∧
    ∀ op w', w.step TypedDynamicMemory.allocate op = some w' → World.Careful w op w'

theorem World.stateAfter_answer [Inhabited T] {alloc : Allocate} :
    stateAfter (World.answer alloc : World T → _) = World.step alloc := by
  funext w op
  rw [stateAfter, World.answer, Option.map_map]
  exact congrFun Option.map_id _

/-- With a memory that grants every request, a run of arrays refines the run of
lists if and only if no call of it erases an empty range with elements behind
it. -/
theorem arrays_refine_lists_iff [Inhabited T] (ops : List (Op T)) :
    RefinesLists ops ↔
      Along (World.step TypedDynamicMemory.allocate) World.ShiftsAway World.initial ops := by
  have hagree := agreeThroughout_iff (fun _ _ h => h.2)
    (fun _ _ _ h haway => World.step_agree h haway)
    (fun _ _ _ h haway => World.step_disagree h haway) (World.same_initial (T := T)) ops
  rw [World.stateAfter_answer] at hagree
  refine ⟨fun h => hagree.mp h.1, fun h => ⟨hagree.mpr h, fun k w outs hrun => ?_⟩⟩
  have hstep : ∀ (w : World T) op r, w.Placed →
      World.answer TypedDynamicMemory.allocate w op = some r → r.1.Placed := by
    intro w op r hp hr
    obtain ⟨w', hw', hr'⟩ := Option.map_eq_some_iff.mp hr
    rw [← hr']
    exact (World.step_placed hp (granted_dynamic _ _) hw').1
  have hp : w.Placed := answersFrom_inv hstep World.placed_initial hrun
  refine ⟨fun i a ha => (hp.fits i a ha).size_le, fun op w' h => ⟨?_, ?_, ?_⟩⟩
  · exact World.step_writes hp h
  · exact fun k a a' ha ha' hk => World.step_capacity_le hp h ha ha' hk
  · exact fun j hj => World.step_moved h hj

/-- `a.erase(a.begin() + 1, a.begin() + 1)` on three strings: the second one
has lost its characters. -/
theorem erase_of_nothing_loses_elements :
    ¬ RefinesLists [.construct 0 (.range ["a", "b", "c"]), .call 0 (.eraseRange 1 1)] := by
  intro hex
  obtain ⟨hagree, -⟩ := hex
  obtain ⟨v, hv, hholds⟩ := (hagree 2).of_some_left
  cases hv
  have hget := congrArg (Option.map fun l => l[1]?) (hholds 0)
  cases hget

end Ycetl.Ref.DynamicArray
