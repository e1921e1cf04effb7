import Ycetl.Lib.Refinement
import Ycetl.Lib.Rings
import Ycetl.Ref.Deque

/-!
# A deque is a list pushed and popped at both ends

`Deque.onList` is the data type: a list, and calls that are defined on the
lists the interface allows them on. `Deque.Laid` is the layout of a list on the
ring of a deque. Every call keeps it and answers what the list answers: a push
first makes room, by relaying the list from slot 0 of a larger buffer, and
otherwise each call is one step of the ring.

A queue is the deque behind it, so what it hands out at its pops, followed by
what it still holds, is what was pushed.
-/

namespace Ycetl.Ref

open Ycetl.Lib

namespace Deque

variable {T : Type}

/-- The calls on a list. -/
def onList (l : List T) : Call T → Option (List T × DequeOut T)
  | .pushBack v => some (l ++ [v], .done)
  | .pushFront v => some (v :: l, .done)
  | .popFront => if l = [] then none else some (l.tail, .done)
  | .popBack => if l = [] then none else some (l.dropLast, .done)
  | .clear => some ([], .done)
  | .front => l.head?.map fun v => (l, .elem v)
  | .back => l.getLast?.map fun v => (l, .elem v)
  | .index i => l[i]?.map fun v => (l, .elem v)
  | .assign i v => if i < l.length then some (l.set i v, .done) else none

/-- The deque holds the list on its ring. -/
structure Laid (d : Deque T) (l : List T) : Prop where
  size_eq : d.size = l.length
  ring : Ring d.buf d.head l

namespace Laid

variable {d : Deque T} {l : List T}

theorem empty : Laid (Deque.empty : Deque T) [] := ⟨rfl, .nil id⟩

theorem cap_pos (h : Laid d l) (hl : l ≠ []) : 0 < d.cap := by
  have hfits := h.ring.fits
  have hpos := List.length_pos_iff.mpr hl
  exact Nat.lt_of_lt_of_le hpos hfits

theorem slot_eq (h : Laid d l) {i : Nat} (hi : i < l.length) :
    d.slot i = some ((d.head + i) % d.cap) := by
  have hfits : l.length ≤ d.cap := h.ring.fits
  rw [slot, if_neg (by omega)]

theorem index_eq (h : Laid d l) {i : Nat} (hi : i < l.length) : d.index i = l[i]? := by
  rw [index, h.slot_eq hi]
  exact h.ring.read i hi

theorem front_eq (h : Laid d l) (hl : l ≠ []) : d.front = l.head? := by
  have hpos := List.length_pos_iff.mpr hl
  have hread := h.ring.read 0 hpos
  have hlt := h.ring.head_lt (h.cap_pos hl)
  rw [Nat.add_zero, Nat.mod_eq_of_lt hlt] at hread
  rw [front, hread, List.head?_eq_getElem?]

theorem back_eq (h : Laid d l) (hl : l ≠ []) : d.back = l.getLast? := by
  have hpos := List.length_pos_iff.mpr hl
  have hcap := h.cap_pos hl
  have hread := h.ring.read (l.length - 1) (by omega)
  rw [back, if_neg (by omega), h.size_eq, List.getLast?_eq_getElem?, ← hread,
    show d.head + l.length - 1 = d.head + (l.length - 1) by omega, cap]

/-- An iteration reads the list. -/
theorem iterate_eq (h : Laid d l) : d.iterate = l.map some := by
  apply List.ext_getElem?
  intro i
  rw [iterate, h.size_eq, List.getElem?_map, List.getElem?_map]
  rcases Nat.lt_or_ge i l.length with hi | hi
  · rw [List.getElem?_range hi, Option.map_some, h.index_eq hi, List.getElem?_eq_getElem hi]
    rfl
  · rw [List.getElem?_eq_none (by simpa using hi), List.getElem?_eq_none hi]
    rfl

end Laid

/-! ## Making room -/

/-- The loop of `grow` copies the places it has not come to yet. -/
theorem relay_spec {d : Deque T} {l : List T} (h : Laid d l) (i n : Nat) (fresh : List T)
    (hn : i + n = l.length) (hfits : l.length ≤ fresh.length)
    (hdone : ∀ j, j < i → fresh[j]? = l[j]?) :
    ∃ fresh', d.relay i n fresh = some fresh' ∧ fresh'.length = fresh.length ∧
      ∀ j, j < l.length → fresh'[j]? = l[j]? := by
  induction n generalizing i fresh with
  | zero => exact ⟨fresh, rfl, rfl, fun j hj => hdone j (by omega)⟩
  | succ n ih =>
      have hi : i < l.length := by omega
      have hset : ∀ j, j < i + 1 → (fresh.set i l[i])[j]? = l[j]? := by
        intro j hj
        by_cases hij : i = j
        · rw [← hij, List.getElem?_set_self (by omega), List.getElem?_eq_getElem hi]
        · rw [List.getElem?_set_ne hij]
          exact hdone j (by omega)
      obtain ⟨fresh', hrun, hlen, hread⟩ :=
        ih (i + 1) (fresh.set i l[i]) (by omega) (by simpa using hfits) hset
      refine ⟨fresh', ?_, by simpa using hlen, hread⟩
      rw [relay, h.index_eq hi, List.getElem?_eq_getElem hi]
      show (if i < fresh.length then d.relay (i + 1) n (fresh.set i l[i]) else none) = _
      rw [if_pos (by omega)]
      exact hrun

theorem grow_spec [Inhabited T] {d : Deque T} {l : List T} (h : Laid d l) {newCap : Nat}
    (hcap : l.length ≤ newCap) :
    ∃ d', d.grow newCap = some d' ∧ Laid d' l ∧ d'.cap = newCap := by
  obtain ⟨fresh, hrun, hlen, hread⟩ := relay_spec h 0 d.size
    (List.replicate newCap default) (by rw [h.size_eq, Nat.zero_add])
    (by simpa using hcap) (fun j hj => absurd hj (Nat.not_lt_zero j))
  rw [List.length_replicate] at hlen
  have hfits : l.length ≤ fresh.length := by omega
  refine ⟨⟨fresh, 0, d.size⟩, ?_, ⟨h.size_eq, .linear hfits hread⟩, hlen⟩
  rw [grow, hrun]
  rfl

theorem ensureRoom_spec [Inhabited T] {d : Deque T} {l : List T} (h : Laid d l) :
    ∃ d', d.ensureRoom = some d' ∧ Laid d' l ∧ l.length < d'.cap := by
  have hfits : l.length ≤ d.cap := h.ring.fits
  have hsize := h.size_eq
  rw [ensureRoom]
  split
  · have hcap : l.length < if d.cap = 0 then initialCapacity else d.cap * 2 := by
      rw [initialCapacity]
      split <;> omega
    obtain ⟨d', hd', hlaid, hc⟩ := grow_spec h (Nat.le_of_lt hcap)
    exact ⟨d', hd', hlaid, by rw [hc]; exact hcap⟩
  · exact ⟨d, rfl, h, by omega⟩

theorem write_spec {d : Deque T} {i : Nat} (hi : i < d.buf.length) (v : T) :
    d.write i v = some { d with buf := d.buf.set i v } := by
  rw [write, if_pos hi]

theorem pushBack_spec [Inhabited T] {d : Deque T} {l : List T} (h : Laid d l) (v : T) :
    ∃ d', d.pushBack v = some d' ∧ Laid d' (l ++ [v]) := by
  obtain ⟨e, he, hlaid, hroom⟩ := ensureRoom_spec h
  have htail : e.tailIndex = (e.head + l.length) % e.buf.length := by
    rw [tailIndex, if_neg (by omega), hlaid.size_eq, cap]
  have hlt : e.tailIndex < e.buf.length := by
    rw [htail]
    exact Ring.slot_lt (Nat.lt_of_le_of_lt (Nat.zero_le _) hroom) _
  refine ⟨{ e with buf := e.buf.set e.tailIndex v, size := e.size + 1 }, ?_, ?_⟩
  · rw [pushBack, he]
    show (e.write e.tailIndex v).bind _ = _
    rw [write_spec hlt]
    rfl
  · refine ⟨?_, ?_⟩
    · show e.size + 1 = _
      rw [hlaid.size_eq, List.length_append, List.length_singleton]
    · show Ring (e.buf.set e.tailIndex v) e.head _
      rw [htail]
      exact hlaid.ring.pushBack hroom v

theorem pushFront_spec [Inhabited T] {d : Deque T} {l : List T} (h : Laid d l) (v : T) :
    ∃ d', d.pushFront v = some d' ∧ Laid d' (v :: l) := by
  obtain ⟨e, he, hlaid, hroom⟩ := ensureRoom_spec h
  have hpos : 0 < e.buf.length := Nat.lt_of_le_of_lt (Nat.zero_le _) hroom
  have hlt : (e.head + e.cap - 1) % e.cap < e.buf.length := Nat.mod_lt _ hpos
  refine ⟨⟨e.buf.set ((e.head + e.cap - 1) % e.cap) v, (e.head + e.cap - 1) % e.cap,
    e.size + 1⟩, ?_, ?_⟩
  · have hcap : ¬ e.cap = 0 := by omega
    simp only [pushFront, he, Option.bind_eq_bind, Option.bind_some, if_neg hcap]
    rw [write_spec (d := { e with head := (e.head + e.cap - 1) % e.cap }) hlt]
    rfl
  · refine ⟨?_, hlaid.ring.pushFront hroom v⟩
    show e.size + 1 = _
    rw [hlaid.size_eq, List.length_cons]

/-! ## One call -/

/-- The interface allows a call exactly where it is defined on the list. -/
theorem legal_iff {d : Deque T} {l : List T} (h : Laid d l) (c : Call T) :
    c.Legal d ↔ onList l c ≠ none := by
  have hsize := h.size_eq
  have hpos : 0 < d.size ↔ l ≠ [] := by rw [hsize, List.length_pos_iff]
  cases c with
  | pushBack v => simp [Call.Legal, onList]
  | pushFront v => simp [Call.Legal, onList]
  | popFront => simp [Call.Legal, onList, hpos]
  | popBack => simp [Call.Legal, onList, hpos]
  | clear => simp [Call.Legal, onList]
  | front => simp [Call.Legal, onList, hpos]
  | back => simp [Call.Legal, onList, hpos]
  | index i => simp [Call.Legal, onList, hsize]
  | assign i v => simp [Call.Legal, onList, hsize]

theorem call_agree [Inhabited T] {d : Deque T} {l : List T} (h : Laid d l) {c : Call T}
    (hc : c.Legal d) : Agree Laid (d.call c) (onList l c) := by
  have hsize := h.size_eq
  cases c with
  | pushBack v =>
      obtain ⟨d', hd', hl'⟩ := pushBack_spec h v
      rw [call, hd', onList]
      exact ⟨hl', rfl⟩
  | pushFront v =>
      obtain ⟨d', hd', hl'⟩ := pushFront_spec h v
      rw [call, hd', onList]
      exact ⟨hl', rfl⟩
  | popFront =>
      cases l with
      | nil => exact absurd rfl ((legal_iff h _).mp hc)
      | cons v l =>
          have hcap := h.cap_pos (List.cons_ne_nil v l)
          rw [List.length_cons] at hsize
          rw [onList, if_neg (List.cons_ne_nil v l), call, popFront, slot, if_neg (by omega)]
          refine ⟨⟨?_, h.ring.popFront⟩, rfl⟩
          show d.size - 1 = l.length
          omega
  | popBack =>
      have hl : l ≠ [] := List.length_pos_iff.mp (hsize ▸ hc)
      rw [onList, if_neg hl]
      refine ⟨⟨?_, h.ring.popBack⟩, rfl⟩
      show d.size - 1 = l.dropLast.length
      rw [List.length_dropLast, hsize]
  | clear => exact ⟨⟨rfl, .nil id⟩, rfl⟩
  | front =>
      have hl : l ≠ [] := List.length_pos_iff.mp (hsize ▸ hc)
      rw [onList, call, h.front_eq hl, List.head?_eq_some_head hl]
      exact ⟨h, rfl⟩
  | back =>
      have hl : l ≠ [] := List.length_pos_iff.mp (hsize ▸ hc)
      rw [onList, call, h.back_eq hl, List.getLast?_eq_some_getLast hl]
      exact ⟨h, rfl⟩
  | index i =>
      have hi : i < l.length := hsize ▸ hc
      rw [onList, call, h.index_eq hi, List.getElem?_eq_getElem hi]
      exact ⟨h, rfl⟩
  | assign i v =>
      have hi : i < l.length := hsize ▸ hc
      have hfits := h.ring.fits
      have hpos : 0 < d.buf.length := by omega
      rw [onList, if_pos hi, call, h.slot_eq hi]
      have hlt : (d.head + i) % d.cap < d.buf.length := Ring.slot_lt hpos i
      rw [Option.bind_eq_bind, Option.bind_some, write_spec hlt]
      refine ⟨⟨?_, h.ring.set hi v⟩, rfl⟩
      rw [List.length_set]
      exact hsize

/-- Every call keeps the layout and answers what the list answers. -/
theorem step_agree [Inhabited T] {d : Deque T} {l : List T} (h : Laid d l) (c : Call T) :
    Agree Laid (d.step c) (onList l c) := by
  rw [step]
  split
  next hc => exact call_agree h hc
  next hc =>
    rw [not_not.mp (mt (legal_iff h c).mpr hc)]
    exact agree_none

/-- What a deque shows of the list it holds: the two bounds of the ring, the
size, the element at every place, the two ends, and what an iteration reads. -/
structure Shows (d : Deque T) (l : List T) : Prop where
  size_le_cap : d.size ≤ d.cap
  head_lt_cap : 0 < d.cap → d.head < d.cap
  size_eq : d.size = l.length
  index_eq : ∀ i, i < l.length → d.index i = l[i]?
  front_eq : l ≠ [] → d.front = l.head?
  back_eq : l ≠ [] → d.back = l.getLast?
  iterate_eq : d.iterate = l.map some

theorem Laid.shows {d : Deque T} {l : List T} (h : Laid d l) : Shows d l where
  size_le_cap := h.size_eq ▸ h.ring.fits
  head_lt_cap := h.ring.head_lt
  size_eq := h.size_eq
  index_eq := fun _ hi => h.index_eq hi
  front_eq := h.front_eq
  back_eq := h.back_eq
  iterate_eq := h.iterate_eq

end Deque

/-! ## `queue` -/

namespace Queue

variable {T : Type}

/-- The calls on the list behind a queue. -/
def onList (l : List T) (c : Call T) : Option (List T × DequeOut T) :=
  Deque.onList l c.onContainer

theorem step_agree [Inhabited T] {q : Queue T} {l : List T} (h : Deque.Laid q.c l)
    (c : Call T) : Agree (fun q l => Deque.Laid q.c l) (q.step c) (onList l c) := by
  have hc := Deque.step_agree h c.onContainer
  rw [step, onList]
  cases hd : q.c.step c.onContainer with
  | none =>
      rw [hd] at hc
      cases hl : Deque.onList l c.onContainer with
      | none => exact agree_none
      | some r =>
          rw [hl] at hc
          exact hc.elim
  | some r =>
      rw [hd] at hc
      obtain ⟨l', hl', hr⟩ := hc.of_some_left
      rw [hl']
      exact ⟨hr, rfl⟩

/-- A call of the queue's own, not one on the container it hands out. -/
def Call.Own : Call T → Prop
  | .container _ => False
  | _ => True

/-- The value a call pushes. -/
def Call.pushed? : Call T → Option T
  | .push v => some v
  | .emplace v => some v
  | _ => none

/-- A pop delivers the front there was. -/
def Call.delivers (front : Option T) : Call T → List T
  | .pop => front.toList
  | _ => []

/-- What a run delivers: the front of the queue at each of its pops. -/
def delivered [Inhabited T] : Queue T → List (Call T) → List T
  | _, [] => []
  | q, c :: cs =>
      c.delivers q.c.front ++
        match q.step c with
        | some r => delivered r.1 cs
        | none => []

/-- One call of the queue's own: what is pushed goes behind what is held, and
what is delivered is taken from its front. -/
theorem onList_own {l l' : List T} {c : Call T} {out : DequeOut T} (hc : c.Own)
    (h : onList l c = some (l', out)) :
    l ++ c.pushed?.toList = c.delivers l.head? ++ l' := by
  cases c with
  | push v =>
      have hl : l ++ [v] = l' := congrArg Prod.fst (Option.some.inj h)
      simp [Call.pushed?, Call.delivers, hl]
  | emplace v =>
      have hl : l ++ [v] = l' := congrArg Prod.fst (Option.some.inj h)
      simp [Call.pushed?, Call.delivers, hl]
  | pop =>
      rw [onList, Call.onContainer, Deque.onList] at h
      cases l with
      | nil => cases h
      | cons v l =>
          have hl : l = l' := congrArg Prod.fst (Option.some.inj h)
          simp [Call.pushed?, Call.delivers, hl]
  | front =>
      obtain ⟨v, -, hv⟩ := Option.map_eq_some_iff.mp h
      have hl : l = l' := congrArg Prod.fst hv
      simp [Call.pushed?, Call.delivers, hl]
  | back =>
      obtain ⟨v, -, hv⟩ := Option.map_eq_some_iff.mp h
      have hl : l = l' := congrArg Prod.fst hv
      simp [Call.pushed?, Call.delivers, hl]
  | container c => exact hc.elim

/-- First in, first out: what a queue held and was pushed is what it delivers
and still holds, in the same order. -/
theorem delivered_spec [Inhabited T] {q q' : Queue T} {l : List T} {cs : List (Call T)}
    {outs : List (DequeOut T)} (h : Deque.Laid q.c l) (hcs : ∀ c ∈ cs, c.Own)
    (hrun : answersFrom step q cs = some (q', outs)) :
    ∃ l', Deque.Laid q'.c l' ∧ l ++ cs.filterMap Call.pushed? = delivered q cs ++ l' := by
  induction cs generalizing q l outs with
  | nil =>
      have hq : q = q' := congrArg Prod.fst (Option.some.inj hrun)
      exact ⟨l, hq ▸ h, by simp [delivered]⟩
  | cons c cs ih =>
      rw [answersFrom] at hrun
      obtain ⟨r, hr, hrest⟩ := Option.bind_eq_some_iff.mp hrun
      obtain ⟨s, hs, hsq⟩ := Option.map_eq_some_iff.mp hrest
      have hq' : s.1 = q' := congrArg Prod.fst hsq
      have hstep := step_agree h c
      rw [hr] at hstep
      obtain ⟨m, hm, hlaid⟩ := hstep.of_some_left
      have hown := onList_own (hcs c List.mem_cons_self) hm
      obtain ⟨l', hl', hfifo⟩ := ih hlaid (fun d hd => hcs d (List.mem_cons_of_mem c hd))
        (show answersFrom step r.1 cs = some (q', s.2) by rw [hs, ← hq'])
      refine ⟨l', hl', ?_⟩
      have hfront : c.delivers q.c.front = c.delivers l.head? := by
        cases c with
        | pop =>
            cases l with
            | nil => cases hm
            | cons v l => rw [h.front_eq (List.cons_ne_nil v l)]
        | push v => rfl
        | emplace v => rfl
        | front => rfl
        | back => rfl
        | container c => rfl
      have hpushed : (c :: cs).filterMap Call.pushed?
          = c.pushed?.toList ++ cs.filterMap Call.pushed? := by
        rw [List.filterMap_cons]
        cases c.pushed? with
        | none => rfl
        | some v => rfl
      rw [delivered, hr, hfront, hpushed, ← List.append_assoc, hown, List.append_assoc, hfifo,
        List.append_assoc]

end Queue

theorem deque_and_queue_refine_lists {T : Type} [Inhabited T] :
    (∀ calls : List (Deque.Call T), Agree Deque.Shows
      (answersFrom Deque.step Deque.empty calls) (answersFrom Deque.onList [] calls)) ∧
    (∀ calls : List (Queue.Call T), Agree (fun q l => Deque.Shows q.c l)
      (answersFrom Queue.step Queue.empty calls) (answersFrom Queue.onList [] calls)) ∧
    ∀ (calls : List (Queue.Call T)) (q : Queue T) (outs : List (DequeOut T)),
      (∀ c ∈ calls, c.Own) → answersFrom Queue.step Queue.empty calls = some (q, outs) →
      ∃ l, Deque.Shows q.c l ∧
        calls.filterMap Queue.Call.pushed? = Queue.delivered Queue.empty calls ++ l := by
  refine ⟨fun calls => ?_, fun calls => ?_, fun calls q outs hown hrun => ?_⟩
  · exact (answersFrom_agree (fun _ _ c h => Deque.step_agree h c) Deque.Laid.empty calls).mono
      fun _ _ h => h.shows
  · exact (answersFrom_agree (fun _ _ c h => Queue.step_agree h c)
      (show Deque.Laid (Queue.empty : Queue T).c [] from Deque.Laid.empty) calls).mono
      fun _ _ h => h.shows
  · obtain ⟨l, hl, hfifo⟩ := Queue.delivered_spec
      (show Deque.Laid (Queue.empty : Queue T).c [] from Deque.Laid.empty) hown hrun
    exact ⟨l, hl.shows, hfifo⟩

/-- A queue that wraps: eight values in, seven out, and two more in. -/
theorem queue_delivers_in_order :
    ∃ l, Deque.Shows (⟨⟨[9, 10, 3, 4, 5, 6, 7, 8], 7, 3⟩⟩ : Queue Nat).c l ∧
      ([.push 1, .push 2, .push 3, .push 4, .push 5, .push 6, .push 7, .push 8, .pop, .pop,
        .pop, .pop, .pop, .pop, .pop, .emplace 9, .push 10] :
          List (Queue.Call Nat)).filterMap Queue.Call.pushed?
        = Queue.delivered Queue.empty [.push 1, .push 2, .push 3, .push 4, .push 5, .push 6,
            .push 7, .push 8, .pop, .pop, .pop, .pop, .pop, .pop, .pop, .emplace 9, .push 10]
          ++ l :=
  deque_and_queue_refine_lists.2.2 _ _ (List.replicate 17 .done)
    (by simp [Queue.Call.Own]) (by decide)

end Ycetl.Ref
