import Ycetl.Ref.SharedPtr

/-!
# Which handles have which objects

What the calls do to the handles can be said without the heap: a handle has an
object, or none, or is gone. A copy has the object of the original, and so does
the target of an assignment; what is moved from has none; and `lock` answers
with the object of the observer as long as an owner has it.
-/

namespace Ycetl.Ref.Shared

open Ycetl.Lib

/-- The owners and the observers by number, and how many objects were made. -/
structure Holdings where
  strong : List (Option (Option Nat))
  weak : List (Option (Option Nat))
  made : Nat

namespace Holdings

def empty : Holdings := ⟨[], [], 0⟩

def addStrong (s : Holdings) (o : Option (Option Nat)) : Holdings :=
  { s with strong := s.strong ++ [o] }

def addWeak (s : Holdings) (o : Option (Option Nat)) : Holdings :=
  { s with weak := s.weak ++ [o] }

def setStrong (s : Holdings) (i : Nat) (o : Option (Option Nat)) : Holdings :=
  { s with strong := s.strong.set i o }

def setWeak (s : Holdings) (i : Nat) (o : Option (Option Nat)) : Holdings :=
  { s with weak := s.weak.set i o }

/-- The object of an observer, if an owner has it. -/
def locked (s : Holdings) (i : Nat) : Option Nat :=
  (record? s.weak i).join.filter fun n => s.strong.contains (some (some n))

def step (s : Holdings) : World.Op → Holdings
  | .make => { s.addStrong (some (some s.made)) with made := s.made + 1 }
  | .empty => s.addStrong (some none)
  | .copy i => s.addStrong (record? s.strong i)
  | .move i => (s.setStrong i (some none)).addStrong (record? s.strong i)
  | .assign i j => s.setStrong i (record? s.strong j)
  | .moveAssign i j =>
      if i = j then s else (s.setStrong i (record? s.strong j)).setStrong j (some none)
  | .destroy i => s.setStrong i none
  | .weakEmpty => s.addWeak (some none)
  | .weakOf i => s.addWeak (record? s.strong i)
  | .weakCopy i => s.addWeak (record? s.weak i)
  | .weakMove i => (s.setWeak i (some none)).addWeak (record? s.weak i)
  | .weakAssign i j => s.setWeak i (record? s.weak j)
  | .weakMoveAssign i j =>
      if i = j then s else (s.setWeak i (record? s.weak j)).setWeak j (some none)
  | .weakAssignShared i j => s.setWeak i (record? s.strong j)
  | .weakReset i => s.setWeak i (some none)
  | .weakDestroy i => s.setWeak i none
  | .lock i => s.addStrong (some (s.locked i))

end Holdings

/-- A handle with an object has its control block, too. -/
def Handle.of (o : Option Nat) : Handle := ⟨o, o⟩

/-- Handles with these objects. -/
def handlesOf (l : List (Option (Option Nat))) : List (Option Handle) :=
  l.map (Option.map Handle.of)

theorem record?_handlesOf (l : List (Option (Option Nat))) (i : Nat) :
    record? (handlesOf l) i = (record? l i).map Handle.of := by
  rw [record?, record?, handlesOf, List.getElem?_map]
  cases l[i]? with
  | none => rfl
  | some o => rfl

theorem handlesOf_append (l : List (Option (Option Nat))) (o : Option (Option Nat)) :
    handlesOf (l ++ [o]) = handlesOf l ++ [o.map Handle.of] := List.map_append

theorem handlesOf_set (l : List (Option (Option Nat))) (i : Nat) (o : Option (Option Nat)) :
    handlesOf (l.set i o) = (handlesOf l).set i (o.map Handle.of) := List.map_set

/-! ## The heap -/

namespace Heap

variable {C : Type} {K : Counter C} {H H' H₁ : Heap C} {a : Loc} {i n : Nat} {v : Handle}

/-- Nothing is made, and the handles outside stay as they are. -/
structure Quiet (H H' : Heap C) : Prop where
  handles : H'.handles = H.handles
  nodes : H'.nodes.length = H.nodes.length
  counters : H'.counters.length = H.counters.length

theorem Quiet.refl (H : Heap C) : Quiet H H := ⟨rfl, rfl, rfl⟩

theorem Quiet.trans (h : Quiet H H₁) (h' : Quiet H₁ H') : Quiet H H' :=
  ⟨h'.handles.trans h.handles, h'.nodes.trans h.nodes, h'.counters.trans h.counters⟩

theorem quiet_setCounter (H : Heap C) (c : Nat) (k : C) : Quiet H (H.setCounter c k) :=
  ⟨rfl, rfl, List.length_set⟩

theorem quiet_putCounter (H : Heap C) (c : Nat) (o : Option C) : Quiet H (H.putCounter c o) := by
  cases o with
  | none => exact ⟨rfl, rfl, List.length_set⟩
  | some k => exact quiet_setCounter H c k

theorem quiet_setLifetime (H : Heap C) (n : Nat) (t : Lifetime) : Quiet H (H.setLifetime n t) :=
  ⟨rfl, List.length_modify .., rfl⟩

/-- The handle at the place may have changed, and no other handle outside. -/
def QuietBut (H H' : Heap C) : Loc → Prop
  | .handle i => ∃ v, Quiet { H with handles := H.handles.set i (some v) } H'
  | .field _ _ => Quiet H H'

theorem QuietBut.counters (h : QuietBut H H' a) : H'.counters.length = H.counters.length := by
  cases a with
  | handle i =>
      obtain ⟨v, hv⟩ := h
      exact hv.counters
  | field n i => exact h.counters

theorem Quiet.but (h : Quiet H H₁) (h' : QuietBut H₁ H' a) : QuietBut H H' a := by
  cases a with
  | handle i =>
      obtain ⟨v, hv⟩ := h'
      refine ⟨v, ?_, hv.nodes.trans h.nodes, hv.counters.trans h.counters⟩
      rw [hv.handles, h.handles]
  | field n i => exact h.trans h'

theorem quietBut_store (hs : H.store a v = some H') : QuietBut H H' a := by
  cases a with
  | handle i =>
      rw [store, Option.bind_eq_bind, Option.bind_eq_some_iff] at hs
      obtain ⟨g, -, hs⟩ := hs
      cases hs
      exact ⟨v, .refl _⟩
  | field n i =>
      rw [store, Option.bind_eq_bind, Option.bind_eq_some_iff] at hs
      obtain ⟨x, -, hs⟩ := hs
      split at hs
      · cases hs
      · split at hs
        · cases hs
          exact ⟨rfl, List.length_set, rfl⟩
        · cases hs

theorem quietBut_release {delete : Heap C → Nat → Option (Heap C)}
    (hdelete : ∀ H n H', delete H n = some H' → Quiet H H')
    (hr : H.release K delete a = some H') : QuietBut H H' a := by
  rw [release, Option.bind_eq_bind, Option.bind_eq_some_iff] at hr
  obtain ⟨h, -, hr⟩ := hr
  split at hr
  · exact quietBut_store hr
  · next c hc =>
      rw [Option.bind_eq_bind, Option.bind_eq_some_iff] at hr
      obtain ⟨k, -, hr⟩ := hr
      rw [Option.bind_eq_some_iff] at hr
      obtain ⟨k', -, hr⟩ := hr
      have hset := quiet_setCounter H c k'
      dsimp only at hr
      split at hr
      · simp only [releaseLast, Option.bind_eq_bind, Option.bind_eq_some_iff] at hr
        obtain ⟨H₁, hdel, g, -, d, -, k₁, -, left, -, hstore⟩ := hr
        have hquiet : Quiet (H.setCounter c k') H₁ := by
          cases hp : h.ptr with
          | none =>
              rw [hp] at hdel
              cases hdel
              exact .refl _
          | some n =>
              rw [hp] at hdel
              exact hdelete _ _ _ hdel
        exact ((hset.trans hquiet).trans (quiet_putCounter H₁ d left)).but (quietBut_store hstore)
      · exact hset.but (quietBut_store hr)

/-- The destructors of the fields of a node do not touch the handles outside. -/
theorem quiet_deleteNode (fuel : Nat) : ∀ (H : Heap C) n H',
    deleteNode K fuel H n = some H' → Quiet H H' := by
  induction fuel with
  | zero => exact fun H n H' h => by cases h
  | succ fuel ih =>
      have hfields : ∀ n i (H H' : Heap C),
          destroyFields K (deleteNode K fuel) n i H = some H' → Quiet H H' := by
        intro n i
        induction i with
        | zero => exact fun H H' h => by cases h; exact .refl H
        | succ i ihi =>
            intro H H' h
            rw [destroyFields, Option.bind_eq_bind, Option.bind_eq_some_iff] at h
            obtain ⟨H₁, hrelease, h⟩ := h
            exact Quiet.trans (quietBut_release ih hrelease) (ihi H₁ H' h)
      intro H n H' h
      rw [deleteNode, Option.bind_eq_bind, Option.bind_eq_some_iff] at h
      obtain ⟨x, -, h⟩ := h
      split at h
      · rw [Option.bind_eq_bind, Option.bind_eq_some_iff] at h
        obtain ⟨H₁, hall, h⟩ := h
        cases h
        have hstart : Quiet H { H.setLifetime n .dying with deleted := H.deleted ++ [n] } :=
          ⟨rfl, List.length_modify .., rfl⟩
        exact (hstart.trans (hfields n _ _ _ hall)).trans (quiet_setLifetime H₁ n .dead)
      · cases h

theorem quiet_acquire {h : Handle} (ha : H.acquire K h = some H') : Quiet H H' := by
  rw [acquire] at ha
  split at ha
  · cases ha
    exact .refl H
  · rw [Option.bind_eq_bind, Option.bind_eq_some_iff] at ha
    obtain ⟨k, -, ha⟩ := ha
    cases ha
    exact quiet_setCounter H _ _

end Heap

/-! ## Calls -/

namespace World

open Ycetl.Ref.Shared.Heap

variable {w w' : World} {s : Holdings} {H H' : Heap ControlBlock} {h : Handle} {i j : Nat}
  {o : Option (Option Nat)}

/-- The handles are those that the holdings say, and so is the next number. -/
structure Shows (w : World) (s : Holdings) : Prop where
  strong : w.heap.handles = handlesOf s.strong
  weak : w.weaks = handlesOf s.weak
  nodes : w.heap.nodes.length = s.made
  counters : w.heap.counters.length = s.made

theorem shows_empty : Shows empty .empty := ⟨rfl, rfl, rfl, rfl⟩

theorem Shows.strong? (hs : Shows w s) (hi : w.strong? i = some h) :
    (record? s.strong i).map Handle.of = some h := by
  rw [← hi, World.strong?, hs.strong, record?_handlesOf]

theorem Shows.weak? (hs : Shows w s) (hi : w.weak? i = some h) :
    (record? s.weak i).map Handle.of = some h := by
  rw [← hi, World.weak?, hs.weak, record?_handlesOf]

theorem Shows.addStrong (hs : Shows w s) (hq : Quiet w.heap H) (ho : o.map Handle.of = some h) :
    Shows (w.addStrong H h) (s.addStrong o) := by
  refine ⟨?_, hs.weak, hq.nodes.trans hs.nodes, hq.counters.trans hs.counters⟩
  show H.handles ++ [some h] = handlesOf (s.strong ++ [o])
  rw [hq.handles, hs.strong, handlesOf_append, ho]

theorem Shows.addWeak (hs : Shows w s) (hq : Quiet w.heap H) (ho : o.map Handle.of = some h) :
    Shows (w.addWeak H h) (s.addWeak o) := by
  refine ⟨hq.handles.trans hs.strong, ?_, hq.nodes.trans hs.nodes, hq.counters.trans hs.counters⟩
  show w.weaks ++ [some h] = handlesOf (s.weak ++ [o])
  rw [hs.weak, handlesOf_append, ho]

theorem Shows.setWeak (hs : Shows w s) (hq : Quiet w.heap H) (i : Nat) {g : Option Handle}
    (ho : o.map Handle.of = g) : Shows (w.setWeak H i g) (s.setWeak i o) := by
  refine ⟨hq.handles.trans hs.strong, ?_, hq.nodes.trans hs.nodes, hq.counters.trans hs.counters⟩
  show w.weaks.set i g = handlesOf (s.weak.set i o)
  rw [hs.weak, handlesOf_set, ho]

/-- A write to a handle outside, after which nothing else happens to the handles. -/
theorem Shows.setStrong (hs : Shows w s) (i : Nat) {g : Option Handle}
    (ho : o.map Handle.of = g) (hq : Quiet { w.heap with handles := w.heap.handles.set i g } H) :
    Shows { w with heap := H } (s.setStrong i o) := by
  refine ⟨?_, hs.weak, hq.nodes.trans hs.nodes, hq.counters.trans hs.counters⟩
  show H.handles = handlesOf (s.strong.set i o)
  rw [hq.handles, handlesOf_set, ho, hs.strong]

theorem store_handle_eq {v : Handle} (hstore : H.store (.handle i) v = some H') :
    H' = { H with handles := H.handles.set i (some v) } := by
  rw [store, Option.bind_eq_bind, Option.bind_eq_some_iff] at hstore
  obtain ⟨g, -, hstore⟩ := hstore
  cases hstore
  rfl

/-- What the target of an assignment was left with is written over. -/
theorem quiet_overwrite {H₁ H₂ : Heap ControlBlock} {v : Handle}
    (hrelease : QuietBut H H₁ (.handle i)) (hstore : H₁.store (.handle i) v = some H₂) :
    Quiet { H with handles := H.handles.set i (some v) } H₂ := by
  obtain ⟨u, hq⟩ := hrelease
  rw [store_handle_eq hstore]
  refine ⟨?_, hq.nodes, hq.counters⟩
  show H₁.handles.set i (some v) = H.handles.set i (some v)
  rw [hq.handles]
  exact List.set_set _

/-- Another handle is as it was. -/
theorem load_quietBut {H₁ : Heap ControlBlock} (hrelease : QuietBut H H₁ (.handle i))
    (hij : i ≠ j) : H₁.load (.handle j) = H.load (.handle j) := by
  obtain ⟨u, hq⟩ := hrelease
  rw [load, load, hq.handles]
  exact record?_set_ne hij H.handles (some u)

theorem Shows.assign (hs : Shows w s) (h' : w.assign i j = some w') :
    Shows w' (s.setStrong i (record? s.strong j)) := by
  rw [World.assign, Option.bind_eq_bind, Option.bind_eq_some_iff] at h'
  obtain ⟨H, hcopy, h'⟩ := h'
  cases h'
  rw [copyAssign] at hcopy
  split at hcopy
  · next hij =>
      cases hcopy
      cases hij
      rw [Holdings.setStrong, set_record?_self]
      exact hs
  · next hij =>
      rw [Option.bind_eq_bind, Option.bind_eq_some_iff] at hcopy
      obtain ⟨H₁, hrelease, hcopy⟩ := hcopy
      rw [Option.bind_eq_bind, Option.bind_eq_some_iff] at hcopy
      obtain ⟨g, hload, hcopy⟩ := hcopy
      rw [Option.bind_eq_some_iff] at hcopy
      obtain ⟨H₂, hstore, hacquire⟩ := hcopy
      have hbut := quietBut_release (quiet_deleteNode w.fuel) hrelease
      rw [load_quietBut hbut fun he => hij (congrArg Loc.handle he)] at hload
      exact hs.setStrong i (hs.strong? hload)
        ((quiet_overwrite hbut hstore).trans (quiet_acquire hacquire))

theorem Shows.moveAssign (hs : Shows w s) (h' : w.moveAssign i j = some w') :
    Shows w' (if i = j then s else
      (s.setStrong i (record? s.strong j)).setStrong j (some none)) := by
  rw [World.moveAssign, Option.bind_eq_bind, Option.bind_eq_some_iff] at h'
  obtain ⟨H, hmove, h'⟩ := h'
  cases h'
  rw [Heap.moveAssign] at hmove
  split at hmove
  · next hij =>
      cases hmove
      rw [if_pos (Loc.handle.inj hij)]
      exact hs
  · next hij =>
      have hne : i ≠ j := fun he => hij (congrArg Loc.handle he)
      rw [Option.bind_eq_bind, Option.bind_eq_some_iff] at hmove
      obtain ⟨H₁, hrelease, hmove⟩ := hmove
      rw [Option.bind_eq_bind, Option.bind_eq_some_iff] at hmove
      obtain ⟨g, hload, hmove⟩ := hmove
      rw [Option.bind_eq_some_iff] at hmove
      obtain ⟨H₂, hstore, hclear⟩ := hmove
      have hbut := quietBut_release (quiet_deleteNode w.fuel) hrelease
      rw [load_quietBut hbut hne] at hload
      have hs₂ := hs.setStrong i (hs.strong? hload) (quiet_overwrite hbut hstore)
      rw [if_neg hne, store_handle_eq hclear]
      exact hs₂.setStrong j rfl (.refl _)

theorem Shows.destroy (hs : Shows w s) (h' : w.destroy i = some w') :
    Shows w' (s.setStrong i none) := by
  rw [World.destroy, Option.bind_eq_bind, Option.bind_eq_some_iff] at h'
  obtain ⟨H, hrelease, h'⟩ := h'
  cases h'
  obtain ⟨v, hq⟩ := quietBut_release (quiet_deleteNode w.fuel) hrelease
  refine hs.setStrong i rfl ⟨?_, hq.nodes, hq.counters⟩
  show H.handles.set i none = w.heap.handles.set i none
  rw [hq.handles]
  exact List.set_set _

theorem quiet_acquireWeak (ha : acquireWeak H h = some H') : Quiet H H' := by
  rw [acquireWeak] at ha
  split at ha
  · cases ha
    exact .refl H
  · rw [Option.bind_eq_bind, Option.bind_eq_some_iff] at ha
    obtain ⟨b, -, ha⟩ := ha
    cases ha
    exact quiet_setCounter H _ _

theorem quiet_releaseWeak (hr : releaseWeak H h = some H') : Quiet H H' := by
  rw [releaseWeak] at hr
  split at hr
  · cases hr
    exact .refl H
  · simp only [Option.bind_eq_bind, Option.bind_eq_some_iff] at hr
    obtain ⟨b, -, left, -, hr⟩ := hr
    cases hr
    exact quiet_putCounter H _ left

theorem Shows.weakReset (hs : Shows w s) (h' : w.weakReset i = some w') :
    Shows w' (s.setWeak i (some none)) := by
  simp only [World.weakReset, Option.bind_eq_bind, Option.bind_eq_some_iff] at h'
  obtain ⟨h, -, H, hrelease, h'⟩ := h'
  cases h'
  exact hs.setWeak (quiet_releaseWeak hrelease) i rfl

/-- The end of an assignment of an observer, after its release. -/
theorem Shows.weakTake (hs : Shows w (s.setWeak i (some none))) (ho : o.map Handle.of = some h)
    (h' : w.weakTake i h = some w') : Shows w' (s.setWeak i o) := by
  rw [World.weakTake, Option.bind_eq_bind, Option.bind_eq_some_iff] at h'
  obtain ⟨H, hacquire, h'⟩ := h'
  cases h'
  have hset := hs.setWeak (quiet_acquireWeak hacquire) i ho
  rwa [Holdings.setWeak, Holdings.setWeak, List.set_set] at hset

/-- What `lock` returns. The count of a control block is zero just when no owner
has the object. -/
theorem Shows.lock (hs : Shows w s)
    (hcount : ∀ c b, w.heap.counter? c = some b → (b.refCount = 0 ↔ some (some c) ∉ s.strong))
    (h' : w.lock i = some w') : Shows w' (s.addStrong (some (s.locked i))) := by
  rw [World.lock, Option.bind_eq_bind, Option.bind_eq_some_iff] at h'
  obtain ⟨h, hi, h'⟩ := h'
  obtain ⟨t, ht, rfl⟩ := Option.map_eq_some_iff.mp (hs.weak? hi)
  rw [Holdings.locked, ht, Option.join_some]
  cases t with
  | none =>
      cases h'
      exact hs.addStrong (.refl _) rfl
  | some c =>
      simp only [Handle.of, Option.bind_eq_bind, Option.bind_eq_some_iff] at h'
      obtain ⟨b, hb, h'⟩ := h'
      have hzero := hcount c b hb
      split at h'
      · next hz =>
          cases h'
          rw [Option.filter_some, if_neg (by simpa using hzero.mp hz)]
          exact hs.addStrong (.refl _) rfl
      · next hz =>
          cases h'
          rw [Option.filter_some, if_pos (by simpa using not_not.mp (mt hzero.mpr hz))]
          exact hs.addStrong (quiet_setCounter _ _ _) rfl

/-- A call does to the handles what is said of it without the heap. -/
theorem Shows.step {op : Op} (hs : Shows w s)
    (hcount : ∀ c b, w.heap.counter? c = some b → (b.refCount = 0 ↔ some (some c) ∉ s.strong))
    (h' : w.step op = some w') : Shows w' (s.step op) := by
  cases op with
  | make =>
      cases h'
      have hnew : Handle.of (some s.made) =
          ⟨some w.heap.counters.length, some w.heap.nodes.length⟩ := by
        rw [hs.counters, hs.nodes]
        rfl
      refine ⟨?_, hs.weak, ?_, ?_⟩
      · show w.heap.handles ++ _ = handlesOf (s.strong ++ _)
        rw [handlesOf_append, hs.strong, Option.map_some, hnew]
      · show (w.heap.nodes ++ _).length = s.made + 1
        rw [List.length_append, hs.nodes]
        rfl
      · show (w.heap.counters ++ _).length = s.made + 1
        rw [List.length_append, hs.counters]
        rfl
  | empty =>
      cases h'
      exact hs.addStrong (.refl _) rfl
  | copy i =>
      simp only [World.step, World.copy, Option.bind_eq_bind, Option.bind_eq_some_iff] at h'
      obtain ⟨h, hi, H, hacquire, h'⟩ := h'
      cases h'
      exact hs.addStrong (quiet_acquire hacquire) (hs.strong? hi)
  | move i =>
      simp only [World.step, World.move, Option.bind_eq_bind, Option.bind_eq_some_iff] at h'
      obtain ⟨h, hi, H, hstore, h'⟩ := h'
      cases h'
      have hclear := hs.setStrong i (o := some none) (H := H) rfl (by
        rw [store_handle_eq hstore]
        exact .refl _)
      exact hclear.addStrong (.refl _) (hs.strong? hi)
  | assign i j => exact hs.assign h'
  | moveAssign i j => exact hs.moveAssign h'
  | destroy i => exact hs.destroy h'
  | weakEmpty =>
      cases h'
      exact hs.addWeak (.refl _) rfl
  | weakOf i =>
      simp only [World.step, World.weakOf, Option.bind_eq_bind, Option.bind_eq_some_iff] at h'
      obtain ⟨h, hi, H, hacquire, h'⟩ := h'
      cases h'
      exact hs.addWeak (quiet_acquireWeak hacquire) (hs.strong? hi)
  | weakCopy i =>
      simp only [World.step, World.weakCopy, Option.bind_eq_bind, Option.bind_eq_some_iff] at h'
      obtain ⟨h, hi, H, hacquire, h'⟩ := h'
      cases h'
      exact hs.addWeak (quiet_acquireWeak hacquire) (hs.weak? hi)
  | weakMove i =>
      simp only [World.step, World.weakMove, Option.bind_eq_bind, Option.bind_eq_some_iff] at h'
      obtain ⟨h, hi, h'⟩ := h'
      cases h'
      exact (hs.setWeak (.refl _) i (o := some none) rfl).addWeak (.refl _) (hs.weak? hi)
  | weakAssign i j =>
      rw [World.step, World.weakAssign] at h'
      split at h'
      · next hij =>
          cases h'
          rw [Holdings.step, hij, Holdings.setWeak, set_record?_self]
          exact hs
      · next hij =>
          simp only [Option.bind_eq_bind, Option.bind_eq_some_iff] at h'
          obtain ⟨w₁, hreset, h, hj, htake⟩ := h'
          have hs₁ := hs.weakReset hreset
          have ho := hs₁.weak? hj
          rw [Holdings.setWeak, record?_set_ne hij] at ho
          exact hs₁.weakTake ho htake
  | weakMoveAssign i j =>
      rw [World.step, World.weakMoveAssign] at h'
      split at h'
      · next hij =>
          cases h'
          rw [Holdings.step, if_pos hij]
          exact hs
      · next hij =>
          simp only [Option.bind_eq_bind, Option.bind_eq_some_iff] at h'
          obtain ⟨w₁, hreset, h, hj, h'⟩ := h'
          cases h'
          have hs₁ := hs.weakReset hreset
          have ho := hs₁.weak? hj
          rw [Holdings.setWeak, record?_set_ne hij] at ho
          have hs₂ := hs₁.setWeak (.refl _) i ho
          rw [Holdings.setWeak, Holdings.setWeak, List.set_set] at hs₂
          rw [Holdings.step, if_neg hij]
          exact hs₂.setWeak (.refl _) j rfl
  | weakAssignShared i j =>
      simp only [World.step, World.weakAssignShared, Option.bind_eq_bind,
        Option.bind_eq_some_iff] at h'
      obtain ⟨w₁, hreset, h, hj, htake⟩ := h'
      have hs₁ := hs.weakReset hreset
      exact hs₁.weakTake (hs₁.strong? hj) htake
  | weakReset i => exact hs.weakReset h'
  | weakDestroy i =>
      simp only [World.step, World.weakDestroy, Option.bind_eq_bind, Option.bind_eq_some_iff] at h'
      obtain ⟨w₁, hreset, h'⟩ := h'
      cases h'
      have hs₁ := (hs.weakReset hreset).setWeak (.refl _) i (o := none) rfl
      rwa [Holdings.setWeak, Holdings.setWeak, List.set_set] at hs₁
  | lock i => exact hs.lock hcount h'

end World

end Ycetl.Ref.Shared
