import Mathlib.Data.List.Range
import Ycetl.Ref.DynamicMemory

/-!
# Who holds what

What the calls do to the objects can be said without the heap: an object holds
a backend, or was reset and holds none, or is gone. A copy holds what the
original holds, and so does the target of an assignment; a new memory has a
backend of its own; a pointer that is returned holds the backend of the memory
it came from; and the argument of `deallocate` is gone after the call.
-/

namespace Ycetl.Ref

open Ycetl.Lib

variable {Ty : Type}

/-- The objects by number, each with its backend, the handlers, and how many
backends were made. -/
structure Holdings (Ty : Type) where
  objects : List (Option (Option Nat))
  handlers : List (List (Ty × Nat))
  made : Nat

namespace Holdings

def empty : Holdings Ty := ⟨[], [], 0⟩

def held (s : Holdings Ty) (h : Nat) : Option (Option Nat) := record? s.objects h

def add (s : Holdings Ty) (o : Option (Option Nat)) : Holdings Ty :=
  { s with objects := s.objects ++ [o] }

def set (s : Holdings Ty) (h : Nat) (o : Option (Option Nat)) : Holdings Ty :=
  { s with objects := s.objects.set h o }

/-- A handler for these types, of the objects that come next. -/
def number (s : Holdings Ty) (ts : List Ty) : List (Ty × Nat) :=
  ts.zip (List.range' s.objects.length ts.length)

theorem length_add (s : Holdings Ty) (o : Option (Option Nat)) :
    (s.add o).objects.length = s.objects.length + 1 := by
  rw [add, List.length_append, List.length_singleton]

theorem number_cons {s s' : Holdings Ty} (h : s'.objects.length = s.objects.length + 1) (t : Ty)
    (ts : List Ty) : s.number (t :: ts) = (t, s.objects.length) :: s'.number ts := by
  rw [number, number, List.length_cons, List.range'_succ, List.zip_cons_cons, h]

/-- Objects that are added after it do not change what an object holds. -/
theorem held_add {s : Holdings Ty} {h : Nat} (hh : h < s.objects.length)
    (o : Option (Option Nat)) : (s.add o).held h = s.held h :=
  (record?_append ..).trans (if_neg (by omega))

theorem held_set_ne {h g : Nat} (hhg : h ≠ g) (s : Holdings Ty) (o : Option (Option Nat)) :
    (s.set h o).held g = s.held g := record?_set_ne hhg s.objects o

theorem set_held (s : Holdings Ty) (h : Nat) : s.set h (s.held h) = s :=
  congrArg (fun l => ({ s with objects := l } : Holdings Ty)) (set_record?_self s.objects h)

theorem set_set (s : Holdings Ty) (h : Nat) (o o' : Option (Option Nat)) :
    (s.set h o).set h o' = s.set h o' :=
  congrArg (fun l => ({ s with objects := l } : Holdings Ty)) (List.set_set o)

theorem set_add (s : Holdings Ty) (o o' : Option (Option Nat)) :
    (s.add o).set s.objects.length o' = s.add o' :=
  congrArg (fun l => ({ s with objects := l } : Holdings Ty)) (set_length_append s.objects o o')

variable [DecidableEq Ty]

/-- What the memory of a handler for a type holds. -/
def heldFor (s : Holdings Ty) (m : Nat) (t : Ty) : Option (Option Nat) :=
  ((s.handlers[m]?).bind fun tuple => World.getHandler tuple t).bind s.held

def step (s : Holdings Ty) : World.Op Ty → Holdings Ty
  | .create => { s.add (some (some s.made)) with made := s.made + 1 }
  | .copy h | .none h | .allocate h _ => s.add (s.held h)
  | .allocateFor m t _ => s.add (s.heldFor m t)
  | .assign h g => s.set h (s.held g)
  | .reset h => s.set h (some none)
  | .destroy h => s.set h none
  | .deallocate _ _ _ | .deallocateFor _ _ _ _ => s.add none
  | .createMultitype ts =>
      ⟨s.objects ++ (List.range' s.made ts.length).map fun b => some (some b),
        s.handlers ++ [s.number ts], s.made + ts.length⟩
  | .downgrade m ts =>
      ⟨s.objects ++ ts.map (s.heldFor m), s.handlers ++ [s.number ts], s.made⟩
  | .destroyMultitype m =>
      ((s.handlers[m]?).getD []).foldr (fun e s => s.set e.2 none) s

end Holdings

namespace World

variable {w w' : World Ty} {h g m : Nat} {x : Handle}

def holdings (w : World Ty) : Holdings Ty :=
  ⟨w.handles.map (Option.map fun x => x.memory.ptr), w.multitypes, w.heap.backends.length⟩

@[simp] theorem length_objects (w : World Ty) :
    w.holdings.objects.length = w.handles.length := List.length_map ..

theorem held_holdings (w : World Ty) (h : Nat) :
    w.holdings.held h = (w.handle? h).map fun x => x.memory.ptr := by
  show (((w.handles.map _)[h]?).join) = _
  rw [List.getElem?_map, handle?, record?]
  cases w.handles[h]? with
  | none => rfl
  | some o => rfl

/-! ## The heap -/

theorem copy_cases {H H' : Heap} {p q : SharedPtr} (h : SharedPtr.copy H p = some (H', q)) :
    q = p ∧ H'.backends = H.backends := by
  rw [SharedPtr.copy] at h
  split at h
  · cases h
    exact ⟨rfl, rfl⟩
  · rw [Option.bind_eq_bind, Option.bind_eq_some_iff] at h
    obtain ⟨n, -, h⟩ := h
    cases h
    exact ⟨rfl, rfl⟩

theorem length_deletePtr {H H' : Heap} {p : SharedPtr} (h : SharedPtr.deletePtr H p = some H') :
    H'.backends.length = H.backends.length := by
  rw [SharedPtr.deletePtr] at h
  split at h
  · cases h
    rfl
  · simp only [Heap.deleteBackend, Option.bind_eq_bind, Option.bind_eq_some_iff] at h
    obtain ⟨B, -, freed, -, h⟩ := h
    cases h
    exact List.length_set

theorem reset_cases {H H' : Heap} {p q : SharedPtr} (h : p.reset H = some (H', q)) :
    q = .null ∧ H'.backends.length = H.backends.length := by
  rw [SharedPtr.reset] at h
  split at h
  · cases h
    exact ⟨rfl, rfl⟩
  · rw [Option.bind_eq_bind, Option.bind_eq_some_iff] at h
    obtain ⟨n, -, h⟩ := h
    split at h
    · cases h
    · rw [Option.bind_eq_bind, Option.bind_eq_some_iff] at h
      obtain ⟨H₁, hdelete, h⟩ := h
      cases h
      have hlen := length_deletePtr hdelete
      exact ⟨rfl, hlen⟩
    · cases h
      exact ⟨rfl, rfl⟩

theorem length_allocate {H H' : Heap} {b n : Nat} {raw : Option Nat}
    (h : H.allocate b n = some (H', raw)) : H'.backends.length = H.backends.length := by
  simp only [Heap.allocate, Option.bind_eq_bind, Option.bind_eq_some_iff] at h
  obtain ⟨B, -, h⟩ := h
  split at h
  · cases h
    rfl
  · simp only [Option.bind_eq_some_iff] at h
    obtain ⟨B₁, -, B₂, -, h⟩ := h
    cases h
    exact List.length_set

/-! ## Objects -/

theorem holdings_construct (w : World Ty) {H : Heap}
    (hH : H.backends.length = w.heap.backends.length) (x : Handle) :
    (w.construct H x).holdings = w.holdings.add (some x.memory.ptr) := by
  simp only [holdings, construct, Holdings.add, List.map_append, hH]
  rfl

theorem holdings_put (w : World Ty) {H : Heap}
    (hH : H.backends.length = w.heap.backends.length) (h : Nat) (o : Option Handle) :
    (w.put H h o).holdings = w.holdings.set h (o.map fun x => x.memory.ptr) := by
  simp only [holdings, put, Holdings.set, List.map_set, hH]

theorem holdings_create (w : World Ty) : w.create.holdings =
    { w.holdings.add (some (some w.holdings.made)) with made := w.holdings.made + 1 } := by
  simp only [holdings, create, construct, Holdings.add, List.map_append, SharedPtr.ofPtr,
    Heap.newCount, Heap.newBackend, List.length_append, List.length_singleton]
  rfl

theorem holdings_copy (h' : w.copy h = some w') :
    w'.holdings = w.holdings.add (w.holdings.held h) := by
  rw [copy, Option.bind_eq_bind, Option.bind_eq_some_iff] at h'
  obtain ⟨x, hx, h'⟩ := h'
  rw [Option.bind_eq_bind, Option.bind_eq_some_iff] at h'
  obtain ⟨⟨H, q⟩, hcopy, h'⟩ := h'
  obtain ⟨rfl, hH⟩ := copy_cases hcopy
  cases h'
  rw [holdings_construct w (congrArg List.length hH), held_holdings, hx]
  rfl

theorem holdings_reset (h' : w.reset h = some w') :
    w'.holdings = w.holdings.set h (some none) := by
  rw [reset, Option.bind_eq_bind, Option.bind_eq_some_iff] at h'
  obtain ⟨x, hx, h'⟩ := h'
  rw [Option.bind_eq_bind, Option.bind_eq_some_iff] at h'
  obtain ⟨⟨H, q⟩, hreset, h'⟩ := h'
  obtain ⟨rfl, hH⟩ := reset_cases hreset
  cases h'
  exact holdings_put w hH h _

theorem holdings_destroy (h' : w.destroy h = some w') :
    w'.holdings = w.holdings.set h none := by
  rw [destroy, Option.bind_eq_bind, Option.bind_eq_some_iff] at h'
  obtain ⟨x, hx, h'⟩ := h'
  rw [Option.bind_eq_bind, Option.bind_eq_some_iff] at h'
  obtain ⟨⟨H, q⟩, hreset, h'⟩ := h'
  obtain ⟨rfl, hH⟩ := reset_cases hreset
  cases h'
  exact holdings_put w hH h _

/-- The target is let go of first; it has what the source has in the end. -/
theorem holdings_assign (h' : w.assign h g = some w') :
    w'.holdings = w.holdings.set h (w.holdings.held g) := by
  rw [assign] at h'
  split at h'
  · next hhg =>
      subst hhg
      cases h'
      exact (Holdings.set_held w.holdings h).symm
  · next hhg =>
      rw [Option.bind_eq_bind, Option.bind_eq_some_iff] at h'
      obtain ⟨w₁, hreset, h'⟩ := h'
      rw [Option.bind_eq_bind, Option.bind_eq_some_iff] at h'
      obtain ⟨y, hy, h'⟩ := h'
      rw [Option.bind_eq_bind, Option.bind_eq_some_iff] at h'
      obtain ⟨⟨H, q⟩, hcopy, h'⟩ := h'
      obtain ⟨rfl, hH⟩ := copy_cases hcopy
      cases h'
      have h₁ := holdings_reset hreset
      have hg : w.holdings.held g = some y.memory.ptr := by
        rw [← Holdings.held_set_ne hhg w.holdings (some none), ← h₁, held_holdings, hy]
        rfl
      rw [holdings_put w₁ (congrArg List.length hH), h₁, hg, Holdings.set_set]
      rfl

theorem holdings_pointer {p : SharedPtr} {raw : Option Nat} (h' : w.pointer p raw = some w') :
    w'.holdings = w.holdings.add (some p.ptr) := by
  rw [pointer, Option.bind_eq_bind, Option.bind_eq_some_iff] at h'
  obtain ⟨⟨H, q⟩, hcopy, h'⟩ := h'
  obtain ⟨rfl, hH⟩ := copy_cases hcopy
  cases h'
  exact holdings_construct w (congrArg List.length hH) _

theorem holdings_nullPointer (h' : w.nullPointer h = some w') :
    w'.holdings = w.holdings.add (w.holdings.held h) := by
  rw [nullPointer, Option.bind_eq_bind, Option.bind_eq_some_iff] at h'
  obtain ⟨x, hx, h'⟩ := h'
  rw [holdings_pointer h', held_holdings, hx]
  rfl

theorem holdings_withHeap (w : World Ty) {H : Heap}
    (hH : H.backends.length = w.heap.backends.length) :
    ({ w with heap := H } : World Ty).holdings = w.holdings := by
  simp only [holdings, hH]

theorem holdings_allocate {n : Nat} (h' : w.allocate h n = some w') :
    w'.holdings = w.holdings.add (w.holdings.held h) := by
  rw [allocate, Option.bind_eq_bind, Option.bind_eq_some_iff] at h'
  obtain ⟨x, hx, h'⟩ := h'
  rw [Option.bind_eq_bind, Option.bind_eq_some_iff] at h'
  obtain ⟨b, hb, h'⟩ := h'
  rw [Option.bind_eq_bind, Option.bind_eq_some_iff] at h'
  obtain ⟨⟨H, raw⟩, halloc, h'⟩ := h'
  rw [holdings_pointer h', holdings_withHeap w (length_allocate halloc), held_holdings, hx]
  rfl

/-- The argument is there for the time of the call only. -/
theorem holdings_deallocate {p n : Nat} (h' : w.deallocate h p n = some w') :
    w'.holdings = w.holdings.add none := by
  rw [deallocate, Option.bind_eq_bind, Option.bind_eq_some_iff] at h'
  obtain ⟨w₁, hcopy, h'⟩ := h'
  rw [Option.bind_eq_bind, Option.bind_eq_some_iff] at h'
  obtain ⟨q, -, h'⟩ := h'
  rw [Option.bind_eq_bind, Option.bind_eq_some_iff] at h'
  obtain ⟨x, -, h'⟩ := h'
  rw [Option.bind_eq_bind, Option.bind_eq_some_iff] at h'
  obtain ⟨b, -, h'⟩ := h'
  rw [Option.bind_eq_some_iff] at h'
  obtain ⟨H, hH, h'⟩ := h'
  have hlen : H.backends.length = w₁.heap.backends.length := by
    rw [Heap.deallocate, Option.bind_eq_bind, Option.bind_eq_some_iff] at hH
    obtain ⟨B, -, hH⟩ := hH
    cases hH
    exact List.length_set
  rw [holdings_destroy h', holdings_withHeap w₁ hlen, holdings_copy hcopy, ← length_objects,
    Holdings.set_add]

/-! ## Handlers -/

theorem createAll_spec (ts : List Ty) (w : World Ty) :
    (w.createAll ts).2 = w.holdings.number ts ∧ (w.createAll ts).1.holdings =
      ⟨w.holdings.objects ++ (List.range' w.holdings.made ts.length).map fun b => some (some b),
        w.holdings.handlers, w.holdings.made + ts.length⟩ := by
  induction ts generalizing w with
  | nil => exact ⟨rfl, by simp [createAll]⟩
  | cons t ts ih =>
      obtain ⟨hmembers, hholdings⟩ := ih w.create
      have hlen : w.create.holdings.objects.length = w.holdings.objects.length + 1 := by
        rw [holdings_create]
        exact Holdings.length_add w.holdings _
      rw [holdings_create] at hholdings
      refine ⟨?_, hholdings.trans ?_⟩
      · rw [Holdings.number_cons hlen, ← hmembers, length_objects]
        rfl
      · simp only [Holdings.add, List.length_cons, List.range'_succ, List.map_cons,
          List.append_assoc, List.singleton_append, Holdings.mk.injEq, true_and]
        omega

theorem destroyAll_spec (tuple : List (Ty × Nat)) (h' : w.destroyAll tuple = some w') :
    w'.holdings = tuple.foldl (fun s e => s.set e.2 none) w.holdings := by
  induction tuple generalizing w with
  | nil => cases h'; rfl
  | cons e tuple ih =>
      rw [destroyAll, Option.bind_eq_bind, Option.bind_eq_some_iff] at h'
      obtain ⟨w₁, hdestroy, h'⟩ := h'
      rw [ih h', holdings_destroy hdestroy]
      rfl

theorem holdings_addMultitype (r : World Ty × List (Ty × Nat)) : (addMultitype r).holdings =
    { r.1.holdings with handlers := r.1.holdings.handlers ++ [r.2] } := rfl

variable [DecidableEq Ty]

theorem heldFor_holdings (w : World Ty) (m : Nat) (t : Ty) :
    w.holdings.heldFor m t = (w.handlerFor m t).bind w.holdings.held := rfl

theorem copyAll_spec (ts : List Ty) {w w' : World Ty} {tuple : List (Ty × Nat)}
    (hts : ∀ t ∈ ts, ∃ h ∈ w.handlerFor m t, w.Alive h)
    (h' : w.copyAll m ts = some (w', tuple)) : tuple = w.holdings.number ts ∧ w'.holdings =
      ⟨w.holdings.objects ++ ts.map (w.holdings.heldFor m), w.holdings.handlers,
        w.holdings.made⟩ := by
  induction ts generalizing w w' tuple with
  | nil =>
      cases h'
      exact ⟨rfl, by simp⟩
  | cons t ts ih =>
      rw [copyAll, Option.bind_eq_bind, Option.bind_eq_some_iff] at h'
      obtain ⟨h, hh, h'⟩ := h'
      rw [Option.bind_eq_bind, Option.bind_eq_some_iff] at h'
      obtain ⟨w₁, hcopy, h'⟩ := h'
      rw [Option.bind_eq_bind, Option.bind_eq_some_iff] at h'
      obtain ⟨⟨w₂, tuple₂⟩, hall, h'⟩ := h'
      cases h'
      have h₁ := holdings_copy hcopy
      have hfor : ∀ u, w₁.handlerFor m u = w.handlerFor m u := fun u =>
        congrArg (fun l : List (List (Ty × Nat)) => (l[m]?).bind fun tuple => getHandler tuple u)
          (congrArg Holdings.handlers h₁)
      have hheld : ∀ g, w.Alive g → w₁.holdings.held g = w.holdings.held g := by
        intro g hg
        obtain ⟨x, hx⟩ := Option.isSome_iff_exists.mp hg
        rw [h₁]
        exact Holdings.held_add (by rw [length_objects]; exact lt_of_record? hx) _
      have hrest : ∀ u ∈ ts, w₁.holdings.heldFor m u = w.holdings.heldFor m u := by
        intro u hu
        obtain ⟨g, hg, hgalive⟩ := hts u (List.mem_cons_of_mem t hu)
        rw [heldFor_holdings, heldFor_holdings, hfor, Option.mem_def.mp hg, Option.bind_some,
          Option.bind_some, hheld g hgalive]
      have hts₁ : ∀ u ∈ ts, ∃ g ∈ w₁.handlerFor m u, w₁.Alive g := by
        intro u hu
        obtain ⟨g, hg, hgalive⟩ := hts u (List.mem_cons_of_mem t hu)
        refine ⟨g, (hfor u).symm ▸ hg, ?_⟩
        have hsame := congrArg Option.isSome (hheld g hgalive)
        rw [held_holdings, held_holdings, Option.isSome_map, Option.isSome_map] at hsame
        exact hsame.trans hgalive
      obtain ⟨hmembers, hholdings⟩ := ih hts₁ hall
      refine ⟨?_, hholdings.trans ?_⟩
      · have hlen : w₁.holdings.objects.length = w.holdings.objects.length + 1 := by
          rw [h₁, Holdings.length_add]
        rw [hmembers, Holdings.number_cons hlen, length_objects]
      · have hhere : w.holdings.held h = w.holdings.heldFor m t := by
          rw [heldFor_holdings, hh, Option.bind_some]
        rw [List.map_congr_left hrest, h₁, hhere]
        simp only [Holdings.add, List.map_cons, List.append_assoc, List.singleton_append]

/-! ## Calls -/

/-- A call does to the objects what is said of it without the heap. -/
theorem step_holdings {op : Op Ty} (hl : w.Legal op) (h' : w.step op = some w') :
    w'.holdings = w.holdings.step op := by
  cases op with
  | create =>
      cases h'
      exact holdings_create w
  | copy h => exact holdings_copy h'
  | assign h g => exact holdings_assign h'
  | reset h => exact holdings_reset h'
  | destroy h => exact holdings_destroy h'
  | allocate h n => exact holdings_allocate h'
  | none h => exact holdings_nullPointer h'
  | deallocate h p n => exact holdings_deallocate h'
  | createMultitype ts =>
      obtain ⟨hmembers, hholdings⟩ := createAll_spec ts w
      cases h'
      rw [holdings_addMultitype, hmembers, hholdings]
      rfl
  | downgrade m ts =>
      rw [step, Option.map_eq_some_iff] at h'
      obtain ⟨⟨w₁, tuple⟩, hall, rfl⟩ := h'
      obtain ⟨hmembers, hholdings⟩ := copyAll_spec ts hl.2 hall
      rw [holdings_addMultitype, hmembers, hholdings]
      rfl
  | allocateFor m t n =>
      rw [step, Option.bind_eq_bind, Option.bind_eq_some_iff] at h'
      obtain ⟨h, hh, h'⟩ := h'
      rw [holdings_allocate h', Holdings.step, heldFor_holdings, hh, Option.bind_some]
  | deallocateFor m t p n =>
      rw [step, Option.bind_eq_bind, Option.bind_eq_some_iff] at h'
      obtain ⟨h, -, h'⟩ := h'
      exact holdings_deallocate h'
  | destroyMultitype m =>
      rw [step, Option.bind_eq_bind, Option.bind_eq_some_iff] at h'
      obtain ⟨tuple, htuple, h'⟩ := h'
      rw [destroyAll_spec tuple.reverse h', List.foldl_reverse, Holdings.step,
        show w.holdings.handlers[m]? = some tuple from htuple, Option.getD_some]

end World

end Ycetl.Ref
