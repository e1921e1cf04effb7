import Ycetl.Lib.Sequences
import Ycetl.Proofs.ForwardCalls
import Ycetl.Proofs.ListCalls

/-!
# Lists that are moved

Both lists have their moves written out, and both leave the header of an empty
list behind. What there is to prove is that a move assignment is defined: the
nodes the target had are deleted one by one, which needs them to be a chain
that no other list shares. So a list owns its nodes, and every member function
keeps them apart from those of the other lists.
-/

namespace Ycetl.Ref

open Ycetl.Lib

variable (T : Type)

/-! ## `list` -/

namespace LinkedList

/-- The lists of a program. -/
def lists : Movable where
  Heap := Heap T
  Obj := Header
  Arg := List T
  Op := Call T
  Out := ListOut T
  Val := T
  init := []
  fresh := Header.none
  construct := ofList
  copyConstruct := ofCopy
  copyAssign := copyAssign
  moveConstruct := ofMove
  moveAssign := moveAssign
  call H l c := if c.Legal H l then call H l c else none
  destroy := destroy
  size := Header.size
  iterate := iterate

/-- What they do to sequences: copies and new lists are numbered in order. -/
def seqOps : Movable.SeqOps (lists T) where
  build := numbered
  copy := numbered
  call := onSeq

theorem lists_refine : Movable.Refines (M := lists T) id (IsList (T := T)) (seqOps T) where
  init_eq := rfl
  alive h p hp := by
    obtain ⟨ls, v, r, rfl⟩ := exists_cut hp
    exact ⟨_, (chain_append.mp h.chain).2.1⟩
  congr h := h.congr
  taken h := h
  left H _ := isList_none H
  construct H vs := by
    obtain ⟨H', l', hrun, hl, hw, hlen⟩ := ofList_seq H vs
    exact ⟨H', l', hrun, hl, hw, hlen.trans (congrArg _ (length_numbered _ _).symm)⟩
  copyConstruct {H o fs} ho := by
    obtain ⟨H', l', hrun, hl, hw, hlen⟩ := ofCopy_seq ho
    refine ⟨H', l', hrun, hl, hw, hlen.trans ?_⟩
    exact congrArg _ ((length_numbered _ _).trans (List.length_map _)).symm
  copyAssign {H l o es fs} h ho hdis := by
    obtain ⟨H', l', hrun, hl, hw, hlen⟩ := copyAssign_seq h ho hdis
    refine ⟨H', l', hrun, hl, hw, hlen.trans ?_⟩
    exact congrArg _ ((length_numbered _ _).trans (List.length_map _)).symm
  call {H l es} h c := by
    rcases call_seq h c with ⟨hc, H', l', out, es', hrun, hseq, hl, hw⟩ | ⟨hc, hseq⟩
    · exact .inl ⟨H', l', es', out, (if_pos hc).trans hrun, hseq, hl, hw⟩
    · exact .inr ⟨if_neg hc, hseq⟩
  destroy {H l es} h := by
    obtain ⟨H', hrun, hw⟩ := clearNodes_spec h
    exact ⟨H', congrArg (Option.map Prod.fst) hrun, hw, length_clearNodes hrun⟩
  moveAssign H l o := by
    show moveAssign H l o = (destroy H l).map fun H' => (H', ofMove o)
    unfold LinkedList.moveAssign LinkedList.destroy
    cases clearNodes H l <;> rfl

theorem lists_ownNodes : Movable.OwnsNodes (M := lists T) id (IsList (T := T)) :=
  (lists_refine T).ownsNodes fun h => IsList.iterate_eq h

theorem lists_movesWellWhen : Movable.MovesWellWhen (lists T) fun _ => True := by
  refine (lists_ownNodes T).footed.movesWellWhen (fun H l => ⟨rfl, rfl⟩) fun H l => ?_
  have hread : iterate H Header.none = [] := (isList_none H).iterate_eq
  refine iff_true_intro ((Movable.usable_iff_size_eq_zero ?_ ?_ ?_).mpr rfl)
  · show (iterate H Header.none).reduceOption = []
    rw [hread]
    rfl
  · intro _
    exact hread
  · intro _ op
    rfl

end LinkedList

/-! ## `forward_list` -/

namespace ForwardList

/-- The lists of a program. -/
def forwardLists : Movable where
  Heap := Heap T
  Obj := Header
  Arg := List T
  Op := Call T
  Out := ListOut T
  Val := T
  init := []
  fresh := Header.none
  construct H vs := some (ofList H vs)
  copyConstruct := ofCopy
  copyAssign := copyAssign
  moveConstruct := ofMove
  moveAssign := moveAssign
  call H l c := if c.Legal H l then call H l c else none
  destroy := destroy
  size := Header.size
  iterate := iterate

/-- What they do to sequences: new lists are numbered from the back, and copies
in order. -/
def seqOps : Movable.SeqOps (forwardLists T) where
  build := fromBack
  copy := LinkedList.numbered
  call := onSeq

theorem forwardLists_refine :
    Movable.Refines (M := forwardLists T) id (IsList (T := T)) (seqOps T) where
  init_eq := rfl
  alive h p hp := by
    obtain ⟨ls, v, r, rfl⟩ := exists_cut hp
    exact ⟨_, h.at⟩
  congr h := h.congr
  taken h := h
  left H _ := isList_none H
  construct H vs := by
    obtain ⟨hl, hw, hlen⟩ := ofList_seq H vs
    exact ⟨_, _, rfl, hl, hw, hlen.trans (congrArg _ (length_fromBack _ _).symm)⟩
  copyConstruct {H o fs} ho := by
    obtain ⟨H', l', hrun, hl, hw, hlen⟩ := ofCopy_seq ho
    refine ⟨H', l', hrun, hl, hw, hlen.trans ?_⟩
    exact congrArg _ ((LinkedList.length_numbered _ _).trans (List.length_map _)).symm
  copyAssign {H l o es fs} h ho hdis := by
    obtain ⟨H', l', hrun, hl, hw, hlen⟩ := copyAssign_seq h ho hdis
    refine ⟨H', l', hrun, hl, hw, hlen.trans ?_⟩
    exact congrArg _ ((LinkedList.length_numbered _ _).trans (List.length_map _)).symm
  call {H l es} h c := by
    rcases call_seq h c with ⟨hc, H', l', out, es', hrun, hseq, hl, hw⟩ | ⟨hc, hseq⟩
    · exact .inl ⟨H', l', es', out, (if_pos hc).trans hrun, hseq, hl, hw⟩
    · exact .inr ⟨if_neg hc, hseq⟩
  destroy {H l es} h := by
    obtain ⟨H', hrun, hw⟩ := clearNodes_spec h
    exact ⟨H', congrArg (Option.map Prod.fst) hrun, hw, length_clearNodes hrun⟩
  moveAssign H l o := by
    show moveAssign H l o = (destroy H l).map fun H' => (H', ofMove o)
    unfold ForwardList.moveAssign ForwardList.destroy
    cases clearNodes H l <;> rfl

theorem forwardLists_ownNodes :
    Movable.OwnsNodes (M := forwardLists T) id (IsList (T := T)) :=
  (forwardLists_refine T).ownsNodes fun h => IsList.iterate_eq h

theorem forwardLists_movesWellWhen :
    Movable.MovesWellWhen (forwardLists T) fun _ => True := by
  refine (forwardLists_ownNodes T).footed.movesWellWhen (fun H l => ⟨rfl, rfl⟩) fun H l => ?_
  have hread : iterate H Header.none = [] := (isList_none H).iterate_eq
  refine iff_true_intro ((Movable.usable_iff_size_eq_zero ?_ ?_ ?_).mpr rfl)
  · show (iterate H Header.none).reduceOption = []
    rw [hread]
    rfl
  · intro _
    exact hread
  · intro _ op
    rfl

end ForwardList

end Ycetl.Ref
