/-
  BTree/Reads.lean --- looking at a tree leaves the store as it is.

  Source: `quilldb/btree/cursor.py` and the searches of `quilldb/btree/index.py`.
-/
import QuillDb.BTree.Cursor
import QuillDb.BTree.Seek

set_option autoImplicit false

namespace QuillDb

open Prog PageStore

/-! ## Pages -/

theorem getPage_reads (id : Nat) : Reads (getPage id) :=
  Moves.state.bind fun _ => Moves.ite (Moves.pure _) (Moves.raise _)

theorem readBody_reads (id : Nat) : Reads (readBody id) := by
  refine (getPage_reads id).bind fun page => ?_
  cases page with
  | body b => exact Moves.pure b
  | link next content => exact Moves.raise _

theorem readChainFrom_reads (fuel : Nat) (visited : List Nat) (current remaining : Nat) :
    Reads (readChainFrom fuel visited current remaining) := by
  induction fuel generalizing visited current remaining with
  | zero => exact Moves.raise _
  | succ fuel ih =>
      rw [readChainFrom]
      refine Moves.ite (Moves.pure _) (Moves.ite (Moves.raise _) ?_)
      exact (getPage_reads current).bind fun page => (ih _ _ _).bind fun rest => Moves.pure _

theorem readPayload_reads (p : Payload) : Reads (readPayload p) := by
  rw [readPayload]
  refine Moves.ite (Moves.pure _) (Moves.bind ?_ fun rest => Moves.pure _)
  exact Moves.state.bind fun s => readChainFrom_reads _ _ _ _

/-! ## Index trees -/

theorem decodeKey_reads (p : Payload) : Reads (IndexBTree.decodeKey p) :=
  (readPayload_reads p).bind fun _ => Moves.lift _

theorem lowerBoundFrom_reads (cells : List Payload) (probe : List Value) (fuel lo hi : Nat) :
    Reads (IndexBTree.lowerBoundFrom cells probe fuel lo hi) := by
  induction fuel generalizing lo hi with
  | zero => exact Moves.pure _
  | succ fuel ih =>
      rw [IndexBTree.lowerBoundFrom]
      refine Moves.ite ((Moves.lift _).bind fun cell => ?_) (Moves.pure _)
      exact (decodeKey_reads cell).bind fun stored => Moves.ite (ih _ _) (ih _ _)

theorem findLeafFrom_reads (probe : List Value) (fuel pageId : Nat) (path : List (Nat × Nat)) :
    Reads (IndexBTree.findLeafFrom probe fuel pageId path) := by
  induction fuel generalizing pageId path with
  | zero => exact Moves.raise _
  | succ fuel ih =>
      refine (readBody_reads pageId).bind fun body => ?_
      cases body with
      | indexLeaf cells => exact (lowerBoundFrom_reads _ _ _ _ _).bind fun slot => Moves.pure _
      | indexInterior cells rightChild =>
          exact (lowerBoundFrom_reads _ _ _ _ _).bind fun slot => (Moves.lift _).bind fun child => ih _ _
      | tableLeaf cells => exact Moves.raise _
      | tableInterior cells rightChild => exact Moves.raise _

theorem findLeaf_reads (root : Nat) (probe : List Value) : Reads (IndexBTree.findLeaf root probe) :=
  Moves.state.bind fun _ => findLeafFrom_reads _ _ _ _

theorem descendLeftmostFrom_reads (fuel : Nat) (path : List (Nat × Nat)) (pageId : Nat) :
    Reads (IndexBTree.descendLeftmostFrom fuel path pageId) := by
  induction fuel generalizing pageId path with
  | zero => exact Moves.raise _
  | succ fuel ih =>
      refine (readBody_reads pageId).bind fun body => ?_
      cases body with
      | indexLeaf cells => exact Moves.pure _
      | indexInterior cells rightChild => exact (Moves.lift _).bind fun child => ih _ _
      | tableLeaf cells => exact Moves.raise _
      | tableInterior cells rightChild => exact Moves.raise _

theorem descendLeftmost_reads (path : List (Nat × Nat)) (pageId : Nat) :
    Reads (IndexBTree.descendLeftmost path pageId) :=
  Moves.state.bind fun _ => descendLeftmostFrom_reads _ _ _

theorem indexLeafCells_reads (id : Nat) : Reads (indexLeafCells id) := by
  refine (readBody_reads id).bind fun body => ?_
  cases body with
  | indexLeaf cells => exact Moves.pure _
  | indexInterior cells rightChild => exact Moves.raise _
  | tableLeaf cells => exact Moves.raise _
  | tableInterior cells rightChild => exact Moves.raise _

theorem indexInteriorCells_reads (id : Nat) : Reads (indexInteriorCells id) := by
  refine (readBody_reads id).bind fun body => ?_
  cases body with
  | indexInterior cells rightChild => exact Moves.pure _
  | indexLeaf cells => exact Moves.raise _
  | tableLeaf cells => exact Moves.raise _
  | tableInterior cells rightChild => exact Moves.raise _

theorem decodeKeys_reads (cells : List Payload) : Reads (IndexBTree.decodeKeys cells) := by
  induction cells with
  | nil => exact Moves.pure _
  | cons cell cells ih =>
      exact (decodeKey_reads cell).bind fun key => ih.bind fun keys => Moves.pure _

theorem ascend_reads (path : List (Nat × Nat)) : Reads (IndexBTree.ascend path) := by
  induction path with
  | nil => exact Moves.pure _
  | cons p above ih =>
      refine (indexInteriorCells_reads p.1).bind fun page => ?_
      obtain ⟨cells, rightChild⟩ := page
      dsimp only
      split
      · exact ih
      · refine (decodeKey_reads _).bind fun separator => (Moves.lift _).bind fun child => ?_
        exact (descendLeftmost_reads _ _).bind fun path => Moves.pure _

theorem scanForwardFrom_reads (fuel : Nat) (path : List (Nat × Nat)) :
    Reads (IndexBTree.scanForwardFrom fuel path) := by
  induction fuel generalizing path with
  | zero =>
      cases path with
      | nil => exact Moves.pure _
      | cons p above => exact Moves.raise _
  | succ fuel ih =>
      cases path with
      | nil => exact Moves.pure _
      | cons p above =>
          refine (indexLeafCells_reads p.1).bind fun cells => ?_
          refine (decodeKeys_reads _).bind fun keys => (ascend_reads above).bind fun next => ?_
          cases next with
          | none => exact Moves.pure _
          | some q => exact (ih q.2).bind fun rest => Moves.pure _

theorem scanForward_reads (path : List (Nat × Nat)) : Reads (IndexBTree.scanForward path) :=
  Moves.state.bind fun _ => scanForwardFrom_reads _ _

theorem seekEq_reads (root : Nat) (values : List Value) : Reads (IndexBTree.seekEq root values) := by
  refine (findLeaf_reads root values).bind fun path => ?_
  exact (scanForward_reads path).bind fun stored => Moves.pure _

theorem findConflict_reads (root : Nat) (values : List Value) :
    Reads (IndexBTree.findConflict root values) :=
  Moves.ite (Moves.pure _) ((seekEq_reads root values).bind fun _ => Moves.pure _)

/-! ## Cursors -/

namespace TableCursor

theorem descendToLeafFrom_reads (rightmost : Bool) (fuel : Nat) (path : CursorPath) (pageId : Nat) :
    Reads (descendToLeafFrom rightmost fuel path pageId) := by
  induction fuel generalizing path pageId with
  | zero => exact Moves.raise _
  | succ fuel ih =>
      refine (readBody_reads pageId).bind fun body => ?_
      cases body with
      | tableLeaf cells => exact Moves.ite (Moves.pure _) (Moves.pure _)
      | tableInterior cells rightChild => exact (Moves.lift _).bind fun child => ih _ _
      | indexLeaf cells => exact Moves.raise _
      | indexInterior cells rightChild => exact Moves.raise _

theorem descendToLeaf_reads (rightmost : Bool) (path : CursorPath) (pageId : Nat) :
    Reads (descendToLeaf rightmost path pageId) :=
  Moves.state.bind fun _ => descendToLeafFrom_reads _ _ _ _

theorem nextRowid_reads (root : Nat) : Reads (nextRowid root) := by
  refine (descendToLeaf_reads true [] root).bind fun path => ?_
  cases path with
  | nil => exact Moves.pure _
  | cons top above => exact (Moves.lift _).bind fun rowid => Moves.pure _

end TableCursor

end QuillDb
