/-
  BTree/Grows.lean --- no operation takes pages away from the file.

  Source: `quilldb/storage/bufferpool.py`, `quilldb/storage/overflow.py`,
  `quilldb/btree/btree.py`, `quilldb/btree/index.py`.

  So a file whose page count fits the header at a commit has had page numbers of
  four bytes all along.
-/
import QuillDb.BTree.Reads

set_option autoImplicit false

namespace QuillDb

open Prog PageStore

/-- `s'` has at least as many pages. -/
def Larger (s s' : PageStore) : Prop := s.pageCount ≤ s'.pageCount

instance : Progress Larger := ⟨fun _ => Nat.le_refl _, Nat.le_trans⟩

/-- `m` takes no page away. -/
abbrev Grows {α : Type} (m : StoreM α) : Prop := Moves Larger m

/-! ## Pages and chains -/

theorem set_grows (id : Nat) (c : PageContent) :
    Grows (update (·.set id c) : StoreM Unit) :=
  Moves.update fun _ => Nat.le_refl _

theorem writeBody_grows (id : Nat) (b : PageBody) : Grows (writeBody id b) :=
  (Moves.raiseIf _ _).bind fun _ => (Moves.lift _).bind fun _ => set_grows _ _

theorem initBody_grows (id : Nat) (b : PageBody) : Grows (initBody id b) :=
  (Moves.of_reads (getPage_reads id)).bind fun _ => writeBody_grows id b

theorem allocatePage_grows : Grows allocatePage := by
  refine Moves.state.bind fun s => Moves.ite ?_ ?_
  · refine (Moves.of_reads (getPage_reads _)).bind fun page => ?_
    exact Moves.bind (Moves.update fun s => Nat.le_refl s.pageCount) fun _ => Moves.pure _
  · exact Moves.bind (Moves.update fun s => Nat.le_succ s.pageCount) fun _ => Moves.pure _

theorem freePage_grows (id : Nat) : Grows (freePage id) := by
  refine (Moves.raiseIf _ _).bind fun _ => Moves.state.bind fun s => (Moves.raiseIf _ _).bind fun _ => ?_
  refine (Moves.of_reads (getPage_reads _)).bind fun page => (Moves.lift _).bind fun _ => ?_
  exact Moves.update fun _ => Nat.le_refl _

theorem allocatePages_grows (n : Nat) : Grows (allocatePages n) := by
  induction n with
  | zero => exact Moves.pure _
  | succ n ih => exact allocatePage_grows.bind fun id => ih.bind fun ids => Moves.pure _

theorem fillChain_grows (ids : List Nat) (data : Bytes) : Grows (fillChain ids data) := by
  induction ids generalizing data with
  | nil => exact Moves.pure _
  | cons id ids ih =>
      refine (Moves.of_reads (getPage_reads id)).bind fun _ => (Moves.lift _).bind fun _ => ?_
      exact (set_grows _ _).bind fun _ => ih _

theorem spillPayload_grows (pageType : PageType) (payload : Bytes) :
    Grows (spillPayload pageType payload) := by
  refine Moves.bind (Moves.ite ?_ (Moves.pure _)) fun overflow => Moves.pure _
  refine Moves.bind (Moves.raiseIf _ _) fun _ => (allocatePages_grows _).bind fun ids => ?_
  exact (fillChain_grows ids _).bind fun _ => Moves.pure _

theorem freeChainFrom_grows (fuel : Nat) (visited : List Nat) (current : Nat) :
    Grows (freeChainFrom fuel visited current) := by
  induction fuel generalizing visited current with
  | zero => exact Moves.raise _
  | succ fuel ih =>
      refine Moves.ite (Moves.pure _) (Moves.ite (Moves.raise _) ?_)
      refine (Moves.of_reads (getPage_reads current)).bind fun page => ?_
      exact (freePage_grows current).bind fun _ => ih _ _

theorem freeOverflowChain_grows (first : Nat) : Grows (freeOverflowChain first) :=
  Moves.state.bind fun _ => freeChainFrom_grows _ _ _

theorem InteriorFormat.promoteSeparator_grows {κ : Type} (fmt : InteriorFormat κ)
    (path : List (Nat × Nat)) (left : Nat) (separator : κ) (right : Nat) :
    Grows (fmt.promoteSeparator path left separator right) := by
  induction path generalizing left separator right with
  | nil => exact Moves.raise _
  | cons p ancestors ih =>
      rw [promoteSeparator]
      refine (Moves.of_reads (readBody_reads p.1)).bind fun body => (Moves.lift _).bind fun cells => ?_
      refine (Moves.lift _).bind fun newLeftCell => (Moves.lift _).bind fun combined => ?_
      refine Moves.ite (writeBody_grows _ _) ?_
      refine (Moves.lift _).bind fun split => allocatePage_grows.bind fun newRight => ?_
      refine (initBody_grows _ _).bind fun _ => ?_
      cases ancestors with
      | nil =>
          refine allocatePage_grows.bind fun newLeft => (initBody_grows _ _).bind fun _ => ?_
          exact (Moves.lift _).bind fun top => writeBody_grows _ _
      | cons above further => exact (writeBody_grows _ _).bind fun _ => ih _ _ _

/-! ## Table trees -/

theorem leafCells_reads (id : Nat) : Reads (leafCells id) := by
  refine (readBody_reads id).bind fun body => ?_
  cases body with
  | tableLeaf cells => exact Moves.pure _
  | tableInterior cells rightChild => exact Moves.raise _
  | indexLeaf cells => exact Moves.raise _
  | indexInterior cells rightChild => exact Moves.raise _

theorem interiorCells_reads (id : Nat) : Reads (interiorCells id) := by
  refine (readBody_reads id).bind fun body => ?_
  cases body with
  | tableInterior cells rightChild => exact Moves.pure _
  | tableLeaf cells => exact Moves.raise _
  | indexLeaf cells => exact Moves.raise _
  | indexInterior cells rightChild => exact Moves.raise _

namespace BTree

theorem findLeafFrom_reads (rowid : Int) (fuel pageId : Nat) (path : List (Nat × Nat)) :
    Reads (findLeafFrom rowid fuel pageId path) := by
  induction fuel generalizing pageId path with
  | zero => exact Moves.raise _
  | succ fuel ih =>
      refine (readBody_reads pageId).bind fun body => ?_
      cases body with
      | tableLeaf cells => exact Moves.pure _
      | tableInterior cells rightChild => exact (Moves.lift _).bind fun child => ih _ _
      | indexLeaf cells => exact Moves.raise _
      | indexInterior cells rightChild => exact Moves.raise _

theorem findLeaf_reads (root : Nat) (rowid : Int) : Reads (findLeaf root rowid) :=
  Moves.state.bind fun _ => findLeafFrom_reads _ _ _ _

theorem readParent_reads (ancestors : List (Nat × Nat)) : Reads (readParent ancestors) := by
  cases ancestors with
  | nil => exact Moves.pure _
  | cons p above => exact (interiorCells_reads p.1).bind fun page => Moves.pure _

theorem writeSplit_grows (pageId : Nat) (ancestors : List (Nat × Nat)) (parent : Option Parent)
    (leftCells rightCells : List TableLeafCell) (separator : Int) :
    Grows (writeSplit pageId ancestors parent leftCells rightCells separator) := by
  cases parent with
  | none =>
      refine allocatePage_grows.bind fun right => (initBody_grows _ _).bind fun _ => ?_
      refine allocatePage_grows.bind fun left => (initBody_grows _ _).bind fun _ => ?_
      exact (Moves.lift _).bind fun top => writeBody_grows _ _
  | some p =>
      refine (Moves.lift _).bind fun newLeftCell => allocatePage_grows.bind fun right => ?_
      refine (initBody_grows _ _).bind fun _ => (writeBody_grows _ _).bind fun _ => Moves.ite ?_ ?_
      · exact (Moves.lift _).bind fun placed => writeBody_grows _ _
      · exact tableInteriorFormat.promoteSeparator_grows _ _ _ _

theorem splitLeaf_grows (pageId slot : Nat) (ancestors : List (Nat × Nat)) (rowid : Int)
    (payload : Bytes) : Grows (splitLeaf pageId slot ancestors rowid payload) := by
  refine (Moves.of_reads (readParent_reads ancestors)).bind fun parent => ?_
  refine (Moves.of_reads (leafCells_reads pageId)).bind fun cells => (Moves.lift _).bind fun newCell => ?_
  refine (Moves.lift _).bind fun halves => (Moves.raiseIf _ _).bind fun _ => Moves.ite ?_ ?_
  · refine (spillPayload_grows _ _).bind fun stored => (Moves.lift _).bind fun realCell => ?_
    exact Moves.ite (writeSplit_grows _ _ _ _ _ _) (writeSplit_grows _ _ _ _ _ _)
  · exact writeSplit_grows _ _ _ _ _ _

theorem insert_grows (root : Nat) (rowid : Int) (payload : Bytes) : Grows (insert root rowid payload) := by
  refine (Moves.of_reads (findLeaf_reads root rowid)).bind fun path => ?_
  cases path with
  | nil => exact Moves.raise _
  | cons top ancestors =>
      refine (Moves.of_reads (leafCells_reads top.1)).bind fun cells => (Moves.raiseIf _ _).bind fun _ => ?_
      refine (Moves.lift _).bind fun candidate => Moves.ite ?_ (splitLeaf_grows _ _ _ _ _)
      refine (spillPayload_grows _ _).bind fun stored => (Moves.lift _).bind fun cell => ?_
      exact writeBody_grows _ _

theorem unlinkChild_grows (path : List (Nat × Nat)) (childToFree : Nat) :
    Grows (unlinkChild path childToFree) := by
  induction path generalizing childToFree with
  | nil => exact Moves.raise _
  | cons p ancestors ih =>
      refine (Moves.of_reads (interiorCells_reads p.1)).bind fun page => ?_
      obtain ⟨cells, rightChild⟩ := page
      dsimp only
      split
      · exact (writeBody_grows _ _).bind fun _ => (freePage_grows _).bind fun _ =>
          Moves.ite (Moves.pure _) (ih _)
      · exact (writeBody_grows _ _).bind fun _ => (freePage_grows _).bind fun _ =>
          Moves.ite (Moves.pure _) (ih _)

theorem delete_grows (root : Nat) (rowid : Int) : Grows (delete root rowid) := by
  refine (Moves.of_reads (findLeaf_reads root rowid)).bind fun path => ?_
  cases path with
  | nil => exact Moves.raise _
  | cons top ancestors =>
      refine (Moves.of_reads (leafCells_reads top.1)).bind fun cells => ?_
      dsimp only
      split
      · exact Moves.pure _
      · refine Moves.ite (Moves.pure _) ((writeBody_grows _ _).bind fun _ => ?_)
        exact Moves.guard (freeOverflowChain_grows _) (Moves.guard (unlinkChild_grows _ _) (Moves.pure _))

end BTree

/-! ## Index trees -/

namespace IndexBTree

theorem readParent_reads (ancestors : List (Nat × Nat)) : Reads (readParent ancestors) := by
  cases ancestors with
  | nil => exact Moves.pure _
  | cons p above => exact (indexInteriorCells_reads p.1).bind fun page => Moves.pure _

theorem locateFrom_reads (key : List Value) (fuel pageId : Nat) (path : List (Nat × Nat)) :
    Reads (locateFrom key fuel pageId path) := by
  induction fuel generalizing pageId path with
  | zero => exact Moves.raise _
  | succ fuel ih =>
      refine (readBody_reads pageId).bind fun body => ?_
      cases body with
      | indexLeaf cells =>
          refine (lowerBoundFrom_reads _ _ _ _ _).bind fun slot => ?_
          split
          · exact Moves.pure _
          · exact (decodeKey_reads _).bind fun found => Moves.ite (Moves.pure _) (Moves.pure _)
      | indexInterior cells rightChild =>
          refine (lowerBoundFrom_reads _ _ _ _ _).bind fun slot => Moves.bind ?_ fun found => ?_
          · split
            · exact Moves.pure _
            · exact (decodeKey_reads _).bind fun separator => Moves.pure _
          · exact Moves.ite (Moves.pure _) ((Moves.lift _).bind fun child => ih _ _)
      | tableLeaf cells => exact Moves.raise _
      | tableInterior cells rightChild => exact Moves.raise _

theorem locate_reads (root : Nat) (key : List Value) : Reads (locate root key) :=
  Moves.state.bind fun _ => locateFrom_reads _ _ _ _

theorem rightmostLeafPathFrom_reads (fuel : Nat) (path : List (Nat × Nat)) (pageId : Nat) :
    Reads (rightmostLeafPathFrom fuel path pageId) := by
  induction fuel generalizing path pageId with
  | zero => exact Moves.raise _
  | succ fuel ih =>
      refine (readBody_reads pageId).bind fun body => ?_
      cases body with
      | indexLeaf cells => exact Moves.pure _
      | indexInterior cells rightChild => exact ih _ _
      | tableLeaf cells => exact Moves.raise _
      | tableInterior cells rightChild => exact Moves.raise _

theorem rightmostLeafPath_reads (path : List (Nat × Nat)) (pageId : Nat) :
    Reads (rightmostLeafPath path pageId) :=
  Moves.state.bind fun _ => rightmostLeafPathFrom_reads _ _ _

theorem writeSplit_grows (pageId : Nat) (ancestors : List (Nat × Nat)) (parent : Option Parent)
    (leftCells : List Payload) (promoted : Payload) (rightCells : List Payload)
    (placeholderSeparator : InteriorCell Payload) :
    Grows (writeSplit pageId ancestors parent leftCells promoted rightCells placeholderSeparator) := by
  refine allocatePage_grows.bind fun right => (initBody_grows _ _).bind fun _ => ?_
  refine (Moves.lift _).bind fun newLeftCell => ?_
  cases parent with
  | none =>
      refine allocatePage_grows.bind fun left => (initBody_grows _ _).bind fun _ => ?_
      exact (Moves.lift _).bind fun top => writeBody_grows _ _
  | some p =>
      refine (writeBody_grows _ _).bind fun _ => Moves.ite ?_ ?_
      · exact (Moves.lift _).bind fun placed => writeBody_grows _ _
      · exact indexInteriorFormat.promoteSeparator_grows _ _ _ _

theorem splitLeaf_grows (pageId slot : Nat) (ancestors : List (Nat × Nat)) (key : List Value)
    (payload : Bytes) : Grows (splitLeaf pageId slot ancestors key payload) := by
  refine (Moves.of_reads (readParent_reads ancestors)).bind fun parent => ?_
  refine (Moves.of_reads (indexLeafCells_reads pageId)).bind fun cells => ?_
  refine (Moves.of_reads (decodeKeys_reads cells)).bind fun keys => (Moves.lift _).bind fun newCell => ?_
  refine (Moves.lift _).bind fun cut => (Moves.raiseIf _ _).bind fun _ => ?_
  refine (Moves.raiseIf _ _).bind fun _ => (Moves.lift _).bind fun separator => ?_
  refine Moves.ite ?_ (writeSplit_grows _ _ _ _ _ _ _)
  refine (spillPayload_grows _ _).bind fun stored => (Moves.lift _).bind fun realCell => ?_
  refine Moves.ite (writeSplit_grows _ _ _ _ _ _ _) ?_
  exact Moves.ite (writeSplit_grows _ _ _ _ _ _ _) (writeSplit_grows _ _ _ _ _ _ _)

theorem insert_grows (root : Nat) (values : List Value) (rowid : Int) :
    Grows (insert root values rowid) := by
  refine (Moves.lift _).bind fun payload => (Moves.of_reads (findLeaf_reads root _)).bind fun path => ?_
  cases path with
  | nil => exact Moves.raise _
  | cons top ancestors =>
      refine (Moves.of_reads (indexLeafCells_reads top.1)).bind fun cells => ?_
      refine (Moves.lift _).bind fun candidate => Moves.ite ?_ (splitLeaf_grows _ _ _ _ _)
      refine (spillPayload_grows _ _).bind fun stored => (Moves.lift _).bind fun cell => ?_
      exact writeBody_grows _ _

theorem pullUpIntoRoot_grows (root childPageId : Nat) : Grows (pullUpIntoRoot root childPageId) := by
  refine (Moves.of_reads (readBody_reads childPageId)).bind fun promoted => ?_
  exact (initBody_grows _ _).bind fun _ => freePage_grows _

theorem rebalance_grows (root : Nat) (path : List (Nat × Nat)) : Grows (rebalance root path) := by
  induction path with
  | nil => exact Moves.raise _
  | cons p above ih =>
      rw [rebalance]
      refine (Moves.of_reads (readBody_reads p.1)).bind fun body => ?_
      cases above with
      | nil => exact Moves.ite (pullUpIntoRoot_grows _ _) (Moves.pure _)
      | cons parent ancestors =>
          refine (Moves.of_reads (indexInteriorCells_reads parent.1)).bind fun page => ?_
          obtain ⟨cells, rightChild⟩ := page
          refine Moves.ite (Moves.pure _) ((Moves.lift _).bind fun siblingId => ?_)
          refine (Moves.lift _).bind fun divider => ?_
          refine (Moves.of_reads (readBody_reads siblingId)).bind fun sibling => ?_
          refine (Moves.lift _).bind fun merged => Moves.ite ?_ (Moves.ite ?_ (Moves.pure _))
          · refine (writeBody_grows _ _).bind fun _ => (writeBody_grows _ _).bind fun _ => ?_
            exact (freePage_grows _).bind fun _ => Moves.ite ih (Moves.pure _)
          · refine (Moves.lift _).bind fun rotation => (writeBody_grows _ _).bind fun _ => ?_
            refine (initBody_grows _ _).bind fun _ => (Moves.lift _).bind fun cell => ?_
            exact writeBody_grows _ _

theorem replaceDividerWithPredecessor_grows (root : Nat) (path : List (Nat × Nat)) :
    Grows (replaceDividerWithPredecessor root path) := by
  cases path with
  | nil => exact Moves.raise _
  | cons p ancestors =>
      refine (Moves.of_reads (indexInteriorCells_reads p.1)).bind fun page => ?_
      refine (Moves.lift _).bind fun divider => ?_
      refine (Moves.of_reads (rightmostLeafPath_reads _ _)).bind fun path => ?_
      cases path with
      | nil => exact Moves.raise _
      | cons q above =>
          refine (Moves.of_reads (indexLeafCells_reads q.1)).bind fun leaf => ?_
          refine (Moves.raiseIf _ _).bind fun _ => (Moves.lift _).bind fun promoted => ?_
          refine (Moves.lift _).bind fun replacement => (Moves.raiseIf _ _).bind fun _ => ?_
          refine (writeBody_grows _ _).bind fun _ => (writeBody_grows _ _).bind fun _ => ?_
          exact Moves.guard (freeOverflowChain_grows _) (Moves.ite (rebalance_grows _ _) (Moves.pure _))

theorem delete_grows (root : Nat) (values : List Value) (rowid : Int) :
    Grows (delete root values rowid) := by
  refine (Moves.of_reads (locate_reads root _)).bind fun spot => ?_
  obtain ⟨_ | path, inLeaf⟩ := spot
  · exact Moves.pure _
  · cases inLeaf with
    | false => exact (replaceDividerWithPredecessor_grows _ _).bind fun _ => Moves.pure _
    | true =>
        cases path with
        | nil => exact Moves.raise _
        | cons p ancestors =>
            refine (Moves.of_reads (indexLeafCells_reads p.1)).bind fun cells => ?_
            refine (Moves.lift _).bind fun cell => (writeBody_grows _ _).bind fun _ => ?_
            exact Moves.guard (freeOverflowChain_grows _) (Moves.guard (rebalance_grows _ _) (Moves.pure _))

end IndexBTree

/-! ## Cursors -/

namespace TableCursor

theorem advance_reads (path : CursorPath) : Reads (advance path) := by
  induction path with
  | nil => exact Moves.pure _
  | cons top above ih =>
      obtain ⟨pageId, slot, body⟩ := top
      cases body with
      | tableInterior cells rightChild =>
          rw [advance]
          split
          · exact descendToLeaf_reads _ _ _
          · exact ih
      | tableLeaf cells => exact ih
      | indexLeaf cells => exact ih
      | indexInterior cells rightChild => exact ih

theorem next_reads (path : CursorPath) : Reads (next path) := by
  cases path with
  | nil => exact Moves.pure _
  | cons top above => exact Moves.ite (Moves.pure _) (advance_reads _)

theorem eachFrom_moves {α : Type} {R : PageStore → PageStore → Prop} [Progress R] {visit : Int → Bytes → StoreM α}
    (hvisit : ∀ rowid payload, Moves R (visit rowid payload)) (fuel : Nat) (path : CursorPath) :
    Moves R (eachFrom visit fuel path) := by
  induction fuel generalizing path with
  | zero =>
      cases path with
      | nil => exact Moves.pure _
      | cons top above => exact Moves.raise _
  | succ fuel ih =>
      cases path with
      | nil => exact Moves.pure _
      | cons top above =>
          refine ((Moves.lift _).bind fun cell => Moves.of_reads (readPayload_reads _)).bind fun payload => ?_
          refine (Moves.lift _).bind fun rowid => (hvisit _ _).bind fun a => ?_
          exact (Moves.of_reads (next_reads _)).bind fun path => (ih path).bind fun rest => Moves.pure _

/-- A loop over a table moves as its turns do. -/
theorem each_moves {α : Type} {R : PageStore → PageStore → Prop} [Progress R] {visit : Int → Bytes → StoreM α}
    (hvisit : ∀ rowid payload, Moves R (visit rowid payload)) (root : Nat) : Moves R (each root visit) :=
  (Moves.of_reads (descendToLeaf_reads _ _ _)).bind fun _ =>
    Moves.state.bind fun _ => eachFrom_moves hvisit _ _

end TableCursor

end QuillDb
