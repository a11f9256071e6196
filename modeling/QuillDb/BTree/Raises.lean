/-
  BTree/Raises.lean --- no operation on pages speaks of a UNIQUE index.

  Source: `quilldb/storage/bufferpool.py`, `quilldb/storage/overflow.py`,
  `quilldb/codec/record.py`, `quilldb/btree/btree.py`, `quilldb/btree/index.py`,
  `quilldb/btree/cursor.py`.

  So a `UniqueViolationError` can only come from the checks made before a write.
-/
import QuillDb.BTree.Grows
import QuillDb.Lib.Raises

set_option autoImplicit false

namespace QuillDb

open Prog PageStore Fallible

/-- Any exception but `UniqueViolationError`. -/
def DbError.Ordinary : DbError → Prop
  | uniqueViolation _ _ => False
  | _ => True

/-! ## Codecs -/

theorem toBytes4_fails (n : Nat) : Fails DbError.Ordinary (toBytes4 n) :=
  Fails.ite (Fails.ok _) (Fails.error trivial)

theorem checkUvarint_fails (n : Nat) : Fails DbError.Ordinary (checkUvarint n) :=
  Fails.ite (Fails.ok _) (Fails.error trivial)

theorem requireValidSplit_fails (pageType : PageType) (p : Payload) :
    Fails DbError.Ordinary (requireValidSplit pageType p) :=
  Fails.ite (Fails.error trivial) (Fails.ite (Fails.error trivial) (Fails.ok _))

theorem encodeLeafTableCell_fails (rowid : Int) (p : Payload) :
    Fails DbError.Ordinary (encodeLeafTableCell rowid p) := by
  apply (requireValidSplit_fails _ _).bind
  intro _
  apply (checkUvarint_fails _).bind
  intro _
  exact (toBytes4_fails _).bind fun _ => Fails.pure _

theorem encodeInteriorTableCell_fails (child : Nat) (rowid : Int) :
    Fails DbError.Ordinary (encodeInteriorTableCell child rowid) :=
  (toBytes4_fails _).bind fun _ => Fails.pure _

theorem encodeLeafIndexCell_fails (p : Payload) : Fails DbError.Ordinary (encodeLeafIndexCell p) := by
  apply (requireValidSplit_fails _ _).bind
  intro _
  apply (checkUvarint_fails _).bind
  intro _
  exact (toBytes4_fails _).bind fun _ => Fails.pure _

theorem encodeInteriorIndexCell_fails (child : Nat) (p : Payload) :
    Fails DbError.Ordinary (encodeInteriorIndexCell child p) := by
  apply (requireValidSplit_fails _ _).bind
  intro _
  apply (toBytes4_fails _).bind
  intro _
  apply (checkUvarint_fails _).bind
  intro _
  exact (toBytes4_fails _).bind fun _ => Fails.pure _

theorem encodeUvarint_fails (value : Nat) : Fails DbError.Ordinary (encodeUvarint value) :=
  Fails.ite (Fails.error trivial) (Fails.ite (Fails.ok _) (Fails.ite (Fails.ok _) (Fails.ok _)))

theorem decodeGroups_fails (data : Bytes) (offset n result consumed : Nat) :
    Fails DbError.Ordinary (decodeGroups data offset n result consumed) := by
  induction n generalizing result consumed with
  | zero =>
      rw [decodeGroups]
      split
      · exact Fails.error trivial
      · exact Fails.ok _
  | succ n ih =>
      rw [decodeGroups]
      split
      · exact Fails.error trivial
      · exact Fails.ite (Fails.ok _) (ih _ _)

theorem serialTypeFor_fails (v : Value) : Fails DbError.Ordinary (serialTypeFor v) := by
  cases v with
  | int n =>
      refine Fails.ite (Fails.ok _) ?_
      refine Fails.ite (Fails.ok _) ?_
      split
      · exact Fails.ok _
      · exact Fails.error trivial
  | null => exact Fails.ok _
  | real bits => exact Fails.ok _
  | text s => exact Fails.ok _
  | blob data => exact Fails.ok _

theorem headerSizeFrom_fails (typesLength fuel headerSize : Nat) :
    Fails DbError.Ordinary (headerSizeFrom typesLength fuel headerSize) := by
  induction fuel generalizing headerSize with
  | zero => exact Fails.error trivial
  | succ fuel ih => exact (encodeUvarint_fails _).bind fun enc => Fails.ite (Fails.pure _) (ih _)

theorem encodeRecord_fails (values : List Value) : Fails DbError.Ordinary (encodeRecord values) := by
  apply (Fails.mapM serialTypeFor_fails values).bind
  intro pairs
  apply (Fails.mapM (fun p => encodeUvarint_fails p.1) pairs).bind
  intro typeVarints
  apply (headerSizeFrom_fails _ _ _).bind
  intro headerSize
  exact (encodeUvarint_fails _).bind fun header => Fails.pure _

theorem bodyLength_fails (serialType : Nat) : Fails DbError.Ordinary (bodyLength serialType) := by
  refine Fails.ite (Fails.ok _) ?_
  split
  · exact Fails.ok _
  · refine Fails.ite (Fails.ok _) ?_
    exact Fails.ite (Fails.error trivial) (Fails.ite (Fails.ok _) (Fails.ok _))

theorem fromUtf8_fails (data : Bytes) : Fails DbError.Ordinary (fromUtf8 data) := by
  unfold fromUtf8
  split
  · exact Fails.ok _
  · exact Fails.error trivial

theorem decodeBody_fails (serialType : Nat) (body : Bytes) :
    Fails DbError.Ordinary (decodeBody serialType body) := by
  refine Fails.ite (Fails.ok _) ?_
  refine Fails.ite (Fails.ok _) ?_
  exact Fails.ite (Fails.ok _) ((fromUtf8_fails _).bind fun s => Fails.pure _)

theorem decodeValue_fails (serialType : Nat) (data : Bytes) (offset : Nat) :
    Fails DbError.Ordinary (decodeValue serialType data offset) := by
  refine Fails.ite (Fails.ok _) ?_
  refine Fails.ite (Fails.ok _) ?_
  refine Fails.ite (Fails.ok _) ?_
  apply (bodyLength_fails _).bind
  intro length
  exact Fails.ite (Fails.error trivial) ((decodeBody_fails _ _).bind fun value => Fails.pure _)

theorem decodeTypes_fails (data : Bytes) (bodyStart fuel pos : Nat) :
    Fails DbError.Ordinary (decodeTypes data bodyStart fuel pos) := by
  induction fuel generalizing pos with
  | zero => exact Fails.error trivial
  | succ fuel ih =>
      refine Fails.ite ?_ ?_
      · exact (decodeGroups_fails _ _ _ _ _).bind fun p => (ih _).bind fun types => Fails.pure _
      · exact Fails.ite (Fails.error trivial) (Fails.ok _)

theorem decodeValues_fails (data : Bytes) (serialTypes : List Nat) (offset : Nat) :
    Fails DbError.Ordinary (decodeValues data serialTypes offset) := by
  induction serialTypes generalizing offset with
  | nil => exact Fails.ok _
  | cons serialType serialTypes ih =>
      exact (decodeValue_fails _ _ _).bind fun p => (ih _).bind fun values => Fails.pure _

theorem decodeRecord_fails (data : Bytes) (offset : Nat) :
    Fails DbError.Ordinary (decodeRecord data offset) := by
  apply (decodeGroups_fails _ _ _ _ _).bind
  intro p
  exact (decodeTypes_fails _ _ _ _).bind fun types => decodeValues_fails _ _ _

/-! ## Pages and chains -/

theorem getPage_raises (id : Nat) : Raises DbError.Ordinary (getPage id) :=
  Raises.state.bind fun _ => Raises.ite (Raises.pure _) (Raises.raise trivial)

theorem readBody_raises (id : Nat) : Raises DbError.Ordinary (readBody id) := by
  apply (getPage_raises id).bind
  intro page
  cases page with
  | body b => exact Raises.pure b
  | link next content => exact Raises.raise trivial

theorem writeBody_raises (id : Nat) (b : PageBody) : Raises DbError.Ordinary (writeBody id b) :=
  (Raises.raiseIf _ (by trivial)).bind fun _ => (Raises.lift (toBytes4_fails _)).bind fun _ => Raises.update _

theorem initBody_raises (id : Nat) (b : PageBody) : Raises DbError.Ordinary (initBody id b) :=
  (getPage_raises id).bind fun _ => writeBody_raises id b

theorem allocatePage_raises : Raises DbError.Ordinary allocatePage := by
  refine Raises.state.bind fun s => ?_
  refine Raises.ite ?_ ?_
  · exact (getPage_raises _).bind fun page => (Raises.update _).bind fun _ => Raises.pure _
  · exact (Raises.update _).bind fun _ => Raises.pure _

theorem freePage_raises (id : Nat) : Raises DbError.Ordinary (freePage id) := by
  refine (Raises.raiseIf _ (by trivial)).bind fun _ => ?_
  refine Raises.state.bind fun s => ?_
  refine (Raises.raiseIf _ (by trivial)).bind fun _ => ?_
  apply (getPage_raises id).bind
  intro _
  exact (Raises.lift (toBytes4_fails _)).bind fun _ => Raises.update _

theorem allocatePages_raises (n : Nat) : Raises DbError.Ordinary (allocatePages n) := by
  induction n with
  | zero => exact Raises.pure _
  | succ n ih => exact allocatePage_raises.bind fun id => ih.bind fun ids => Raises.pure _

theorem fillChain_raises (ids : List Nat) (data : Bytes) : Raises DbError.Ordinary (fillChain ids data) := by
  induction ids generalizing data with
  | nil => exact Raises.pure _
  | cons id ids ih =>
      apply (getPage_raises id).bind
      intro _
      exact (Raises.lift (toBytes4_fails _)).bind fun _ => (Raises.update _).bind fun _ => ih _

theorem spillPayload_raises (pageType : PageType) (payload : Bytes) :
    Raises DbError.Ordinary (spillPayload pageType payload) := by
  refine Raises.bind (Raises.ite ?_ (Raises.pure _)) fun overflow => Raises.pure _
  refine (Raises.raiseIf _ (by trivial)).bind fun _ => ?_
  exact (allocatePages_raises _).bind fun ids => (fillChain_raises ids _).bind fun _ => Raises.pure _

theorem readChainFrom_raises (fuel : Nat) (visited : List Nat) (current remaining : Nat) :
    Raises DbError.Ordinary (readChainFrom fuel visited current remaining) := by
  induction fuel generalizing visited current remaining with
  | zero => exact Raises.raise trivial
  | succ fuel ih =>
      rw [readChainFrom]
      refine Raises.ite (Raises.pure _) ?_
      refine Raises.ite (Raises.raise trivial) ?_
      exact (getPage_raises current).bind fun page => (ih _ _ _).bind fun rest => Raises.pure _

theorem readPayload_raises (p : Payload) : Raises DbError.Ordinary (readPayload p) := by
  rw [readPayload]
  refine Raises.ite (Raises.pure _) ?_
  refine Raises.bind ?_ fun rest => Raises.pure _
  exact Raises.state.bind fun s => readChainFrom_raises _ _ _ _

/-! ## Cuts -/

theorem splitCells_fails {α κ : Type} (size : α → Nat) (cells : List α) (keys : List κ) (isRightmost : Bool) :
    Fails DbError.Ordinary (splitCells size cells keys isRightmost) := by
  refine Fails.ite (Fails.error trivial) ?_
  dsimp only
  split
  · exact Fails.ok _
  · exact Fails.error trivial

theorem splitInteriorCells_fails {κ : Type} (keySize : κ → Nat) (cells : List (InteriorCell κ))
    (rightChild : Nat) (isRightmost : Bool) :
    Fails DbError.Ordinary (splitInteriorCells keySize cells rightChild isRightmost) := by
  refine Fails.ite (Fails.error trivial) ?_
  dsimp only
  split
  · exact Fails.ok _
  · exact Fails.error trivial

theorem childAt_fails (children : List Nat) (slot : Nat) : Fails DbError.Ordinary (childAt children slot) := by
  unfold childAt
  split
  · exact Fails.ok _
  · exact Fails.error trivial

theorem cellAt_fails {α : Type} (cells : List α) (slot : Nat) : Fails DbError.Ordinary (cellAt cells slot) := by
  unfold cellAt
  split
  · exact Fails.ok _
  · exact Fails.error trivial

/-- The two kinds of interior pages. -/
structure InteriorFormat.Plain {κ : Type} (fmt : InteriorFormat κ) : Prop where
  encode : ∀ child key, Fails DbError.Ordinary (fmt.encode child key)
  cells : ∀ body, Fails DbError.Ordinary (fmt.cells body)

theorem tableInteriorFormat_plain : tableInteriorFormat.Plain where
  encode := encodeInteriorTableCell_fails
  cells := by
    intro body
    cases body with
    | tableInterior cells rightChild => exact Fails.ok _
    | tableLeaf cells => exact Fails.error trivial
    | indexLeaf cells => exact Fails.error trivial
    | indexInterior cells rightChild => exact Fails.error trivial

theorem indexInteriorFormat_plain : indexInteriorFormat.Plain where
  encode := encodeInteriorIndexCell_fails
  cells := by
    intro body
    cases body with
    | indexInterior cells rightChild => exact Fails.ok _
    | tableLeaf cells => exact Fails.error trivial
    | indexLeaf cells => exact Fails.error trivial
    | tableInterior cells rightChild => exact Fails.error trivial

namespace InteriorFormat

variable {κ : Type} {fmt : InteriorFormat κ}

theorem Plain.place (h : fmt.Plain) (cells : List (InteriorCell κ)) (oldRight childSlot : Nat)
    (newLeftCell : InteriorCell κ) (rightChild : Nat) :
    Fails DbError.Ordinary (fmt.place cells oldRight childSlot newLeftCell rightChild) := by
  refine Fails.ite (Fails.ok _) ?_
  split
  · exact Fails.error trivial
  · exact (h.encode _ _).bind fun rewritten => Fails.pure _

theorem Plain.promoteSeparator (h : fmt.Plain) (path : List (Nat × Nat)) (left : Nat) (separator : κ)
    (right : Nat) : Raises DbError.Ordinary (fmt.promoteSeparator path left separator right) := by
  induction path generalizing left separator right with
  | nil => exact Raises.raise trivial
  | cons p ancestors ih =>
      rw [InteriorFormat.promoteSeparator]
      apply (readBody_raises p.1).bind
      intro body
      apply (Raises.lift (h.cells _)).bind
      intro cells
      apply (Raises.lift (h.encode _ _)).bind
      intro newLeftCell
      apply (Raises.lift (h.place _ _ _ _ _)).bind
      intro combined
      refine Raises.ite (writeBody_raises _ _) ?_
      apply (Raises.lift (splitInteriorCells_fails _ _ _ _)).bind
      intro split
      apply allocatePage_raises.bind
      intro newRight
      apply (initBody_raises _ _).bind
      intro _
      cases ancestors with
      | nil =>
          apply allocatePage_raises.bind
          intro newLeft
          apply (initBody_raises _ _).bind
          intro _
          exact (Raises.lift (h.encode _ _)).bind fun top => writeBody_raises _ _
      | cons above further => exact (writeBody_raises _ _).bind fun _ => ih _ _ _

end InteriorFormat

/-! ## Table trees -/

namespace BTree

theorem leafCells_raises (id : Nat) : Raises DbError.Ordinary (leafCells id) := by
  apply (readBody_raises id).bind
  intro body
  cases body with
  | tableLeaf cells => exact Raises.pure _
  | tableInterior cells rightChild => exact Raises.raise trivial
  | indexLeaf cells => exact Raises.raise trivial
  | indexInterior cells rightChild => exact Raises.raise trivial

theorem interiorCells_raises (id : Nat) : Raises DbError.Ordinary (interiorCells id) := by
  apply (readBody_raises id).bind
  intro body
  cases body with
  | tableInterior cells rightChild => exact Raises.pure _
  | tableLeaf cells => exact Raises.raise trivial
  | indexLeaf cells => exact Raises.raise trivial
  | indexInterior cells rightChild => exact Raises.raise trivial

theorem findLeafFrom_raises (rowid : Int) (fuel pageId : Nat) (path : List (Nat × Nat)) :
    Raises DbError.Ordinary (findLeafFrom rowid fuel pageId path) := by
  induction fuel generalizing pageId path with
  | zero => exact Raises.raise trivial
  | succ fuel ih =>
      apply (readBody_raises pageId).bind
      intro body
      cases body with
      | tableLeaf cells => exact Raises.pure _
      | tableInterior cells rightChild => exact (Raises.lift (childAt_fails _ _)).bind fun child => ih _ _
      | indexLeaf cells => exact Raises.raise trivial
      | indexInterior cells rightChild => exact Raises.raise trivial

theorem readParent_raises (ancestors : List (Nat × Nat)) : Raises DbError.Ordinary (readParent ancestors) := by
  cases ancestors with
  | nil => exact Raises.pure none
  | cons p above => exact (interiorCells_raises p.1).bind fun page => Raises.pure _

theorem writeSplit_raises (pageId : Nat) (ancestors : List (Nat × Nat)) (parent : Option Parent)
    (leftCells rightCells : List TableLeafCell) (separator : Int) :
    Raises DbError.Ordinary (writeSplit pageId ancestors parent leftCells rightCells separator) := by
  cases parent with
  | none =>
      apply allocatePage_raises.bind
      intro rightPageId
      apply (initBody_raises _ _).bind
      intro _
      apply allocatePage_raises.bind
      intro leftPageId
      apply (initBody_raises _ _).bind
      intro _
      exact (Raises.lift (encodeInteriorTableCell_fails _ _)).bind fun top => writeBody_raises _ _
  | some p =>
      apply (Raises.lift (encodeInteriorTableCell_fails _ _)).bind
      intro newLeftCell
      apply allocatePage_raises.bind
      intro rightPageId
      apply (initBody_raises _ _).bind
      intro _
      apply (writeBody_raises _ _).bind
      intro _
      apply Raises.ite
      · exact (Raises.lift (tableInteriorFormat_plain.place _ _ _ _ _)).bind fun placed => writeBody_raises _ _
      · exact tableInteriorFormat_plain.promoteSeparator _ _ _ _

theorem splitLeaf_raises (pageId slot : Nat) (ancestors : List (Nat × Nat)) (rowid : Int) (payload : Bytes) :
    Raises DbError.Ordinary (splitLeaf pageId slot ancestors rowid payload) := by
  apply (readParent_raises ancestors).bind
  intro parent
  apply (leafCells_raises pageId).bind
  intro cells
  apply (Raises.lift (encodeLeafTableCell_fails _ _)).bind
  intro newCell
  apply (Raises.lift (splitCells_fails _ _ _ _)).bind
  rintro ⟨leftCells, rightCells, separator⟩
  refine (Raises.raiseIf _ (by trivial)).bind fun _ => ?_
  refine Raises.ite ?_ (writeSplit_raises _ _ _ _ _ _)
  apply (spillPayload_raises _ _).bind
  intro stored
  apply (Raises.lift (encodeLeafTableCell_fails _ _)).bind
  intro realCell
  exact Raises.ite (writeSplit_raises _ _ _ _ _ _) (writeSplit_raises _ _ _ _ _ _)

theorem insert_raises (root : Nat) (rowid : Int) (payload : Bytes) :
    Raises DbError.Ordinary (insert root rowid payload) := by
  apply (Raises.state.bind fun _ => findLeafFrom_raises _ _ _ _).bind
  intro path
  cases path with
  | nil => exact Raises.raise trivial
  | cons top ancestors =>
      apply (leafCells_raises top.1).bind
      intro cells
      refine (Raises.raiseIf _ (by trivial)).bind fun _ => ?_
      apply (Raises.lift (encodeLeafTableCell_fails _ _)).bind
      intro candidate
      refine Raises.ite ?_ (splitLeaf_raises _ _ _ _ _)
      apply (spillPayload_raises _ _).bind
      intro stored
      exact (Raises.lift (encodeLeafTableCell_fails _ _)).bind fun cell => writeBody_raises _ _

end BTree

/-! ## Index trees -/

theorem indexLeafCells_raises (id : Nat) : Raises DbError.Ordinary (indexLeafCells id) := by
  apply (readBody_raises id).bind
  intro body
  cases body with
  | indexLeaf cells => exact Raises.pure _
  | indexInterior cells rightChild => exact Raises.raise trivial
  | tableLeaf cells => exact Raises.raise trivial
  | tableInterior cells rightChild => exact Raises.raise trivial

theorem indexInteriorCells_raises (id : Nat) : Raises DbError.Ordinary (indexInteriorCells id) := by
  apply (readBody_raises id).bind
  intro body
  cases body with
  | indexInterior cells rightChild => exact Raises.pure _
  | indexLeaf cells => exact Raises.raise trivial
  | tableLeaf cells => exact Raises.raise trivial
  | tableInterior cells rightChild => exact Raises.raise trivial

namespace IndexBTree

theorem decodeKey_raises (p : Payload) : Raises DbError.Ordinary (decodeKey p) :=
  (readPayload_raises p).bind fun _ => Raises.lift (decodeRecord_fails _ _)

theorem decodeKeys_raises (cells : List Payload) : Raises DbError.Ordinary (decodeKeys cells) := by
  induction cells with
  | nil => exact Raises.pure _
  | cons cell cells ih =>
      exact (decodeKey_raises cell).bind fun key => ih.bind fun keys => Raises.pure _

theorem lowerBoundFrom_raises (cells : List Payload) (probe : List Value) (fuel lo hi : Nat) :
    Raises DbError.Ordinary (lowerBoundFrom cells probe fuel lo hi) := by
  induction fuel generalizing lo hi with
  | zero => exact Raises.pure _
  | succ fuel ih =>
      rw [lowerBoundFrom]
      refine Raises.ite ?_ (Raises.pure _)
      apply (Raises.lift (cellAt_fails _ _)).bind
      intro cell
      exact (decodeKey_raises cell).bind fun stored => Raises.ite (ih _ _) (ih _ _)

theorem findLeafFrom_raises (probe : List Value) (fuel pageId : Nat) (path : List (Nat × Nat)) :
    Raises DbError.Ordinary (findLeafFrom probe fuel pageId path) := by
  induction fuel generalizing pageId path with
  | zero => exact Raises.raise trivial
  | succ fuel ih =>
      apply (readBody_raises pageId).bind
      intro body
      cases body with
      | indexLeaf cells => exact (lowerBoundFrom_raises _ _ _ _ _).bind fun slot => Raises.pure _
      | indexInterior cells rightChild =>
          apply (lowerBoundFrom_raises _ _ _ _ _).bind
          intro slot
          exact (Raises.lift (childAt_fails _ _)).bind fun child => ih _ _
      | tableLeaf cells => exact Raises.raise trivial
      | tableInterior cells rightChild => exact Raises.raise trivial

theorem readParent_raises (ancestors : List (Nat × Nat)) : Raises DbError.Ordinary (readParent ancestors) := by
  cases ancestors with
  | nil => exact Raises.pure _
  | cons p above => exact (indexInteriorCells_raises p.1).bind fun page => Raises.pure _

theorem chooseSplit_fails (cells : List Payload) (keys : List (List Value)) (slot : Nat) (newCell : Payload)
    (key : List Value) (isRightmost : Bool) :
    Fails DbError.Ordinary (chooseSplit cells keys slot newCell key isRightmost) := by
  apply (splitCells_fails _ _ _ _).bind
  intro halves
  obtain ⟨leftCells, rightCells, separator⟩ := halves
  dsimp only
  split
  · exact Fails.pure _
  · exact Fails.error trivial

theorem writeSplit_raises (pageId : Nat) (ancestors : List (Nat × Nat)) (parent : Option Parent)
    (leftCells : List Payload) (promoted : Payload) (rightCells : List Payload)
    (placeholderSeparator : InteriorCell Payload) : Raises DbError.Ordinary
      (writeSplit pageId ancestors parent leftCells promoted rightCells placeholderSeparator) := by
  apply allocatePage_raises.bind
  intro right
  apply (initBody_raises _ _).bind
  intro _
  apply (Raises.lift (encodeInteriorIndexCell_fails _ _)).bind
  intro newLeftCell
  cases parent with
  | none =>
      apply allocatePage_raises.bind
      intro left
      apply (initBody_raises _ _).bind
      intro _
      exact (Raises.lift (encodeInteriorIndexCell_fails _ _)).bind fun top => writeBody_raises _ _
  | some p =>
      apply (writeBody_raises _ _).bind
      intro _
      refine Raises.ite ?_ ?_
      · exact (Raises.lift (indexInteriorFormat_plain.place _ _ _ _ _)).bind fun placed => writeBody_raises _ _
      · exact indexInteriorFormat_plain.promoteSeparator _ _ _ _

theorem splitLeaf_raises (pageId slot : Nat) (ancestors : List (Nat × Nat)) (key : List Value)
    (payload : Bytes) : Raises DbError.Ordinary (splitLeaf pageId slot ancestors key payload) := by
  apply (readParent_raises ancestors).bind
  intro parent
  apply (indexLeafCells_raises pageId).bind
  intro cells
  apply (decodeKeys_raises cells).bind
  intro keys
  apply (Raises.lift (encodeLeafIndexCell_fails _)).bind
  intro newCell
  apply (Raises.lift (chooseSplit_fails _ _ _ _ _ _)).bind
  intro cut
  refine (Raises.raiseIf _ (by trivial)).bind fun _ => ?_
  refine (Raises.raiseIf _ (by trivial)).bind fun _ => ?_
  apply (Raises.lift (encodeInteriorIndexCell_fails _ _)).bind
  intro separator
  refine Raises.ite ?_ (writeSplit_raises _ _ _ _ _ _ _)
  apply (spillPayload_raises _ _).bind
  intro stored
  apply (Raises.lift (encodeLeafIndexCell_fails _)).bind
  intro realCell
  refine Raises.ite (writeSplit_raises _ _ _ _ _ _ _) ?_
  exact Raises.ite (writeSplit_raises _ _ _ _ _ _ _) (writeSplit_raises _ _ _ _ _ _ _)

theorem insert_raises (root : Nat) (values : List Value) (rowid : Int) :
    Raises DbError.Ordinary (insert root values rowid) := by
  apply (Raises.lift (encodeRecord_fails _)).bind
  intro payload
  apply (Raises.state.bind fun _ => findLeafFrom_raises _ _ _ _).bind
  intro path
  cases path with
  | nil => exact Raises.raise trivial
  | cons top ancestors =>
      apply (indexLeafCells_raises top.1).bind
      intro cells
      apply (Raises.lift (encodeLeafIndexCell_fails _)).bind
      intro candidate
      refine Raises.ite ?_ (splitLeaf_raises _ _ _ _ _)
      apply (spillPayload_raises _ _).bind
      intro stored
      exact (Raises.lift (encodeLeafIndexCell_fails _)).bind fun cell => writeBody_raises _ _

end IndexBTree

/-! ## Cursors -/

namespace TableCursor

theorem descendToLeafFrom_raises (rightmost : Bool) (fuel : Nat) (path : CursorPath) (pageId : Nat) :
    Raises DbError.Ordinary (descendToLeafFrom rightmost fuel path pageId) := by
  induction fuel generalizing path pageId with
  | zero => exact Raises.raise trivial
  | succ fuel ih =>
      apply (readBody_raises pageId).bind
      intro body
      cases body with
      | tableLeaf cells => exact Raises.ite (Raises.pure _) (Raises.pure _)
      | tableInterior cells rightChild => exact (Raises.lift (childAt_fails _ _)).bind fun child => ih _ _
      | indexLeaf cells => exact Raises.raise trivial
      | indexInterior cells rightChild => exact Raises.raise trivial

theorem descendToLeaf_raises (rightmost : Bool) (path : CursorPath) (pageId : Nat) :
    Raises DbError.Ordinary (descendToLeaf rightmost path pageId) :=
  Raises.state.bind fun _ => descendToLeafFrom_raises _ _ _ _

theorem advance_raises (path : CursorPath) : Raises DbError.Ordinary (advance path) := by
  induction path with
  | nil => exact Raises.pure _
  | cons top above ih =>
      obtain ⟨pageId, slot, body⟩ := top
      cases body with
      | tableInterior cells rightChild =>
          rw [advance]
          split
          · exact descendToLeaf_raises _ _ _
          · exact ih
      | tableLeaf cells => exact ih
      | indexLeaf cells => exact ih
      | indexInterior cells rightChild => exact ih

theorem next_raises (path : CursorPath) : Raises DbError.Ordinary (next path) := by
  cases path with
  | nil => exact Raises.pure _
  | cons top above => exact Raises.ite (Raises.pure _) (advance_raises _)

theorem cell_fails (path : CursorPath) : Fails DbError.Ordinary (cell path) := by
  cases path with
  | nil => exact Fails.error trivial
  | cons top above =>
      obtain ⟨pageId, slot, body⟩ := top
      cases body with
      | tableLeaf cells =>
          rw [cell]
          split
          · exact Fails.ok _
          · exact Fails.error trivial
      | tableInterior cells rightChild => exact Fails.error trivial
      | indexLeaf cells => exact Fails.error trivial
      | indexInterior cells rightChild => exact Fails.error trivial

theorem rowid_fails (path : CursorPath) : Fails DbError.Ordinary (rowid path) := by
  have hcell := cell_fails path
  unfold rowid
  cases h : cell path with
  | ok c => exact Fails.ok _
  | error e => exact Fails.error (hcell e h)

theorem eachFrom_raises {α : Type} {visit : Int → Bytes → StoreM α}
    (hvisit : ∀ rowid payload, Raises DbError.Ordinary (visit rowid payload)) (fuel : Nat) (path : CursorPath) :
    Raises DbError.Ordinary (eachFrom visit fuel path) := by
  induction fuel generalizing path with
  | zero =>
      cases path with
      | nil => exact Raises.pure _
      | cons top above => exact Raises.raise trivial
  | succ fuel ih =>
      cases path with
      | nil => exact Raises.pure _
      | cons top above =>
          apply ((Raises.lift (cell_fails _)).bind fun cell => readPayload_raises _).bind
          intro payload
          apply (Raises.lift (rowid_fails _)).bind
          intro rowid
          apply (hvisit _ _).bind
          intro a
          exact (next_raises _).bind fun path => (ih path).bind fun rest => Raises.pure _

theorem each_raises {α : Type} {visit : Int → Bytes → StoreM α}
    (hvisit : ∀ rowid payload, Raises DbError.Ordinary (visit rowid payload)) (root : Nat) :
    Raises DbError.Ordinary (each root visit) :=
  (descendToLeaf_raises _ _ _).bind fun _ => Raises.state.bind fun _ => eachFrom_raises hvisit _ _

end TableCursor

end QuillDb
