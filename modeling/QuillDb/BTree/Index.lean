/-
  BTree/Index.lean --- the index b-tree.

  Source: `quilldb/btree/index.py`.

  The dividers of an index tree are entries, so a deletion may have to refill an
  interior cell, and an emptied page is merged with a sibling or refilled from it.
  A path is kept from its last page up to the root; a descent takes at most as
  many steps as there are pages.
-/
import QuillDb.BTree.Table
import QuillDb.BTree.Key

set_option autoImplicit false

namespace QuillDb

open Prog PageStore Fallible

/-! ## Pages of an index tree -/

/-- The cells of a leaf. -/
def indexLeafCells (pageId : Nat) : StoreM (List Payload) := do
  match ← readBody pageId with
  | .indexLeaf cells => return cells
  | _ => raise (.malformedCell "not an index leaf cell")

/-- The cells and the right child of an interior page. -/
def indexInteriorCells (pageId : Nat) : StoreM (List (InteriorCell Payload) × Nat) := do
  match ← readBody pageId with
  | .indexInterior cells rightChild => return (cells, rightChild)
  | _ => raise (.malformedCell "not an index interior cell")

/-- Indexing a list of cells. -/
def cellAt {α : Type} (cells : List α) (slot : Nat) : Except DbError α :=
  match cells[slot]? with
  | some cell => .ok cell
  | none => .error (.indexError "list index out of range")

theorem encodeInteriorIndexCell_ok {child : Nat} {p : Payload} {c : InteriorCell Payload}
    (h : encodeInteriorIndexCell child p = .ok c) : child < 2 ^ 32 ∧ c = ⟨child, p⟩ := by
  unfold encodeInteriorIndexCell at h
  obtain ⟨_, -, h⟩ := bind_eq_ok h
  obtain ⟨_, hchild, h⟩ := bind_eq_ok h
  obtain ⟨_, -, h⟩ := bind_eq_ok h
  obtain ⟨_, -, h⟩ := bind_eq_ok h
  exact ⟨(toBytes4_eq_ok hchild).1, (Except.ok.inj h).symm⟩

/-- The interior pages of an index tree. -/
def indexInteriorFormat : InteriorFormat Payload where
  body := .indexInterior
  keySize := Payload.size
  encode := encodeInteriorIndexCell
  cells
    | .indexInterior cells _ => .ok cells
    | _ => .error (.malformedCell "not an index interior cell")
  encode_ok := encodeInteriorIndexCell_ok
  cells_body := fun _ _ => rfl
  rightChild_body := fun _ _ => rfl
  cells_length := fun _ _ => List.length_map _
  usedBytes_body := by
    intro cs right
    have hsum : (cs.map (InteriorCell.footprint Payload.size)).sum =
        2 * (cs.map (InteriorCell.size Payload.size)).length +
          (cs.map (InteriorCell.size Payload.size)).sum := by
      induction cs with
      | nil => rfl
      | cons c cs ih =>
          simp only [List.map_cons, List.sum_cons, List.length_cons, InteriorCell.footprint] at ih ⊢
          omega
    rw [hsum]
    simp only [PageBody.usedBytes, PageBody.headerSize, PageBody.cellSizes]
    omega

/-- `_promote_separator`. -/
def promoteIndexSeparator : List (Nat × Nat) → Nat → Payload → Nat → StoreM Unit :=
  indexInteriorFormat.promoteSeparator

namespace IndexBTree

/-! ## Descents -/

/-- `_decode_key`. -/
def decodeKey (p : Payload) : StoreM (List Value) := do
  let payload ← readPayload p
  lift (decodeRecord payload 0)

/-- The binary search of `_leaf_lower_bound` and `_interior_slot`: the leftmost
index whose key is at least `probe`. -/
def lowerBoundFrom (cells : List Payload) (probe : List Value) : Nat → Nat → Nat → StoreM Nat
  | 0, lo, _ => return lo
  | fuel + 1, lo, hi =>
      if lo < hi then do
        let mid := (lo + hi) / 2
        let cell ← lift (cellAt cells mid)
        let stored ← decodeKey cell
        if compareKeys probe stored ≠ .gt then lowerBoundFrom cells probe fuel lo mid
        else lowerBoundFrom cells probe fuel (mid + 1) hi
      else return lo

/-- `_leaf_lower_bound`. -/
def leafLowerBound (cells : List Payload) (probe : List Value) : StoreM Nat :=
  lowerBoundFrom cells probe cells.length 0 cells.length

/-- `_interior_slot`: an equal separator goes left. -/
def interiorSlot (cells : List (InteriorCell Payload)) (probe : List Value) : StoreM Nat :=
  lowerBoundFrom (cells.map InteriorCell.key) probe cells.length 0 cells.length

/-- The descent of `_find_leaf` from a page, given the path above it. -/
def findLeafFrom (probe : List Value) : Nat → Nat → List (Nat × Nat) → StoreM (List (Nat × Nat))
  | 0, _, _ => raise (.btreeInvariant "the descent does not end")
  | fuel + 1, pageId, path => do
      match ← readBody pageId with
      | .indexLeaf cells =>
          let slot ← leafLowerBound cells probe
          return (pageId, slot) :: path
      | .indexInterior cells rightChild =>
          let slot ← interiorSlot cells probe
          let child ← lift (childAt (childrenOfInterior cells rightChild) slot)
          findLeafFrom probe fuel child ((pageId, slot) :: path)
      | _ => raise (.malformedCell "not an index interior cell")

/-- `_find_leaf`: the leaf and the insert slot first, the root last. -/
def findLeaf (root : Nat) (probe : List Value) : StoreM (List (Nat × Nat)) := do
  let s ← state
  findLeafFrom probe (s.pageCount + 1) root []

/-- The descent of `_locate` from a page, given the path above it. -/
def locateFrom (key : List Value) :
    Nat → Nat → List (Nat × Nat) → StoreM (Option (List (Nat × Nat)) × Bool)
  | 0, _, _ => raise (.btreeInvariant "the descent does not end")
  | fuel + 1, pageId, path => do
      match ← readBody pageId with
      | .indexLeaf cells =>
          let slot ← leafLowerBound cells key
          match cells[slot]? with
          | none => return (none, true)
          | some cell =>
              let found ← decodeKey cell
              if compareKeys found key = .eq then return (some ((pageId, slot) :: path), true)
              else return (none, true)
      | .indexInterior cells rightChild =>
          let slot ← interiorSlot cells key
          let matched ← (match cells[slot]? with
            | none => return false
            | some cell => do
                let separator ← decodeKey cell.key
                return compareKeys separator key = .eq : StoreM Bool)
          if matched then return (some ((pageId, slot) :: path), false)
          else
            let child ← lift (childAt (childrenOfInterior cells rightChild) slot)
            locateFrom key fuel child ((pageId, slot) :: path)
      | _ => raise (.malformedCell "not an index interior cell")

/-- `_locate`: the path to the entry, if there is one, and whether it ends in a
leaf. -/
def locate (root : Nat) (key : List Value) : StoreM (Option (List (Nat × Nat)) × Bool) := do
  let s ← state
  locateFrom key (s.pageCount + 1) root []

/-- `_rightmost_leaf_path`; the slot of a leaf is that of its last cell. -/
def rightmostLeafPathFrom : Nat → List (Nat × Nat) → Nat → StoreM (List (Nat × Nat))
  | 0, _, _ => raise (.btreeInvariant "the descent does not end")
  | fuel + 1, path, pageId => do
      match ← readBody pageId with
      | .indexLeaf cells => return (pageId, cells.length - 1) :: path
      | .indexInterior cells rightChild =>
          rightmostLeafPathFrom fuel ((pageId, cells.length) :: path) rightChild
      | _ => raise (.malformedCell "not an index interior cell")

def rightmostLeafPath (path : List (Nat × Nat)) (pageId : Nat) : StoreM (List (Nat × Nat)) := do
  let s ← state
  rightmostLeafPathFrom (s.pageCount + 1) path pageId

/-! ## Scans -/

/-- `_descend_leftmost`. -/
def descendLeftmostFrom : Nat → List (Nat × Nat) → Nat → StoreM (List (Nat × Nat))
  | 0, _, _ => raise (.btreeInvariant "the descent does not end")
  | fuel + 1, path, pageId => do
      match ← readBody pageId with
      | .indexLeaf _ => return (pageId, 0) :: path
      | .indexInterior cells rightChild =>
          let child ← lift (childAt (childrenOfInterior cells rightChild) 0)
          descendLeftmostFrom fuel ((pageId, 0) :: path) child
      | _ => raise (.malformedCell "not an index interior cell")

def descendLeftmost (path : List (Nat × Nat)) (pageId : Nat) : StoreM (List (Nat × Nat)) := do
  let s ← state
  descendLeftmostFrom (s.pageCount + 1) path pageId

/-- The keys of a leaf, in cell order. -/
def decodeKeys : List Payload → StoreM (List (List Value))
  | [] => return []
  | cell :: cells => do
      let key ← decodeKey cell
      let keys ← decodeKeys cells
      return key :: keys

/-- The ascent of `_scan_forward`: the first divider to the right of the path, and the
path to the leaf behind it. -/
def ascend : List (Nat × Nat) → StoreM (Option (List Value × List (Nat × Nat)))
  | [] => return none
  | (pageId, slot) :: above => do
      let (cells, rightChild) ← indexInteriorCells pageId
      match cells[slot]? with
      | none => ascend above
      | some cell =>
          let separator ← decodeKey cell.key
          let nextChild ← lift (childAt (childrenOfInterior cells rightChild) (slot + 1))
          let path ← descendLeftmost ((pageId, slot + 1) :: above) nextChild
          return some (separator, path)

/-- `_scan_forward`, which takes as many turns as there are leaves. -/
def scanForwardFrom : Nat → List (Nat × Nat) → StoreM (List (List Value))
  | _, [] => return []
  | 0, _ => raise (.btreeInvariant "the scan does not end")
  | fuel + 1, (leafPageId, leafSlot) :: above => do
      let cells ← indexLeafCells leafPageId
      let keys ← decodeKeys (cells.drop leafSlot)
      match ← ascend above with
      | none => return keys
      | some (separator, path) =>
          let rest ← scanForwardFrom fuel path
          return keys ++ separator :: rest

/-- `IndexBTree.scan`, drained: the keys with their rowids as last columns. -/
def scan (root : Nat) : StoreM (List (List Value)) := do
  let s ← state
  let path ← descendLeftmost [] root
  scanForwardFrom (s.pageCount + 1) path

/-! ## Insertion -/

/-- `_fits_one_leaf_index_page`. -/
def fitsOneLeafIndexPage (cells : List Payload) : Bool :=
  (PageBody.indexLeaf cells).usedBytes ≤ pageSize

/-- The parent of a leaf as `_split_leaf` reads it. -/
structure Parent where
  id : Nat
  childSlot : Nat
  cells : List (InteriorCell Payload)
  rightChild : Nat

/-- `path[-2]`, if there is one. -/
def readParent : List (Nat × Nat) → StoreM (Option Parent)
  | [] => return none
  | (id, childSlot) :: _ => do
      let (cells, rightChild) ← indexInteriorCells id
      return some ⟨id, childSlot, cells, rightChild⟩

/-- `is_rightmost`. -/
def Parent.isRightmost (p : Parent) : Bool := p.childSlot = p.cells.length

/-- The cells of a leaf that must split around a new entry: the last of the left
ones is taken out and goes up. -/
def chooseSplit (cells : List Payload) (keys : List (List Value)) (slot : Nat) (newCell : Payload)
    (key : List Value) (isRightmost : Bool) :
    Except DbError (List Payload × Payload × List Payload) := do
  let useAppendSplit := isRightmost && keys.getLast?.all fun last => compareKeys key last = .gt
  let (leftCells, rightCells, _) ← splitCells Payload.size (BTree.insertAt cells slot newCell)
    (BTree.insertAt keys slot key) useAppendSplit
  match leftCells.getLast? with
  | some promotedCell => return (leftCells.dropLast, promotedCell, rightCells)
  | none => .error (.indexError "pop from empty list")

/-- The pages of a split leaf are written, and the promoted entry goes up. -/
def writeSplit (pageId : Nat) (ancestors : List (Nat × Nat)) (parent : Option Parent)
    (leftCells : List Payload) (promoted : Payload) (rightCells : List Payload)
    (placeholderSeparator : InteriorCell Payload) : StoreM Unit := do
  let rightPageId ← allocatePage
  initBody rightPageId (.indexLeaf rightCells)
  let newLeftCell ← lift (encodeInteriorIndexCell pageId promoted)
  match parent with
  | none =>
      -- the root keeps its number and becomes interior
      let leftPageId ← allocatePage
      initBody leftPageId (.indexLeaf leftCells)
      let top ← lift (encodeInteriorIndexCell leftPageId promoted)
      writeBody pageId (.indexInterior [top] rightPageId)
  | some p =>
      writeBody pageId (.indexLeaf leftCells)
      if (PageBody.indexInterior p.cells p.rightChild).fits
          (placeholderSeparator.size Payload.size) then
        let placed ← lift (indexInteriorFormat.place p.cells p.rightChild p.childSlot newLeftCell
          rightPageId)
        writeBody p.id (.indexInterior placed.1 placed.2)
      else
        promoteIndexSeparator ancestors pageId promoted rightPageId

/-- `_split_leaf`. -/
def splitLeaf (pageId slot : Nat) (ancestors : List (Nat × Nat)) (key : List Value)
    (payload : Bytes) : StoreM Unit := do
  let parent ← readParent ancestors
  let cells ← indexLeafCells pageId
  let keys ← decodeKeys cells
  let newCell ← lift (encodeLeafIndexCell (placeholder .leafIndex payload))
  let (leftCells, promotedCell, rightCells) ←
    lift (chooseSplit cells keys slot newCell key (parent.all Parent.isRightmost))
  raiseIf (leftCells = []) (.pageFull
    ("cannot split this index leaf: promoting its separator would leave the left " ++
      "page empty -- needs three-way rebalancing, unimplemented"))
  raiseIf (¬ (fitsOneLeafIndexPage leftCells ∧ fitsOneLeafIndexPage rightCells)) (.pageFull
    ("cannot split this index leaf: a key is too large to fit on either side of a " ++
      "two-way split next to its neighbors -- needs three-way rebalancing, unimplemented"))
  let placeholderSeparator ← lift (encodeInteriorIndexCell pageId
    { promotedCell with overflow := if promotedCell.overflow ≠ 0 then 1 else 0 })
  if spills .leafIndex payload then
    let stored ← spillPayload .leafIndex payload
    let realCell ← lift (encodeLeafIndexCell stored)
    let promotedIndex := leftCells.length
    if slot < promotedIndex then
      writeSplit pageId ancestors parent (leftCells.set slot realCell) promotedCell rightCells
        placeholderSeparator
    else if slot = promotedIndex then
      writeSplit pageId ancestors parent leftCells realCell rightCells placeholderSeparator
    else
      writeSplit pageId ancestors parent leftCells promotedCell
        (rightCells.set (slot - promotedIndex - 1) realCell) placeholderSeparator
  else
    writeSplit pageId ancestors parent leftCells promotedCell rightCells placeholderSeparator

/-- `IndexBTree.insert`. -/
def insert (root : Nat) (values : List Value) (rowid : Int) : StoreM Unit := do
  let key := values ++ [.int rowid]
  let payload ← lift (encodeIndexKey values rowid)
  match ← findLeaf root key with
  | [] => raise (.indexError "list index out of range")
  | (pageId, slot) :: ancestors =>
      let cells ← indexLeafCells pageId
      let candidate ← lift (encodeLeafIndexCell (placeholder .leafIndex payload))
      if (PageBody.indexLeaf cells).fits candidate.size then
        let stored ← spillPayload .leafIndex payload
        let cell ← lift (encodeLeafIndexCell stored)
        writeBody pageId (.indexLeaf (BTree.insertAt cells slot cell))
      else
        splitLeaf pageId slot ancestors key payload

/-! ## Emptied pages -/

/-- The parent cell between an emptied page and the sibling it turns to, the next
one if there is one. -/
structure Donor where
  donorSlot : Nat
  siblingSlot : Nat
  prepend : Bool

def chooseDonor (childSlot count : Nat) : Donor :=
  if childSlot < count then ⟨childSlot, childSlot + 1, true⟩ else ⟨count - 1, count - 1, false⟩

/-- The sibling with the divider in it, and the size of the cell that came down. -/
def mergeBody (emptied sibling : PageBody) (divider : Payload) (prepend : Bool) :
    Except DbError (Nat × PageBody) :=
  match emptied, sibling with
  | .indexLeaf _, .indexLeaf cells => do
      let descending ← encodeLeafIndexCell divider
      return (descending.size,
        .indexLeaf (if prepend then descending :: cells else cells ++ [descending]))
  | .indexInterior _ onlyChild, .indexInterior cells rightChild => do
      let descending ← encodeInteriorIndexCell (if prepend then onlyChild else rightChild) divider
      return (descending.size Payload.size,
        if prepend then .indexInterior (descending :: cells) rightChild
        else .indexInterior (cells ++ [descending]) onlyChild)
  | _, _ => .error (.malformedCell "not an index interior cell")

/-- The emptied page with the divider in it, the sibling without its entry next to
the divider, and that entry. -/
structure Rotation where
  refilled : PageBody
  sibling : PageBody
  borrowed : Payload

def rotateBody (emptied sibling : PageBody) (divider : Payload) (prepend : Bool) :
    Except DbError Rotation :=
  match emptied, sibling with
  | .indexLeaf _, .indexLeaf cells => do
      let borrowSlot := if prepend then 0 else cells.length - 1
      let borrowed ← cellAt cells borrowSlot
      let refilled ← encodeLeafIndexCell divider
      return ⟨.indexLeaf [refilled], .indexLeaf (cells.eraseIdx borrowSlot), borrowed⟩
  | .indexInterior _ onlyChild, .indexInterior cells rightChild => do
      let borrowSlot := if prepend then 0 else cells.length - 1
      let borrowed ← cellAt cells borrowSlot
      let refilled ← encodeInteriorIndexCell (if prepend then onlyChild else rightChild) divider
      if prepend then
        return ⟨.indexInterior [refilled] borrowed.child,
          .indexInterior (cells.eraseIdx borrowSlot) rightChild, borrowed.key⟩
      else
        return ⟨.indexInterior [refilled] onlyChild,
          .indexInterior (cells.eraseIdx borrowSlot) borrowed.child, borrowed.key⟩
  | _, _ => .error (.malformedCell "not an index interior cell")

/-- `_pull_up_into_root`. -/
def pullUpIntoRoot (root childPageId : Nat) : StoreM Unit := do
  let promoted ← readBody childPageId
  initBody root promoted
  freePage childPageId

/-- `_rebalance`: the first page of the path has no cells. -/
def rebalance (root : Nat) : List (Nat × Nat) → StoreM Unit
  | [] => raise (.indexError "list index out of range")
  | (pageId, _) :: above => do
      let body ← readBody pageId
      match above with
      | [] =>
          if body.pageType ≠ .leafIndex ∧ body.rightChild ≠ 0 then
            pullUpIntoRoot root body.rightChild
      | (parentPageId, childSlot) :: ancestors =>
          let (cells, rightChild) ← indexInteriorCells parentPageId
          if cells = [] then return ()
          else
            let donor := chooseDonor childSlot cells.length
            let siblingId ← lift (childAt (childrenOfInterior cells rightChild) donor.siblingSlot)
            let divider ← lift (cellAt cells donor.donorSlot)
            let preferRotation := cells.length = 1 ∧ parentPageId ≠ root
            let sibling ← readBody siblingId
            let (size, merged) ← lift (mergeBody body sibling divider.key donor.prepend)
            let canRotate := 2 ≤ sibling.cellSizes.length
            if sibling.fits size ∧ ¬ (preferRotation ∧ canRotate) then
              writeBody siblingId merged
              let remaining := cells.eraseIdx donor.donorSlot
              writeBody parentPageId
                (.indexInterior remaining (if donor.prepend then rightChild else siblingId))
              freePage pageId
              if remaining = [] then rebalance root ((parentPageId, childSlot) :: ancestors)
            else if canRotate then
              let rotation ← lift (rotateBody body sibling divider.key donor.prepend)
              writeBody siblingId rotation.sibling
              initBody pageId rotation.refilled
              let cell ← lift (encodeInteriorIndexCell divider.child rotation.borrowed)
              writeBody parentPageId (.indexInterior (cells.set donor.donorSlot cell) rightChild)

/-! ## Deletion -/

/-- `_replace_divider_with_predecessor`; the entry is in the first page of the
path. -/
def replaceDividerWithPredecessor (root : Nat) : List (Nat × Nat) → StoreM Unit
  | [] => raise (.indexError "list index out of range")
  | (pageId, slot) :: ancestors => do
      let (cells, rightChild) ← indexInteriorCells pageId
      let divider ← lift (cellAt cells slot)
      match ← rightmostLeafPath ((pageId, slot) :: ancestors) divider.child with
      | [] => raise (.indexError "list index out of range")
      | (leafPageId, leafSlot) :: above =>
          let leaf ← indexLeafCells leafPageId
          raiseIf (leaf = []) (.btreeInvariant
            (s!"page {leafPageId}: the left subtree of the divider on page {pageId} " ++
              "ends in an empty leaf, so it has no predecessor to promote"))
          let promoted ← lift (cellAt leaf leafSlot)
          let replacement ← lift (encodeInteriorIndexCell divider.child promoted)
          let swapped := PageBody.indexInterior (cells.set slot replacement) rightChild
          raiseIf (pageSize < swapped.usedBytes) (.pageFull
            ("cannot delete this index divider: its replacement key is longer and page " ++
              s!"{pageId} has no room -- needs interior rebalancing, unimplemented"))
          writeBody pageId swapped
          let remaining := leaf.eraseIdx leafSlot
          writeBody leafPageId (.indexLeaf remaining)
          if divider.key.overflow ≠ 0 then freeOverflowChain divider.key.overflow
          if remaining = [] then rebalance root ((leafPageId, leafSlot) :: above)

/-- `IndexBTree.delete`. -/
def delete (root : Nat) (values : List Value) (rowid : Int) : StoreM Bool := do
  match ← locate root (values ++ [.int rowid]) with
  | (none, _) => return false
  | (some path, false) =>
      replaceDividerWithPredecessor root path
      return true
  | (some [], true) => raise (.indexError "list index out of range")
  | (some ((leafPageId, leafSlot) :: ancestors), true) =>
      let cells ← indexLeafCells leafPageId
      let cell ← lift (cellAt cells leafSlot)
      let remaining := cells.eraseIdx leafSlot
      writeBody leafPageId (.indexLeaf remaining)
      if cell.overflow ≠ 0 then freeOverflowChain cell.overflow
      if remaining = [] then rebalance root ((leafPageId, leafSlot) :: ancestors)
      return true

end IndexBTree

end QuillDb
