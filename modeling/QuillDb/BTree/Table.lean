/-
  BTree/Table.lean --- the table b-tree.

  Source: `quilldb/btree/btree.py`, `quilldb/btree/search.py`.

  A path is kept from the leaf up to the root.  A descent takes at most as many
  steps as there are pages; a longer one would revisit a page and never end, which
  is an exception here.
-/
import QuillDb.BTree.Promote
import QuillDb.BTree.Stored

set_option autoImplicit false

namespace QuillDb

open Prog PageStore

/-! ## Searching one page (`search.py`) -/

/-- `binary_search_leaf`. -/
def binarySearchLeaf (cells : List TableLeafCell) (key : Int) : Option Nat :=
  BinarySearch.find TableLeafCell.rowid key cells cells.length 0 cells.length

/-- `interior_slot_for_key`: an equal separator goes left. -/
def interiorSlotForKey (cells : List (InteriorCell Int)) (key : Int) : Nat :=
  BinarySearch.lowerBound (fun c => decide (key ≤ c.key)) cells

/-- `leaf_slot_lower_bound`. -/
def leafSlotLowerBound (cells : List TableLeafCell) (key : Int) : Nat :=
  BinarySearch.lowerBound (fun c => decide (key ≤ c.rowid)) cells

/-- `children_of_interior`. -/
def childrenOfInterior {κ : Type} (cells : List (InteriorCell κ)) (rightChild : Nat) : List Nat :=
  cells.map InteriorCell.child ++ [rightChild]

/-- Indexing a list of children. -/
def childAt (children : List Nat) (slot : Nat) : Except DbError Nat :=
  match children[slot]? with
  | some child => .ok child
  | none => .error (.indexError "list index out of range")

/-! ## Pages of a table tree -/

/-- The cells of a leaf. -/
def leafCells (pageId : Nat) : StoreM (List TableLeafCell) := do
  match ← readBody pageId with
  | .tableLeaf cells => return cells
  | _ => raise (.malformedCell "not a table leaf cell")

/-- The cells and the right child of an interior page. -/
def interiorCells (pageId : Nat) : StoreM (List (InteriorCell Int) × Nat) := do
  match ← readBody pageId with
  | .tableInterior cells rightChild => return (cells, rightChild)
  | _ => raise (.malformedCell "not a table interior cell")

/-- The interior pages of a table tree. -/
def tableInteriorFormat : InteriorFormat Int where
  body := .tableInterior
  keySize := rowidSize
  encode := encodeInteriorTableCell
  cells
    | .tableInterior cells _ => .ok cells
    | _ => .error (.malformedCell "not a table interior cell")
  encode_ok := by
    intro child key c h
    unfold encodeInteriorTableCell toBytes4 at h
    split at h
    · exact ⟨‹_›, (Except.ok.inj h).symm⟩
    · cases h
  cells_body := fun _ _ => rfl
  rightChild_body := fun _ _ => rfl
  cells_length := fun _ _ => List.length_map _
  usedBytes_body := by
    intro cs right
    have hsum : (cs.map (InteriorCell.footprint rowidSize)).sum =
        2 * (cs.map (InteriorCell.size rowidSize)).length +
          (cs.map (InteriorCell.size rowidSize)).sum := by
      induction cs with
      | nil => rfl
      | cons c cs ih =>
          simp only [List.map_cons, List.sum_cons, List.length_cons, InteriorCell.footprint] at ih ⊢
          omega
    rw [hsum]
    simp only [PageBody.usedBytes, PageBody.headerSize, PageBody.cellSizes]
    omega

/-- `_promote_separator`. -/
def promoteTableSeparator : List (Nat × Nat) → Nat → Int → Nat → StoreM Unit :=
  tableInteriorFormat.promoteSeparator

namespace BTree

/-! ## Descents -/

def searchFrom (key : Int) : Nat → Nat → StoreM (Option (Nat × Nat))
  | 0, _ => raise (.btreeInvariant "the descent does not end")
  | fuel + 1, pageId => do
      match ← readBody pageId with
      | .tableLeaf cells => return (binarySearchLeaf cells key).map fun slot => (pageId, slot)
      | .tableInterior cells rightChild =>
          let child ← lift (childAt (childrenOfInterior cells rightChild)
            (interiorSlotForKey cells key))
          searchFrom key fuel child
      | _ => raise (.malformedCell "not a table interior cell")

/-- `BTree.search`: the page and the slot of the row. -/
def search (root : Nat) (key : Int) : StoreM (Option (Nat × Nat)) := do
  let s ← state
  searchFrom key (s.pageCount + 1) root

/-- The descent of `_find_leaf` from a page, given the path above it. -/
def findLeafFrom (rowid : Int) : Nat → Nat → List (Nat × Nat) → StoreM (List (Nat × Nat))
  | 0, _, _ => raise (.btreeInvariant "the descent does not end")
  | fuel + 1, pageId, path => do
      match ← readBody pageId with
      | .tableLeaf cells => return (pageId, leafSlotLowerBound cells rowid) :: path
      | .tableInterior cells rightChild =>
          let childSlot := interiorSlotForKey cells rowid
          let child ← lift (childAt (childrenOfInterior cells rightChild) childSlot)
          findLeafFrom rowid fuel child ((pageId, childSlot) :: path)
      | _ => raise (.malformedCell "not a table interior cell")

/-- `_find_leaf`: the leaf and the insert slot first, the root last. -/
def findLeaf (root : Nat) (rowid : Int) : StoreM (List (Nat × Nat)) := do
  let s ← state
  findLeafFrom rowid (s.pageCount + 1) root []

/-! ## Insertion -/

/-- `list.insert`. -/
def insertAt {α : Type} (xs : List α) (slot : Nat) (x : α) : List α :=
  xs.take slot ++ x :: xs.drop slot

/-- `_fits_one_leaf_page`. -/
def fitsOneLeafPage (cells : List TableLeafCell) : Bool :=
  (PageBody.tableLeaf cells).usedBytes ≤ pageSize

/-- The parent of a leaf as `_split_leaf` reads it. -/
structure Parent where
  id : Nat
  childSlot : Nat
  cells : List (InteriorCell Int)
  rightChild : Nat

/-- `path[-2]`, if there is one. -/
def readParent : List (Nat × Nat) → StoreM (Option Parent)
  | [] => return none
  | (id, childSlot) :: _ => do
      let (cells, rightChild) ← interiorCells id
      return some ⟨id, childSlot, cells, rightChild⟩

/-- `is_rightmost`. -/
def Parent.isRightmost (p : Parent) : Bool := p.childSlot = p.cells.length

/-- The pages of a split leaf are written, and the separator goes up. -/
def writeSplit (pageId : Nat) (ancestors : List (Nat × Nat)) (parent : Option Parent)
    (leftCells rightCells : List TableLeafCell) (separator : Int) : StoreM Unit := do
  match parent with
  | none =>
      let rightPageId ← allocatePage
      initBody rightPageId (.tableLeaf rightCells)
      -- the root keeps its number and becomes interior
      let leftPageId ← allocatePage
      initBody leftPageId (.tableLeaf leftCells)
      let top ← lift (encodeInteriorTableCell leftPageId separator)
      writeBody pageId (.tableInterior [top] rightPageId)
  | some p =>
      let newLeftCell ← lift (encodeInteriorTableCell pageId separator)
      let parentHasRoom :=
        (PageBody.tableInterior p.cells p.rightChild).fits (newLeftCell.size rowidSize)
      let rightPageId ← allocatePage
      initBody rightPageId (.tableLeaf rightCells)
      writeBody pageId (.tableLeaf leftCells)
      if parentHasRoom then
        let placed ← lift (tableInteriorFormat.place p.cells p.rightChild p.childSlot newLeftCell
          rightPageId)
        writeBody p.id (.tableInterior placed.1 placed.2)
      else
        promoteTableSeparator ancestors pageId separator rightPageId

/-- The cells of a leaf that must split around a new row. -/
def chooseSplit (cells : List TableLeafCell) (slot : Nat) (newCell : TableLeafCell)
    (isRightmost : Bool) : Except DbError (List TableLeafCell × List TableLeafCell × Int) :=
  let keys := cells.map TableLeafCell.rowid
  let useAppendSplit := isRightmost && keys.getLast?.all fun last => last < newCell.rowid
  splitCells TableLeafCell.size (insertAt cells slot newCell) (insertAt keys slot newCell.rowid)
    useAppendSplit

/-- `_split_leaf`. -/
def splitLeaf (pageId slot : Nat) (ancestors : List (Nat × Nat)) (rowid : Int)
    (payload : Bytes) : StoreM Unit := do
  let parent ← readParent ancestors
  let cells ← leafCells pageId
  let newCell ← lift (encodeLeafTableCell rowid (placeholder .leafTable payload))
  let (leftCells, rightCells, separator) ←
    lift (chooseSplit cells slot newCell (parent.all Parent.isRightmost))
  raiseIf (¬ (fitsOneLeafPage leftCells ∧ fitsOneLeafPage rightCells)) (.pageFull
    ("cannot split this leaf: a cell is too large to fit on either side of a " ++
      "two-way split next to its neighbors -- this needs three-way rebalancing, " ++
      "which isn't implemented"))
  if spills .leafTable payload then
    let stored ← spillPayload .leafTable payload
    let realCell ← lift (encodeLeafTableCell rowid stored)
    if slot < leftCells.length then
      writeSplit pageId ancestors parent (leftCells.set slot realCell) rightCells separator
    else
      writeSplit pageId ancestors parent leftCells
        (rightCells.set (slot - leftCells.length) realCell) separator
  else
    writeSplit pageId ancestors parent leftCells rightCells separator

/-- `BTree.insert`. -/
def insert (root : Nat) (rowid : Int) (payload : Bytes) : StoreM Unit := do
  match ← findLeaf root rowid with
  | [] => raise (.indexError "list index out of range")
  | (pageId, slot) :: ancestors =>
      let cells ← leafCells pageId
      raiseIf ((cells[slot]?).any fun c => c.rowid = rowid) (.duplicateRowId "Duplicate row id")
      let candidate ← lift (encodeLeafTableCell rowid (placeholder .leafTable payload))
      if (PageBody.tableLeaf cells).fits candidate.size then
        let stored ← spillPayload .leafTable payload
        let cell ← lift (encodeLeafTableCell rowid stored)
        writeBody pageId (.tableLeaf (insertAt cells slot cell))
      else
        splitLeaf pageId slot ancestors rowid payload

/-! ## Deletion -/

/-- The interior cells without the child at `childSlot`. -/
def removeChild (cells : List (InteriorCell Int)) (rightChild childSlot : Nat) :
    List (InteriorCell Int) × Nat :=
  if childSlot < cells.length then (cells.eraseIdx childSlot, rightChild)
  else
    match cells.getLast? with
    | some last => (cells.dropLast, last.child)
    | none => ([], 0)

/-- The loop of `delete` that frees an emptied page and unlinks it from its
parent, up to a parent that keeps a child. -/
def unlinkChild : List (Nat × Nat) → Nat → StoreM Unit
  | [], _ => raise (.indexError "list index out of range")
  | (parentPageId, childSlot) :: ancestors, childToFree => do
      let (cells, rightChild) ← interiorCells parentPageId
      let (cells', rightChild') := removeChild cells rightChild childSlot
      let parentIsEmpty := cells' = [] ∧ rightChild' = 0
      if ancestors = [] ∧ parentIsEmpty then
        writeBody parentPageId (.tableLeaf [])
      else
        writeBody parentPageId (.tableInterior cells' rightChild')
      freePage childToFree
      if ancestors = [] ∨ ¬ parentIsEmpty then return ()
      else unlinkChild ancestors parentPageId

/-- `BTree.delete`. -/
def delete (root : Nat) (rowid : Int) : StoreM Bool := do
  match ← findLeaf root rowid with
  | [] => raise (.indexError "list index out of range")
  | (leafPageId, leafSlot) :: ancestors =>
      let cells ← leafCells leafPageId
      match cells[leafSlot]? with
      | none => return false
      | some found =>
          if found.rowid ≠ rowid then return false
          else
            let remaining := cells.eraseIdx leafSlot
            writeBody leafPageId (.tableLeaf remaining)
            if found.payload.overflow ≠ 0 then freeOverflowChain found.payload.overflow
            if remaining = [] ∧ leafPageId ≠ root then unlinkChild ancestors leafPageId
            return true

end BTree

/-! ## Inserting into a list -/

section InsertAt

variable {α β : Type}

theorem insertAt_map (f : α → β) (xs : List α) (i : Nat) (a : α) :
    BTree.insertAt (xs.map f) i (f a) = (BTree.insertAt xs i a).map f := by
  rw [BTree.insertAt, BTree.insertAt, List.map_append, List.map_cons, List.map_take, List.map_drop]

theorem insertAt_set {xs : List α} {i : Nat} (hi : i ≤ xs.length) (a b : α) :
    (BTree.insertAt xs i a).set i b = BTree.insertAt xs i b := by
  have hlen : (xs.take i).length = i := by rw [List.length_take, Nat.min_eq_left hi]
  rw [BTree.insertAt, List.set_append_right _ _ (Nat.le_of_eq hlen), hlen, Nat.sub_self]
  rfl

theorem length_insertAt (xs : List α) (i : Nat) (a : α) :
    (BTree.insertAt xs i a).length = xs.length + 1 := by
  rw [BTree.insertAt, List.length_append, List.length_cons, List.length_take, List.length_drop]
  omega

theorem mem_insertAt {xs : List α} {i : Nat} {a b : α} (hb : b ∈ BTree.insertAt xs i a) :
    b = a ∨ b ∈ xs := by
  rcases List.mem_append.mp hb with hb | hb
  · exact .inr (List.mem_of_mem_take hb)
  · rcases List.mem_cons.mp hb with rfl | hb
    · exact .inl rfl
    · exact .inr (List.mem_of_mem_drop hb)

theorem insertAt_flatMap (f : α → List β) (xs : List α) (i : Nat) (a : α) :
    ((BTree.insertAt xs i a).flatMap f).Perm (f a ++ xs.flatMap f) := by
  have hxs : xs.flatMap f = (xs.take i).flatMap f ++ (xs.drop i).flatMap f := by
    rw [← List.flatMap_append, List.take_append_drop]
  rw [BTree.insertAt, List.flatMap_append, List.flatMap_cons, hxs]
  simp only [← List.append_assoc]
  exact List.Perm.append_right _ List.perm_append_comm

theorem sum_insertAt (xs : List Nat) (i a : Nat) : (BTree.insertAt xs i a).sum = a + xs.sum := by
  have htake : xs.sum = (xs.take i).sum + (xs.drop i).sum := by
    rw [← List.sum_append, List.take_append_drop]
  rw [BTree.insertAt, List.sum_append, List.sum_cons, htake]
  omega

end InsertAt

end QuillDb
