/-
  BTree/RawCells.lean --- the cells of a table page, byte for byte.

  Source: the decoders of `quilldb/btree/cells.py`, `quilldb/btree/search.py`.

  A page holds its cells as bytes, and a search decodes each cell it probes.  On a
  page whose cells all decode the searches are those of the decoded cells.
-/
import QuillDb.BTree.Table
import QuillDb.Codec.Varint
import QuillDb.Storage.Page

set_option autoImplicit false

namespace QuillDb

/-- `from_twos_complement`. -/
def fromTwosComplement (value : Nat) : Int :=
  if value.testBit 63 then (value : Int) - 2 ^ 64 else value

namespace Slotted

/-! ## `cells.py` -/

/-- `decode_leaf_table_cell`. -/
def decodeLeafTableCell (cell : Bytes) : Except DbError TableLeafCell := do
  let (total, n1) ← decodeUvarint cell 0
  let (rawRowid, n2) ← decodeUvarint cell n1
  let rowid := fromTwosComplement rawRowid
  let localLen := localPayloadSize .leafTable total
  let headerLen := n1 + n2
  let localPayload := slice cell headerLen localLen
  if localPayload.length < localLen then
    .error (.malformedCell "cell is shorter than its declared local payload")
  else if localLen < total then
    let overflowBytes := slice cell (headerLen + localLen) 4
    if overflowBytes.length < 4 then
      .error (.malformedCell "cell is missing its overflow page number")
    else return ⟨rowid, ⟨total, localPayload, fromBytes overflowBytes⟩⟩
  else return ⟨rowid, ⟨total, localPayload, 0⟩⟩

/-- `decode_interior_table_cell`. -/
def decodeInteriorTableCell (cell : Bytes) : Except DbError (InteriorCell Int) :=
  if cell.length < 4 then
    .error (.malformedCell "cell is shorter than the fixed 4-byte child field")
  else do
    let (rawRowid, _) ← decodeUvarint cell 4
    return ⟨fromBytes (slice cell 0 4), fromTwosComplement rawRowid⟩

/-! ## `search.py` -/

/-- `cells[i]`. -/
def cellAt (cells : List Bytes) (i : Nat) : Except DbError Bytes :=
  match cells[i]? with
  | some cell => .ok cell
  | none => .error (.indexError "list index out of range")

/-- The rowid of the leaf cell at an index. -/
def rowidAt (cells : List Bytes) (i : Nat) : Except DbError Int := do
  let cell ← cellAt cells i
  let decoded ← decodeLeafTableCell cell
  return decoded.rowid

/-- The separator of the interior cell at an index. -/
def separatorAt (cells : List Bytes) (i : Nat) : Except DbError Int := do
  let cell ← cellAt cells i
  let decoded ← decodeInteriorTableCell cell
  return decoded.key

/-- `binary_search_leaf`. -/
def binarySearchLeaf (page : PageBody) (key : Int) : Except DbError (Option Nat) :=
  BinarySearch.findE (rowidAt page.cells) key page.cells.length 0 page.cells.length

/-- `children_of_interior`. -/
def childrenOfInterior (page : PageBody) : Except DbError (List Nat) := do
  let cells ← page.cells.mapM decodeInteriorTableCell
  return QuillDb.childrenOfInterior cells page.rightChild

/-- `interior_slot_for_key`: an equal separator goes left. -/
def interiorSlotForKey (page : PageBody) (key : Int) : Except DbError Nat :=
  BinarySearch.searchE (fun i => do
    let separator ← separatorAt page.cells i
    return decide (key ≤ separator)) page.cells.length 0 page.cells.length

/-- `child_for_key`. -/
def childForKey (page : PageBody) (key : Int) : Except DbError Nat := do
  let children ← childrenOfInterior page
  let slot ← interiorSlotForKey page key
  childAt children slot

/-! ## Pages whose cells all decode -/

section Decoded

variable {page : PageBody} {key : Int}

theorem getElem?_mapM {α β : Type} {f : α → Except DbError β} {xs : List α} {ys : List β}
    (h : xs.mapM f = .ok ys) {i : Nat} {y : β} (hy : ys[i]? = some y) :
    ∃ x, xs[i]? = some x ∧ f x = .ok y := by
  have hall := Fallible.mapM_ok h
  induction hall generalizing i with
  | nil => cases hy
  | @cons x y' xs ys hx hrest ih =>
      cases i with
      | zero =>
          obtain rfl := Option.some.inj hy
          exact ⟨x, rfl, hx⟩
      | succ i => exact ih (Fallible.mapM_eq_ok_iff.mpr hrest) hy

theorem length_mapM {α β : Type} {f : α → Except DbError β} {xs : List α} {ys : List β}
    (h : xs.mapM f = .ok ys) : xs.length = ys.length :=
  (Fallible.mapM_ok h).length_eq

theorem rowidAt_decoded {cells : List TableLeafCell}
    (h : page.cells.mapM decodeLeafTableCell = .ok cells) {i : Nat} {c : TableLeafCell}
    (hc : cells[i]? = some c) : rowidAt page.cells i = .ok c.rowid := by
  obtain ⟨raw, hraw, hdecode⟩ := getElem?_mapM h hc
  rw [rowidAt, cellAt, hraw]
  simp only [bind, Except.bind, hdecode]
  rfl

theorem separatorAt_decoded {cells : List (InteriorCell Int)}
    (h : page.cells.mapM decodeInteriorTableCell = .ok cells) {i : Nat} {c : InteriorCell Int}
    (hc : cells[i]? = some c) : separatorAt page.cells i = .ok c.key := by
  obtain ⟨raw, hraw, hdecode⟩ := getElem?_mapM h hc
  rw [separatorAt, cellAt, hraw]
  simp only [bind, Except.bind, hdecode]
  rfl

theorem binarySearchLeaf_decoded {cells : List TableLeafCell}
    (h : page.cells.mapM decodeLeafTableCell = .ok cells) :
    binarySearchLeaf page key = .ok (QuillDb.binarySearchLeaf cells key) := by
  rw [binarySearchLeaf, QuillDb.binarySearchLeaf, length_mapM h]
  exact BinarySearch.findE_eq (fun i c hc => rowidAt_decoded h hc) (Nat.le_refl _)

theorem interiorSlotForKey_decoded {cells : List (InteriorCell Int)}
    (h : page.cells.mapM decodeInteriorTableCell = .ok cells) :
    interiorSlotForKey page key = .ok (QuillDb.interiorSlotForKey cells key) := by
  rw [interiorSlotForKey, QuillDb.interiorSlotForKey, length_mapM h]
  refine BinarySearch.searchE_lowerBound fun i c hc => ?_
  rw [separatorAt_decoded h hc]
  rfl

theorem childrenOfInterior_decoded {cells : List (InteriorCell Int)}
    (h : page.cells.mapM decodeInteriorTableCell = .ok cells) :
    childrenOfInterior page = .ok (QuillDb.childrenOfInterior cells page.rightChild) := by
  rw [childrenOfInterior, h]
  rfl

theorem childForKey_decoded {cells : List (InteriorCell Int)}
    (h : page.cells.mapM decodeInteriorTableCell = .ok cells) :
    childForKey page key = childAt (QuillDb.childrenOfInterior cells page.rightChild)
      (QuillDb.interiorSlotForKey cells key) := by
  rw [childForKey, childrenOfInterior_decoded h, interiorSlotForKey_decoded h]
  rfl

end Decoded

end Slotted

end QuillDb
