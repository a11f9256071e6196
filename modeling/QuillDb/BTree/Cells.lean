/-
  BTree/Cells.lean --- b-tree cells and page bodies, decoded.

  Source: `quilldb/btree/cells.py`, `quilldb/storage/page.py`, and the varint
  lengths of `quilldb/codec/varint.py`.

  A page holds its cells decoded; their encoded sizes are computed, since fitting
  and splitting go by bytes.  An encoder keeps its checks: it returns the cell
  or raises what the packing of its fields would raise.
-/
import QuillDb.Basic

set_option autoImplicit false

namespace QuillDb

/-! ## Sizes -/

/-- The length of `encode_uvarint(value)`. -/
def uvarintSize (value : Nat) : Nat :=
  if value < 2 ^ 56 then value.log2 / 7 + 1 else 9

/-- `to_twos_complement`. -/
def toTwosComplement (value : Int) : Nat := (value % 2 ^ 64).toNat

theorem uvarintSize_le (value : Nat) : uvarintSize value ≤ 9 := by
  unfold uvarintSize
  split
  · rename_i h
    have hlog : value.log2 < 56 := by
      rcases Nat.eq_zero_or_pos value with rfl | hpos
      · decide
      · exact (Nat.log2_lt (Nat.ne_of_gt hpos)).mpr h
    omega
  · exact Nat.le_refl _

theorem uvarintSize_pos (value : Nat) : 1 ≤ uvarintSize value := by
  unfold uvarintSize
  split <;> omega

/-- `PageType`. -/
inductive PageType where
  | leafTable
  | interiorTable
  | leafIndex
  | interiorIndex
  deriving DecidableEq, Repr

/-- The type byte at offset 0 of a page. -/
def PageType.code : PageType → Nat
  | leafTable => 0x0d
  | interiorTable => 0x05
  | leafIndex => 0x0a
  | interiorIndex => 0x02

/-- `MIN_LOCAL_PAYLOAD`. -/
def minLocalPayload : Nat := (usableSize - 12) * 32 / 255 - 23

/-- `max_local_payload`; an interior table cell carries no payload. -/
def maxLocalPayload : PageType → Nat
  | .leafTable => usableSize - 35
  | _ => (usableSize - 12) * 64 / 255 - 23

/-- `local_payload_size`: how many bytes of a payload stay on the page. -/
def localPayloadSize (pageType : PageType) (total : Nat) : Nat :=
  let x := maxLocalPayload pageType
  if total ≤ x then total
  else
    let k := minLocalPayload + (total - minLocalPayload) % (usableSize - 4)
    if k ≤ x then k else minLocalPayload

theorem localPayloadSize_le (pageType : PageType) (total : Nat) :
    localPayloadSize pageType total ≤ maxLocalPayload pageType := by
  unfold localPayloadSize
  simp only
  split
  · assumption
  · split
    · assumption
    · cases pageType <;> decide

theorem localPayloadSize_le_total (pageType : PageType) (total : Nat) :
    localPayloadSize pageType total ≤ total := by
  have hmin : minLocalPayload ≤ maxLocalPayload pageType := by cases pageType <;> decide
  unfold localPayloadSize
  simp only
  split
  · exact Nat.le_refl _
  · have := Nat.mod_le (total - minLocalPayload) (usableSize - 4)
    split <;> omega

/-! ## Cells -/

/-- What a payload-carrying cell stores: the full length, the local bytes and
the first overflow page (0: none). -/
structure Payload where
  total : Nat
  localPart : Bytes
  overflow : Nat
  deriving DecidableEq, Repr, Inhabited

def Payload.size (p : Payload) : Nat :=
  uvarintSize p.total + p.localPart.length + (if p.overflow = 0 then 0 else 4)

/-- A table leaf cell. -/
structure TableLeafCell where
  rowid : Int
  payload : Payload
  deriving DecidableEq, Repr, Inhabited

def TableLeafCell.size (c : TableLeafCell) : Nat :=
  uvarintSize (toTwosComplement c.rowid) + c.payload.size

/-- An interior cell: the left child and the key beside it, a rowid in a table
tree, a whole payload in an index tree. -/
structure InteriorCell (κ : Type) where
  child : Nat
  key : κ
  deriving DecidableEq, Repr

/-- `encode_uvarint` of a length. -/
def checkUvarint (value : Nat) : Except DbError Unit :=
  if value < 2 ^ 64 then .ok () else .error (.valueError "value must satisfy 0 <= value < 2**64")

/-- `_require_valid_split`. -/
def requireValidSplit (pageType : PageType) (p : Payload) : Except DbError Unit :=
  let expected := localPayloadSize pageType p.total
  if p.localPart.length ≠ expected then
    .error (.valueError
      s!"local_payload is {p.localPart.length} bytes; local_payload_size() says {expected}")
  else if (p.overflow ≠ 0) ≠ (p.localPart.length < p.total) then
    .error (.valueError (s!"overflow_page={p.overflow} disagrees with " ++
      s!"local_payload spilling {p.total - p.localPart.length} bytes"))
  else .ok ()

/-- `encode_leaf_table_cell`; the rowid is the one of the call, of which the bytes hold 64 bits
(`PageBody.reread`). -/
def encodeLeafTableCell (rowid : Int) (p : Payload) : Except DbError TableLeafCell := do
  requireValidSplit .leafTable p
  checkUvarint p.total
  let _ ← toBytes4 p.overflow
  return ⟨rowid, p⟩

/-- `encode_interior_table_cell`, with the rowid of the call again. -/
def encodeInteriorTableCell (child : Nat) (rowid : Int) : Except DbError (InteriorCell Int) := do
  let _ ← toBytes4 child
  return ⟨child, rowid⟩

/-- `encode_leaf_index_cell`. -/
def encodeLeafIndexCell (p : Payload) : Except DbError Payload := do
  requireValidSplit .leafIndex p
  checkUvarint p.total
  let _ ← toBytes4 p.overflow
  return p

/-- `encode_interior_index_cell`. -/
def encodeInteriorIndexCell (child : Nat) (p : Payload) : Except DbError (InteriorCell Payload) := do
  requireValidSplit .interiorIndex p
  let _ ← toBytes4 child
  checkUvarint p.total
  let _ ← toBytes4 p.overflow
  return ⟨child, p⟩

/-! ## Page bodies -/

/-- `PageBody`, one constructor for each page type. -/
inductive PageBody where
  | tableLeaf (cells : List TableLeafCell)
  | tableInterior (cells : List (InteriorCell Int)) (rightChild : Nat)
  | indexLeaf (cells : List Payload)
  | indexInterior (cells : List (InteriorCell Payload)) (rightChild : Nat)
  deriving DecidableEq, Repr

/-- The length of an interior cell: the child pointer and its key. -/
def InteriorCell.size {κ : Type} (keySize : κ → Nat) (c : InteriorCell κ) : Nat :=
  4 + keySize c.key

def rowidSize (rowid : Int) : Nat := uvarintSize (toTwosComplement rowid)

namespace PageBody

def pageType : PageBody → PageType
  | tableLeaf _ => .leafTable
  | tableInterior _ _ => .interiorTable
  | indexLeaf _ => .leafIndex
  | indexInterior _ _ => .interiorIndex

def headerSize : PageBody → Nat
  | tableLeaf _ => leafHeaderSize
  | tableInterior _ _ => interiorHeaderSize
  | indexLeaf _ => leafHeaderSize
  | indexInterior _ _ => interiorHeaderSize

/-- The encoded lengths of the cells, in key order. -/
def cellSizes : PageBody → List Nat
  | tableLeaf cells => cells.map TableLeafCell.size
  | tableInterior cells _ => cells.map (InteriorCell.size rowidSize)
  | indexLeaf cells => cells.map Payload.size
  | indexInterior cells _ => cells.map (InteriorCell.size Payload.size)

def rightChild : PageBody → Nat
  | tableInterior _ right => right
  | indexInterior _ right => right
  | _ => 0

/-- `used_bytes`. -/
def usedBytes (b : PageBody) : Nat :=
  b.headerSize + 2 * b.cellSizes.length + b.cellSizes.sum

/-- `fits`: room for one more cell of that length and its pointer. -/
def fits (b : PageBody) (cellSize : Nat) : Bool := b.usedBytes + (cellSize + 2) ≤ pageSize

end PageBody

end QuillDb
