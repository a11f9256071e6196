/-
  BTree/RawTree.lean --- a table tree as the pages of a pool hold it.

  A tree is read off the pages: a page that parses as an interior page leads to its
  children.  `Ranged` is the shape that the readers rely on: all leaves at one depth,
  and the keys below each child between the separators on its two sides.
-/
import QuillDb.BTree.RawCells
import QuillDb.Lib.Spans
import QuillDb.Txn.ReadPool

set_option autoImplicit false

namespace QuillDb

open Spans

namespace Slotted

/-! ## Pages -/

/-- A page of the file that parses. -/
structure Parses (s : Machine) (id : Nat) (body : PageBody) : Prop where
  inFile : 1 ≤ id ∧ id ≤ s.header.pageCount
  parsed : parsePage (s.page id).bytes 0 = .ok body

/-- A leaf of a table tree, and its cells. -/
structure LeafPage (s : Machine) (id : Nat) (body : PageBody) (cells : List TableLeafCell) : Prop
    extends Parses s id body where
  type : body.pageType = .leafTable
  decoded : body.cells.mapM decodeLeafTableCell = .ok cells

/-- An interior page of a table tree, and its cells. -/
structure InteriorPage (s : Machine) (id : Nat) (body : PageBody)
    (cells : List (InteriorCell Int)) : Prop extends Parses s id body where
  type : body.pageType = .interiorTable
  decoded : body.cells.mapM decodeInteriorTableCell = .ok cells

/-- A row, by the cell that holds it. -/
structure Entry where
  page : Nat
  slot : Nat
  rowid : Int
  deriving DecidableEq, Repr, Inhabited

/-- The rows of a leaf. -/
def rowsOf (id : Nat) (cells : List TableLeafCell) : List Entry :=
  cells.mapIdx fun slot c => ⟨id, slot, c.rowid⟩

/-- Each separator with the child before it. -/
def dividers (cells : List (InteriorCell Int)) : List (Int × Nat) := cells.map fun c => (c.key, c.child)

/-- The rows that a page parses to. -/
def rowsAt (s : Machine) (id : Nat) : List Entry :=
  match parsePage (s.page id).bytes 0 >>= fun body => body.cells.mapM decodeLeafTableCell with
  | .ok cells => rowsOf id cells
  | .error _ => []

/-- The children that a page parses to. -/
def childrenAt (s : Machine) (id : Nat) : List Nat :=
  match parsePage (s.page id).bytes 0 >>= childrenOfInterior with
  | .ok children => children
  | .error _ => []

/-- The rows of the leaves so many levels below a page, from left to right. -/
def rowsUnder (s : Machine) : Nat → Nat → List Entry
  | 0, id => rowsAt s id
  | h + 1, id => (childrenAt s id).flatMap (rowsUnder s h)

variable {s : Machine} {root id : Nat} {body : PageBody} {low high : Option Int} {h H : Nat}

theorem LeafPage.rows {cells : List TableLeafCell} (hp : LeafPage s id body cells) :
    rowsAt s id = rowsOf id cells := by
  have hrun : (parsePage (s.page id).bytes 0 >>= fun body => body.cells.mapM decodeLeafTableCell) =
      .ok cells := by
    rw [hp.parsed]
    exact hp.decoded
  rw [rowsAt, hrun]

theorem InteriorPage.children {cells : List (InteriorCell Int)} (hp : InteriorPage s id body cells) :
    childrenOfInterior body = .ok (QuillDb.childrenOfInterior cells body.rightChild) :=
  childrenOfInterior_decoded hp.decoded

theorem InteriorPage.childrenAt {cells : List (InteriorCell Int)} (hp : InteriorPage s id body cells) :
    childrenAt s id = QuillDb.childrenOfInterior cells body.rightChild := by
  have hrun : (parsePage (s.page id).bytes 0 >>= childrenOfInterior) =
      .ok (QuillDb.childrenOfInterior cells body.rightChild) := by
    rw [hp.parsed]
    exact hp.children
  rw [Slotted.childrenAt, hrun]

/-- The children are what the separators cut. -/
theorem children_eq_items (cells : List (InteriorCell Int)) (right : Nat) (low high : Option Int) :
    QuillDb.childrenOfInterior cells right = (cut low (dividers cells) right high).map Span.item := by
  rw [cut_items, dividers, List.map_map, QuillDb.childrenOfInterior]
  rfl

theorem rowids_rowsOf (id : Nat) (cells : List TableLeafCell) :
    (rowsOf id cells).map Entry.rowid = cells.map TableLeafCell.rowid := by
  refine List.ext_getElem? fun i => ?_
  rw [List.getElem?_map, rowsOf, List.getElem?_mapIdx, List.getElem?_map, Option.map_map]
  rfl

theorem getElem?_rowsOf {cells : List TableLeafCell} {slot : Nat} {c : TableLeafCell}
    (hc : cells[slot]? = some c) : (rowsOf id cells)[slot]? = some ⟨id, slot, c.rowid⟩ := by
  rw [rowsOf, List.getElem?_mapIdx, hc]
  rfl

theorem mem_rowsOf {cells : List TableLeafCell} {e : Entry} :
    e ∈ rowsOf id cells ↔ ∃ c, e.page = id ∧ cells[e.slot]? = some c ∧ c.rowid = e.rowid := by
  constructor
  · intro he
    obtain ⟨i, hi⟩ := List.mem_iff_getElem?.mp he
    rw [rowsOf, List.getElem?_mapIdx] at hi
    obtain ⟨c, hc, rfl⟩ := Option.map_eq_some_iff.mp hi
    exact ⟨c, rfl, hc, rfl⟩
  · rintro ⟨c, hid, hc, hrowid⟩
    have hget : (rowsOf id cells)[e.slot]? = _ := getElem?_rowsOf hc
    rw [hrowid, ← hid] at hget
    rw [← hid]
    exact List.mem_of_getElem? hget

/-! ## Trees -/

/-- A tree whose leaves lie so many levels below this page, with keys in an interval. -/
def Ranged (s : Machine) : Nat → Option Int → Option Int → Nat → Prop
  | 0, low, high, id => ∃ body cells, LeafPage s id body cells ∧
      (cells.map TableLeafCell.rowid).Pairwise (· < ·) ∧ ∀ c ∈ cells, Within low high c.rowid
  | h + 1, low, high, id => ∃ body cells, InteriorPage s id body cells ∧
      Dividing low high (dividers cells) ∧
        ∀ span ∈ cut low (dividers cells) body.rightChild high, Ranged s h span.low span.high span.item

/-- The rows of a tree have ascending rowids, in its interval. -/
theorem Ranged.ordered (ht : Ranged s h low high id) :
    ((rowsUnder s h id).map Entry.rowid).Pairwise (· < ·) ∧
      ∀ e ∈ rowsUnder s h id, Within low high e.rowid := by
  induction h generalizing low high id with
  | zero =>
      obtain ⟨body, cells, hleaf, hsorted, hwithin⟩ := ht
      rw [rowsUnder, hleaf.rows, rowids_rowsOf]
      refine ⟨hsorted, fun e he => ?_⟩
      obtain ⟨c, -, hc, hrowid⟩ := mem_rowsOf.mp he
      rw [← hrowid]
      exact hwithin c (List.mem_of_getElem? hc)
  | succ h ih =>
      obtain ⟨body, cells, hnode, hdividing, hkids⟩ := ht
      have hall := hdividing.flatMap_ascending (f := rowsUnder s h) body.rightChild
        fun span hspan => ih (hkids span hspan)
      rw [rowsUnder, hnode.childrenAt, children_eq_items cells body.rightChild low high, cut_items]
      exact hall

/-- Every child of an interior page of a tree has a tree of its own. -/
theorem Ranged.child {cells : List (InteriorCell Int)} {child : Nat}
    (hkids : ∀ span ∈ cut low (dividers cells) body.rightChild high,
      Ranged s h span.low span.high span.item)
    (hchild : child ∈ QuillDb.childrenOfInterior cells body.rightChild) :
    ∃ low high, Ranged s h low high child := by
  rw [children_eq_items cells body.rightChild low high] at hchild
  obtain ⟨span, hspan, rfl⟩ := List.mem_map.mp hchild
  exact ⟨span.low, span.high, hkids span hspan⟩

/-- What holds of every page of a tree, given its height and the path above it. -/
def Everywhere (s : Machine) (P : Nat → Nat → List Nat → Prop) : Nat → Nat → List Nat → Prop
  | 0, id, above => P 0 id above
  | h + 1, id, above => P (h + 1) id above ∧ ∀ child ∈ childrenAt s id, Everywhere s P h child (id :: above)

theorem Parses.unique {body' : PageBody} (hp : Parses s id body) (hp' : Parses s id body') :
    body = body' := by
  have hparsed := hp.parsed
  rw [hp'.parsed] at hparsed
  exact (Except.ok.inj hparsed).symm

end Slotted

end QuillDb
