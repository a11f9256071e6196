/-
  BTree/RawCursor.lean --- the readers of a table tree, on the pages of a pool.

  Source: `BTree.search` of `quilldb/btree/btree.py`, `quilldb/btree/cursor.py`.

  A cursor keeps the pages on its path pinned, with the bodies parsed on the way down.
  A descent takes at most as many steps as there are pages; a longer one would revisit
  a page and never end, which is an exception here.
-/
import QuillDb.BTree.RawTree
import QuillDb.Lib.Sweep

set_option autoImplicit false

namespace QuillDb

open Prog Machine

namespace Slotted

namespace BTree

def searchFrom (key : Int) : Nat → Nat → MachineM (Option (Nat × Nat))
  | 0, _ => raise (.btreeInvariant "the descent does not end")
  | fuel + 1, pageId => do
      let raw ← getPage pageId
      let body ← lift (parsePage raw.bytes 0)
      unpin pageId
      if body.pageType = .leafTable then do
        let slot ← lift (binarySearchLeaf body key)
        return slot.map fun slot => (pageId, slot)
      else do
        let child ← lift (childForKey body key)
        searchFrom key fuel child

/-- `BTree.search`: the page and the slot of the row. -/
def search (root : Nat) (key : Int) : MachineM (Option (Nat × Nat)) := do
  let s ← state
  searchFrom key (s.header.pageCount + 1) root

end BTree

/-- `TableCursor`: its path is kept from the leaf up to the root. -/
structure TableCursor where
  pool : Machine
  path : List (Nat × Nat × PageBody)

/-- A program over a cursor. -/
abbrev CursorM (α : Type) : Type := Prog DbError TableCursor α

namespace TableCursor

/-- Run a program of the pool. -/
def onPool {α : Type} (m : MachineM α) : CursorM α :=
  zoom TableCursor.pool (fun pool c => { c with pool := pool }) m

def setPath (path : List (Nat × Nat × PageBody)) : CursorM Unit :=
  update fun c => { c with path := path }

/-- `close`: the pins go from the root down. -/
def close : CursorM Unit := do
  let c ← state
  onPool (seq (c.path.reverse.map fun e => unpin e.1))
  setPath []

/-- `rowid`. -/
def rowid : CursorM Int := do
  let c ← state
  match c.path with
  | [] => raise (.valueError "cursor is not positioned")
  | (_, slot, body) :: _ => lift (rowidAt body.cells slot)

def descendToLeafFrom (rightmost : Bool) : Nat → Nat → CursorM Unit
  | 0, _ => raise (.btreeInvariant "the descent does not end")
  | fuel + 1, pageId => do
      let raw ← onPool (getPage pageId)
      let body ← lift (parsePage raw.bytes 0)
      let c ← state
      if body.pageType = .leafTable then
        -- an empty leaf is not a position: the path stays as it is
        if body.cells = [] then onPool (unpin pageId)
        else setPath ((pageId, if rightmost then body.cells.length - 1 else 0, body) :: c.path)
      else do
        let kids ← lift (childrenOfInterior body)
        let slot := if rightmost then kids.length - 1 else 0
        setPath ((pageId, slot, body) :: c.path)
        let child ← lift (childAt kids slot)
        descendToLeafFrom rightmost fuel child

/-- `_descend_to_leaf`. -/
def descendToLeaf (rightmost : Bool) (startPageId : Nat) : CursorM Unit := do
  let c ← state
  descendToLeafFrom rightmost (c.pool.header.pageCount + 1) startPageId

/-- `first`. -/
def first (root : Nat) : CursorM Unit := do
  close
  descendToLeaf false root

/-- `last`. -/
def last (root : Nat) : CursorM Unit := do
  close
  descendToLeaf true root

/-- Release the page at the end of a path. -/
def popPage (pageId : Nat) (above : List (Nat × Nat × PageBody)) : CursorM Unit := do
  onPool (unpin pageId)
  setPath above

/-- The loop of `_advance`. -/
def advanceFrom : List (Nat × Nat × PageBody) → CursorM Bool
  | [] => return false
  | (pageId, slot, body) :: above =>
      if body.pageType = .leafTable then do
        popPage pageId above
        advanceFrom above
      else do
        let kids ← lift (childrenOfInterior body)
        match kids[slot + 1]? with
        | some child => do
            setPath ((pageId, slot + 1, body) :: above)
            descendToLeaf false child
            return true
        | none => do
            popPage pageId above
            advanceFrom above

/-- `_advance`. -/
def advance : CursorM Bool := do
  let c ← state
  advanceFrom c.path

/-- The loop of `_retreat`. -/
def retreatFrom : List (Nat × Nat × PageBody) → CursorM Bool
  | [] => return false
  | (pageId, slot, body) :: above =>
      if body.pageType ≠ .leafTable ∧ 0 < slot then do
        setPath ((pageId, slot - 1, body) :: above)
        let kids ← lift (childrenOfInterior body)
        let child ← lift (childAt kids (slot - 1))
        descendToLeaf true child
        return true
      else do
        popPage pageId above
        retreatFrom above

/-- `_retreat`. -/
def retreat : CursorM Bool := do
  let c ← state
  retreatFrom c.path

/-- `next`. -/
def next : CursorM Bool := do
  let c ← state
  match c.path with
  | [] => return false
  | (pageId, slot, body) :: above =>
      if slot + 1 < body.cells.length then do
        setPath ((pageId, slot + 1, body) :: above)
        return true
      else advance

/-- `prev`. -/
def prev : CursorM Bool := do
  let c ← state
  match c.path with
  | [] => return false
  | (pageId, slot, body) :: above =>
      if 0 < slot then do
        setPath ((pageId, slot - 1, body) :: above)
        return true
      else retreat

/-- `while cursor.valid`: the positions that a cursor goes through, and their rowids. -/
def collect (move : CursorM Bool) : Nat → CursorM (List Entry)
  | 0 => raise (.btreeInvariant "the scan does not end")
  | fuel + 1 => do
      let c ← state
      match c.path with
      | [] => return []
      | (pageId, slot, _) :: _ => do
          let key ← rowid
          let _ ← move
          let rest ← collect move fuel
          return ⟨pageId, slot, key⟩ :: rest

/-- From `first()` on with `next()`. -/
def scan (root fuel : Nat) : CursorM (List Entry) := do
  first root
  collect next fuel

/-- From `last()` on with `prev()`. -/
def scanReverse (root fuel : Nat) : CursorM (List Entry) := do
  last root
  collect prev fuel

end TableCursor

end Slotted

end QuillDb
