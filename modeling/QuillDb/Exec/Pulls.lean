/-
  Exec/Pulls.lean --- what an operator tree returns.

  Source: `open` and `next` of the operators in `quilldb/exec/operators.py`,
  `quilldb/exec/join.py` and `quilldb/exec/sort.py`; `TableCursor.seek` of
  `quilldb/btree/cursor.py`.

  An operator is the list of what its calls of `next` give, up to the end or the first
  error.  Nothing behind an error is looked at, and LIMIT looks at no more than it takes.
  The rowids of an index scan are drained where it opens.
-/
import QuillDb.Exec.Operators
import QuillDb.BTree.Cursor
import QuillDb.Codec.Record

set_option autoImplicit false

namespace QuillDb

open Prog PageStore

namespace TableCursor

/-- The descent of `seek` from a page. -/
def seekFrom (key : Int) : Nat → CursorPath → Nat → StoreM (Bool × CursorPath)
  | 0, _, _ => raise (.btreeInvariant "the descent does not end")
  | fuel + 1, path, pageId => do
      match ← readBody pageId with
      | .tableInterior cells rightChild =>
          let slot := interiorSlotForKey cells key
          let child ← lift (childAt (childrenOfInterior cells rightChild) slot)
          seekFrom key fuel ((pageId, slot, .tableInterior cells rightChild) :: path) child
      | .tableLeaf cells =>
          let slot := leafSlotLowerBound cells key
          match cells[slot]? with
          | some cell => return (cell.rowid = key, (pageId, slot, .tableLeaf cells) :: path)
          | none => do
              let path ← advance path
              return (false, path)
      | _ => raise (.malformedCell "not a table interior cell")

/-- `seek`: whether the row is there, and the position. -/
def seek (root : Nat) (key : Int) : StoreM (Bool × CursorPath) := do
  let s ← state
  seekFrom key (s.pageCount + 1) [] root

end TableCursor

/-! ## Calls of `next` -/

/-- What a call of `next` gives. -/
abbrev Pull : Type := Except DbError (List Value)

/-- `SeqScan.next`: the row, and the cursor one further. -/
def seqScanNext (path : CursorPath) : StoreM (List Value × CursorPath) := do
  let payload ← TableCursor.record path
  let row ← lift (decodeRecord payload 0)
  let path ← TableCursor.next path
  return (row, path)

/-- A loop of `SeqScan.next`. -/
def seqScanFrom (s : PageStore) : Nat → CursorPath → List Pull
  | _, [] => []
  | 0, _ :: _ => [.error (.btreeInvariant "the scan does not end")]
  | fuel + 1, top :: above =>
      match (seqScanNext (top :: above) s).1 with
      | .error e => [.error e]
      | .ok (row, path) => .ok row :: seqScanFrom s fuel path

/-- `SeqScan`. -/
def seqScanPulls (s : PageStore) (table : TableSchema) : List Pull :=
  match (TableCursor.first table.rootPage s).1 with
  | .error e => [.error e]
  | .ok path => seqScanFrom s (s.pageCount * pageSize + 1) path

/-- The row of a rowid, unless it is gone. -/
def lookUp (root : Nat) (rowid : Int) : StoreM (Option (List Value)) := do
  let (found, path) ← TableCursor.seek root rowid
  if found then do
    let payload ← TableCursor.record path
    let row ← lift (decodeRecord payload 0)
    return some row
  else return none

/-- `IndexScan`, over a row outside. -/
def indexScanPulls (ops : FloatOps) (s : PageStore) (table : TableSchema) (path : AccessPath) (outer : List Value) :
    List Pull :=
  match (indexScanOpen ops path outer s).1 with
  | .error e => [.error e]
  | .ok rowids => rowids.flatMap fun rowid =>
      match (lookUp table.rootPage rowid s).1 with
      | .error e => [.error e]
      | .ok none => []
      | .ok (some row) => [.ok row]

section Rows

variable (ops : FloatOps)

/-- `Filter`, of a row. -/
def filterRow (predicate : BoundExpression) (row : List Value) : List Pull :=
  match evaluate ops row predicate with
  | .error e => [.error e]
  | .ok value => if wherePasses value then [.ok row] else []

/-- What is done to a row; an error passes. -/
def onRow (f : List Value → List Pull) : Pull → List Pull
  | .error e => [.error e]
  | .ok row => f row

/-- `Distinct`; `sameRow` is how a set compares rows. -/
def distinctPulls (sameRow : List Value → List Value → Bool) (seen : List (List Value)) : List Pull → List Pull
  | [] => []
  | .error e :: _ => [.error e]
  | .ok row :: rest =>
      if seen.any (sameRow row) then distinctPulls sameRow seen rest
      else .ok row :: distinctPulls sameRow (row :: seen) rest

/-- The rows that LIMIT takes. -/
def takePulls : Nat → List Pull → List Pull
  | 0, _ => []
  | _ + 1, [] => []
  | _ + 1, .error e :: _ => [.error e]
  | n + 1, .ok row :: rest => .ok row :: takePulls n rest

/-- `Limit`: rows are skipped first. -/
def limitPulls (limit : Option Nat) : Nat → List Pull → List Pull
  | 0, pulls =>
      match limit with
      | none => pulls
      | some n => takePulls n pulls
  | _ + 1, [] => []
  | _ + 1, .error e :: _ => [.error e]
  | offset + 1, .ok _ :: rest => limitPulls limit offset rest

/-- `Sort._compare`, of rows with every column that is sorted by. -/
def compareRows (a b : List Value) : List BoundOrderKey → Ordering
  | [] => .eq
  | key :: keys =>
      let result := compareKeys [a.getD key.index .null] [b.getD key.index .null]
      ((if key.descending then result.swap else result).then (compareRows a b keys))

def maxSortRows : Nat := 1000000

/-- `Sort`. -/
def sortPulls (keys : List BoundOrderKey) (pulls : List Pull) : List Pull :=
  match (pulls.take (maxSortRows + 1)).mapM id with
  | .error e => [.error e]
  | .ok rows =>
      if rows.length > maxSortRows then
        [.error (.sortLimitExceeded (s!"ORDER BY requires sorting more than {maxSortRows} rows, " ++
          "over the limit quilldb sorts in memory. Add an index on the ORDER BY column to avoid sorting entirely."))]
      else (rows.mergeSort fun a b => compareRows a b keys ≠ .gt).map .ok

/-- `NestedLoopJoin`, of a row outside and the rows inside that come with it. -/
def joinRow (on_ : Option BoundExpression) (innerWidth : Nat) (joinType : JoinType) (outerRow : List Value)
    (inner : List Pull) : List Pull :=
  let matched := inner.flatMap (onRow fun innerRow =>
    match on_ with
    | none => [.ok (outerRow ++ innerRow)]
    | some predicate => filterRow ops predicate (outerRow ++ innerRow))
  if joinType = .left ∧ matched = [] then [.ok (outerRow ++ List.replicate innerWidth .null)] else matched

variable (s : PageStore) (sameRow : List Value → List Value → Bool)

/-- `open` over a row outside, and `next` to the end. -/
def Operator.pulls : Operator → List Value → List Pull
  | .seqScan table, _ => seqScanPulls s table
  | .indexScan table path, outer => indexScanPulls ops s table path.toAccessPath outer
  | .filter child predicate, outer => (child.pulls outer).flatMap (onRow (filterRow ops predicate))
  | .project child expressions, outer =>
      (child.pulls outer).map fun pull => pull >>= fun row => expressions.mapM (evaluate ops row)
  | .distinct child, outer => distinctPulls sameRow [] (child.pulls outer)
  | .sort child keys, outer => sortPulls keys (child.pulls outer)
  | .limit child count offset, outer => limitPulls count offset (child.pulls outer)
  | .nestedLoopJoin outerChild inner on_ innerWidth joinType, outer =>
      (outerChild.pulls outer).flatMap (onRow fun outerRow =>
        joinRow ops on_ innerWidth joinType outerRow (inner.pulls outerRow))

/-- The tree runs without an error. -/
def Operator.Runs (operator : Operator) : Prop := ∀ pull ∈ operator.pulls ops s sameRow [], ∃ row, pull = .ok row

end Rows

end QuillDb
