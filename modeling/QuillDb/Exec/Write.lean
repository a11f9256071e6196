/-
  Exec/Write.lean --- the operators that write rows.

  Source: `Insert`, `_scan_matching_rows`, `Delete` and `Update` of
  `quilldb/exec/operators.py`.

  An operator is drained once; its locks are not looked at here.
-/
import QuillDb.BTree.Reads
import QuillDb.Catalog.Catalog
import QuillDb.Sql.Binder

set_option autoImplicit false

namespace QuillDb

open Prog PageStore

section Write

variable (casefold : String → String) (ops : FloatOps)

/-- The positions of an index's columns in its table. -/
def indexColumns (table : TableSchema) (index : IndexSchema) : Except DbError (List Nat) :=
  index.columns.mapM (table.columnIndex casefold)

/-- The columns of an index in a row of its table. -/
def entryKey (table : TableSchema) (values : List Value) (index : IndexSchema) :
    Except DbError (List Value) := do
  let indices ← indexColumns casefold table index
  pickColumns values indices

/-! ## INSERT -/

/-- `Insert.next`: unique indexes are probed first, then the row goes in, then its
entries. -/
def insertRow (indexes : List IndexSchema) (statement : BoundInsert) : StoreM Unit := do
  let keyedIndexes ← lift (indexes.mapM fun index => do
    let key ← entryKey casefold statement.table statement.values index
    return (index, key))
  keyedIndexes.forM fun (index, key) => do
    if index.unique then
      let conflict ← IndexBTree.findConflict index.rootPage key
      raiseIf conflict.isSome (.uniqueViolation index.name key)
  let rowid ← TableCursor.nextRowid statement.table.rootPage
  let payload ← lift (encodeRecord statement.values)
  BTree.insert statement.table.rootPage rowid payload
  keyedIndexes.forM fun (index, key) => IndexBTree.insert index.rootPage key rowid

/-! ## DELETE -/

/-- The test of a WHERE clause on a row. -/
def conditionPasses (condition : Option BoundExpression) (row : List Value) : Except DbError Bool :=
  match condition with
  | none => .ok true
  | some condition => wherePasses <$> evaluate ops row condition

/-- `_scan_matching_rows`. -/
def scanMatchingRows (table : TableSchema) (condition : Option BoundExpression) :
    StoreM (List (Int × List Value)) := do
  let rows ← TableCursor.each table.rootPage fun rowid payload => do
    let row ← lift (decodeRecord payload 0)
    let pass ← lift (conditionPasses ops condition row)
    return if pass then [(rowid, row)] else []
  return rows.flatten

/-- `Delete.next`: the number of rows.  The entries of a row go before it. -/
def deleteRows (indexes : List IndexSchema) (statement : BoundDelete) : StoreM Nat := do
  let found ← scanMatchingRows ops statement.table statement.condition
  found.forM fun (rowid, values) => do
    indexes.forM fun index => do
      let key ← lift (entryKey casefold statement.table values index)
      let _ ← IndexBTree.delete index.rootPage key rowid
    let _ ← BTree.delete statement.table.rootPage rowid
  return found.length

/-! ## UPDATE -/

/-- The row with its assignments, each evaluated on the row as it was. -/
def assignedRow (oldValues : List Value) : List BoundAssignment → List Value →
    Except DbError (List Value)
  | [], newValues => .ok newValues
  | assignment :: rest, newValues => do
      let value ← evaluate ops oldValues assignment.value
      if assignment.columnIndex < newValues.length then
        assignedRow oldValues rest (newValues.set assignment.columnIndex value)
      else .error (.indexError "list assignment index out of range")

/-- The value of a column is the very object it was: it is not assigned, or last
assigned from itself. -/
def keepsObject (assignments : List BoundAssignment) (column : Nat) : Bool :=
  match (assignments.filter fun assignment => assignment.columnIndex = column).getLast? with
  | none => true
  | some ⟨_, .column c⟩ => c.index = column
  | some _ => false

/-- `old_key != new_key`: lists compare their elements by identity first. -/
def keysDiffer (assignments : List BoundAssignment) (indices : List Nat)
    (oldKey newKey : List Value) : Bool :=
  (indices.zip (oldKey.zip newKey)).any fun p =>
    !(keepsObject assignments p.1 || p.2.1.pyEq p.2.2)

/-- An index with the old and the new key of a row, and whether they differ. -/
structure KeyChange where
  index : IndexSchema
  oldKey : List Value
  newKey : List Value
  differs : Bool

def keyChange (table : TableSchema) (assignments : List BoundAssignment)
    (oldValues newValues : List Value) (index : IndexSchema) : Except DbError KeyChange := do
  let indices ← indexColumns casefold table index
  let oldKey ← pickColumns oldValues indices
  let newKey ← pickColumns newValues indices
  return ⟨index, oldKey, newKey, keysDiffer assignments indices oldKey newKey⟩

/-- `BTree.insert` of the new row; if it does not fit, the old one goes back. -/
def replaceRow (root : Nat) (rowid : Int) (oldValues newValues : List Value) : StoreM Unit := do
  let _ ← BTree.delete root rowid
  handle (do
    let payload ← lift (encodeRecord newValues)
    BTree.insert root rowid payload) fun e =>
      match e with
      | .pageFull message => do
          let payload ← lift (encodeRecord oldValues)
          BTree.insert root rowid payload
          raise (.pageFull message)
      | e => raise e

/-- `Update._apply`. -/
def applyUpdate (indexes : List IndexSchema) (statement : BoundUpdate) (rowid : Int)
    (oldValues : List Value) : StoreM Unit := do
  let newValues ← lift (assignedRow ops oldValues statement.assignments oldValues)
  let change := keyChange casefold statement.table statement.assignments oldValues newValues
  indexes.forM fun index => do
    if index.unique then
      let change ← lift (change index)
      if change.differs then
        let conflict ← IndexBTree.findConflict index.rootPage change.newKey
        raiseIf (conflict.any fun other => other ≠ rowid) (.uniqueViolation index.name change.newKey)
  indexes.forM fun index => do
    let change ← lift (change index)
    if change.differs then
      let _ ← IndexBTree.delete index.rootPage change.oldKey rowid
  replaceRow statement.table.rootPage rowid oldValues newValues
  indexes.forM fun index => do
    let change ← lift (change index)
    if change.differs then
      IndexBTree.insert index.rootPage change.newKey rowid

/-- `Update.next`: the number of rows. -/
def updateRows (indexes : List IndexSchema) (statement : BoundUpdate) : StoreM Nat := do
  let found ← scanMatchingRows ops statement.table statement.condition
  found.forM fun (rowid, oldValues) => applyUpdate casefold ops indexes statement rowid oldValues
  return found.length

end Write

end QuillDb
