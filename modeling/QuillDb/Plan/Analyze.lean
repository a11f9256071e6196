/-
  Plan/Analyze.lean --- measuring trees and keeping the figures in `quill_stat1`.

  Source: `quilldb/plan/analyze.py`, `encode_stat1_row` of `quilldb/plan/statistics.py`.

  `listEq` is Python's `==` on key prefixes: `tupleEq` on values that are different objects,
  where an object is also equal to itself.
-/
import QuillDb.BTree.Reads
import QuillDb.Catalog.Catalog

set_option autoImplicit false

namespace QuillDb

open Prog PageStore

/-! ## Measuring -/

structure TableStats where
  rowCount : Nat
  pageCount : Nat
  height : Nat
  deriving DecidableEq, Repr

structure IndexStats where
  rowCount : Nat
  rowsPerPrefix : List Nat
  height : Nat
  leafPages : Nat
  deriving DecidableEq, Repr

/-- The walk of `measure_table` below a page: rows, pages and levels; the level is that
of the last child. -/
def measureTableFrom : Nat → Nat → StoreM TableStats
  | 0, _ => raise (.btreeInvariant "the descent does not end")
  | fuel + 1, pageId => do
      match ← readBody pageId with
      | .tableLeaf cells => return ⟨cells.length, 1, 1⟩
      | .tableInterior cells rightChild => do
          let kids ← (childrenOfInterior cells rightChild).mapM (measureTableFrom fuel)
          return ⟨(kids.map TableStats.rowCount).sum, (kids.map TableStats.pageCount).sum + 1,
            ((kids.getLast?.map TableStats.height).getD 0) + 1⟩
      | _ => raise (.malformedCell "not a table interior cell")

/-- `measure_table`. -/
def measureTable (root : Nat) : StoreM TableStats := do
  let s ← state
  measureTableFrom (s.pageCount + 1) root

/-- What the walk of `measure_index` collects: the keys of the leaves, how many leaves,
and the levels. -/
def measureIndexFrom : Nat → Nat → StoreM (List (List Value) × Nat × Nat)
  | 0, _ => raise (.btreeInvariant "the descent does not end")
  | fuel + 1, pageId => do
      match ← readBody pageId with
      | .indexLeaf cells => do
          let keys ← cells.mapM IndexBTree.decodeKey
          return (keys, 1, 1)
      | .indexInterior cells rightChild => do
          let kids ← (childrenOfInterior cells rightChild).mapM (measureIndexFrom fuel)
          return ((kids.map Prod.fst).flatten, (kids.map fun kid => kid.2.1).sum,
            ((kids.getLast?.map fun kid => kid.2.2).getD 0) + 1)
      | _ => raise (.malformedCell "not an index interior cell")

/-- `==` of tuples, one value after the other. -/
def tupleEq (a b : List Value) : Bool := a.isEqv b Value.pyEq

section Analyze

variable (listEq : List Value → List Value → Bool)

/-- The lengths of the runs of equal neighbours. -/
def runLengths (current : List Value) (length : Nat) : List (List Value) → List Nat
  | [] => [length]
  | key :: keys =>
      if listEq key current then runLengths current (length + 1) keys
      else length :: runLengths key 1 keys

/-- `_rows_per_prefix`. -/
def rowsPerPrefix (leafKeys : List (List Value)) (keyColumns : Nat) : List Nat :=
  match leafKeys with
  | [] => List.replicate keyColumns 1
  | first :: rest =>
      (List.range keyColumns).map fun p =>
        let lengths := runLengths listEq (first.take (p + 1)) 1 (rest.map fun key => key.take (p + 1))
        lengths.sum / lengths.length

/-- `measure_index`. -/
def measureIndex (root keyColumns : Nat) : StoreM IndexStats := do
  let s ← state
  let (leafKeys, leafPages, height) ← measureIndexFrom (s.pageCount + 1) root
  return ⟨leafKeys.length, rowsPerPrefix listEq leafKeys keyColumns, height, leafPages⟩

/-- `encode_stat1_row`. -/
def encodeStat1Row (stats : IndexStats) : String :=
  " ".intercalate ((stats.rowCount :: stats.rowsPerPrefix).map toString)

/-! ## `quill_stat1` -/

def stat1TableName : String := "quill_stat1"

def stat1TableSql : String :=
  "CREATE TABLE quill_stat1 (tbl TEXT, idx TEXT, stat TEXT, page_count INTEGER, height INTEGER)"

/-- `parse(_STAT1_TABLE_SQL)`. -/
def stat1Table : Ast.CreateTable where
  name := stat1TableName
  columns := [⟨"tbl", .text⟩, ⟨"idx", .text⟩, ⟨"stat", .text⟩, ⟨"page_count", .integer⟩,
    ⟨"height", .integer⟩]

/-- `_decode_row`: the table and the index of a row. -/
def decodeStat1Row (payload : Bytes) : Except DbError (String × Option String) := do
  match ← decodeRecord payload 0 with
  | [.text tbl, .null, .text _, .int _, .int _] => .ok (tbl, none)
  | [.text tbl, .text idx, .text _, .int _, .int _] => .ok (tbl, some idx)
  | [_, _, _, _, _] => .error (.corruptDatabase "quill_stat1 row is malformed")
  | _ => .error (.valueError "not enough values to unpack (expected 5)")

namespace StatisticsCatalog

/-- `_clear_rows`. -/
def clearRows (root : Nat) (tbl : String) (idx : Option String) : StoreM Unit := do
  let staleRowids ← TableCursor.each root fun rowid payload => do
    let row ← lift (decodeStat1Row payload)
    return if row = (tbl, idx) then [rowid] else []
  staleRowids.flatten.forM fun rowid => do
    let _ ← BTree.delete root rowid

/-- `_write_row`. -/
def writeRow (root : Nat) (tbl : String) (idx : Option String) (stat : String) (pageCount height : Nat) :
    StoreM Unit := do
  let payload ← lift (encodeRecord
    [.text tbl, (match idx with | some idx => .text idx | none => .null), .text stat, .int pageCount,
      .int height])
  let rowid ← TableCursor.nextRowid root
  BTree.insert root rowid payload

/-- `_analyze_table`. -/
def analyzeTable (root : Nat) (indexes : List IndexSchema) (table : TableSchema) : StoreM Unit := do
  let stats ← measureTable table.rootPage
  clearRows root table.name none
  writeRow root table.name none (toString stats.rowCount) stats.pageCount stats.height
  indexes.forM fun index => do
    let stats ← measureIndex listEq index.rootPage index.columns.length
    clearRows root table.name (some index.name)
    writeRow root table.name (some index.name) (encodeStat1Row stats) stats.leafPages stats.height

variable (casefold : String → String)

/-- `_ensure_table`. -/
def ensureTable : DbM TableSchema := do
  let db ← state
  match db.catalog.getTable casefold stat1TableName with
  | .ok table => return table
  | .error _ => createTable casefold stat1Table stat1TableSql

/-- `analyze`, with `quill_stat1` at `root`. -/
def analyze (root : Nat) (target : Option String) : DbM Unit := do
  let db ← state
  match target with
  | none =>
      (db.catalog.listTables.filter fun table => table.name ≠ stat1TableName).forM fun table =>
        onStore (analyzeTable listEq root (db.catalog.indexesFor casefold table.name) table)
  | some name => do
      let table ← lift (db.catalog.getTable casefold name)
      onStore (analyzeTable listEq root (db.catalog.indexesFor casefold table.name) table)
  bumpSchemaCookie

end StatisticsCatalog

end Analyze

end QuillDb
