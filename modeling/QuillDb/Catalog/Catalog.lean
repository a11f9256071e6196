/-
  Catalog/Catalog.lean --- the schema, in memory and on page 1.

  Source: `quilldb/catalog/catalog.py`.

  Page 1 is a table leaf behind the file header, read and written whole and never
  split.  `parse` and `casefold` are the parser and Python's `str.casefold`; a row
  keeps the text it was made from, and `load` parses it again.
-/
import QuillDb.BTree.Cursor
import QuillDb.BTree.Index
import QuillDb.Lib.Dict
import QuillDb.Sql.Ast
import Mathlib.Data.List.Sort

set_option autoImplicit false

namespace QuillDb

open Prog PageStore

/-- `Catalog`: the schemas by casefolded name, in creation order. -/
structure Catalog where
  tables : Dict String TableSchema
  indexes : Dict String IndexSchema
  deriving DecidableEq

/-- A database: the pages with the header's fields, and the catalog over them. -/
structure Database where
  store : PageStore
  schemaCookie : Nat
  catalog : Catalog

abbrev DbM : Type → Type := Prog DbError Database

def onStore {α : Type} (m : StoreM α) : DbM α :=
  zoom Database.store (fun s db => { db with store := s }) m

/-! ## Page 1 -/

/-- `_schema_page`: the cells of page 1. -/
def schemaPage : StoreM (List TableLeafCell) := do
  match ← readBody schemaRootPage with
  | .tableLeaf cells => return cells
  | _ => raise (.corruptDatabase "page 1 is not a LEAF_TABLE sqlite_schema root")

/-- `PageBody.fits` behind the file header. -/
def schemaFits (cells : List TableLeafCell) (cellSize : Nat) : Bool :=
  fileHeaderSize + (PageBody.tableLeaf cells).usedBytes + (cellSize + 2) ≤ pageSize

/-- `_next_catalog_rowid`. -/
def nextCatalogRowid (cells : List TableLeafCell) : Int :=
  match (cells.map TableLeafCell.rowid).max? with
  | none => 1
  | some rowid => rowid + 1

/-- A row of `sqlite_schema` as it is written, whole on the page. -/
def catalogPayload (payload : Bytes) : Payload := ⟨payload.length, payload, 0⟩

/-- `_append_catalog_row`. -/
def appendCatalogRow (rowid : Int) (payload : Bytes) : StoreM Unit := do
  let cell ← lift (encodeLeafTableCell rowid (catalogPayload payload))
  let cells ← schemaPage
  let index := cells.findIdx fun existing => rowid < existing.rowid
  raiseIf (¬ schemaFits cells cell.size) (.pageFull "Cannot insert anymore cells")
  update (·.set schemaRootPage (.body (.tableLeaf (BTree.insertAt cells index cell))))

/-- `_catalog_rows`. -/
def catalogRows : StoreM (List (List Value)) := do
  let cells ← schemaPage
  lift (cells.mapM fun cell =>
    if cell.payload.overflow ≠ 0 ∨ cell.payload.localPart.length ≠ cell.payload.total then
      .error (.corruptDatabase "a sqlite_schema row spilled to overflow; unsupported")
    else decodeRecord cell.payload.localPart 0)

/-- `bump_schema_cookie`. -/
def bumpSchemaCookie : DbM Unit :=
  update fun db => { db with schemaCookie := (db.schemaCookie + 1) % 2 ^ 32 }

/-! ## Lookups -/

section Catalog

variable (casefold : String → String)

namespace Catalog

def getTable (catalog : Catalog) (name : String) : Except DbError TableSchema :=
  match catalog.tables.lookup (casefold name) with
  | some table => .ok table
  | none => .error (.tableNotFound s!"no such table: {name}")

/-- `indexes_for`, in creation order. -/
def indexesFor (catalog : Catalog) (table : String) : List IndexSchema :=
  (catalog.indexes.map Prod.snd).filter fun index => casefold index.table = casefold table

/-- `list_tables`, by casefolded name. -/
def listTables (catalog : Catalog) : List TableSchema :=
  (catalog.tables.insertionSort fun a b => codePoints a.1 ≤ codePoints b.1).map Prod.snd

end Catalog

/-- The columns of an index in a row. -/
def pickColumns (row : List Value) (indices : List Nat) : Except DbError (List Value) :=
  indices.mapM fun i =>
    match row[i]? with
    | some value => .ok value
    | none => .error (.indexError "tuple index out of range")

/-! ## CREATE TABLE -/

def tableSchema (statement : Ast.CreateTable) (rootPage : Nat) (sql : String) : TableSchema where
  name := statement.name
  columns := statement.columns.map fun column => ⟨column.name, column.dataType⟩
  rootPage := rootPage
  sql := sql

/-- `folded.startswith("sqlite_")`. -/
def isReserved (folded : String) : Bool := "sqlite_".toList.isPrefixOf folded.toList

/-- `create_table`. -/
def createTable (statement : Ast.CreateTable) (sql : String) : DbM TableSchema := do
  let db ← state
  let folded := casefold statement.name
  raiseIf (isReserved folded) (.unsupportedFeature
    s!"table name {statement.name} uses the reserved 'sqlite_' prefix")
  raiseIf (db.catalog.tables.lookup folded).isSome
    (.tableExists s!"table {statement.name} already exists")
  let rootPage ← onStore allocatePage
  let cells ← onStore schemaPage
  let rowid := nextCatalogRowid cells
  let payload ← lift (encodeRecord
    [.text "table", .text statement.name, .text statement.name, .int rootPage, .text sql])
  let cell ← lift (encodeLeafTableCell rowid (catalogPayload payload))
  if schemaFits cells cell.size then
    onStore (initBody rootPage (.tableLeaf []))
    onStore (appendCatalogRow rowid payload)
    bumpSchemaCookie
    let schema := tableSchema statement rootPage sql
    update fun db => { db with catalog.tables := db.catalog.tables.put folded schema }
    return schema
  else
    onStore (freePage rootPage)
    raise (.pageFull s!"sqlite_schema (page 1) has no room for table {statement.name}")

/-! ## CREATE INDEX -/

def indexSchema (statement : Ast.CreateIndex) (table : TableSchema) (rootPage : Nat) (sql : String) :
    IndexSchema where
  name := statement.name
  table := table.name
  columns := statement.columns
  unique := statement.unique
  rootPage := rootPage
  sql := sql

/-- Two neighbours of different rows with equal keys. -/
def adjacentDuplicate : List (List Value × Int) → Option (List Value)
  | previous :: row :: rest =>
      if previous.2 ≠ row.2 ∧ compareKeys previous.1 row.1 = .eq then some row.1
      else adjacentDuplicate (row :: rest)
  | _ => none

/-- `_first_duplicate_key`: NULL is no one's duplicate. -/
def firstDuplicateKey (keyedRows : List (List Value × Int)) : Option (List Value) :=
  adjacentDuplicate ((keyedRows.filter fun row => Value.null ∉ row.1).insertionSort
    fun a b => compareKeys a.1 b.1 ≠ .gt)

/-- `_reject_existing_duplicate`. -/
def rejectExistingDuplicate (indexName : String) (table : TableSchema) (columnIndices : List Nat) :
    StoreM Unit := do
  let keyedRows ← TableCursor.each table.rootPage fun rowid payload => do
    let row ← lift (decodeRecord payload 0)
    let key ← lift (pickColumns row columnIndices)
    return (key, rowid)
  match firstDuplicateKey keyedRows with
  | some key => raise (.uniqueViolation indexName key)
  | none => pure ()

/-- `_backfill`: an entry for each row, in scan order. -/
def backfill (rootPage : Nat) (table : TableSchema) (columnIndices : List Nat) : StoreM Unit := do
  let _ ← TableCursor.each table.rootPage fun rowid payload => do
    let row ← lift (decodeRecord payload 0)
    let values ← lift (pickColumns row columnIndices)
    IndexBTree.insert rootPage values rowid
  return ()

/-- `create_index`. -/
def createIndex (statement : Ast.CreateIndex) (sql : String) : DbM IndexSchema := do
  let db ← state
  let folded := casefold statement.name
  raiseIf (isReserved folded) (.unsupportedFeature
    s!"index name {statement.name} uses the reserved 'sqlite_' prefix")
  raiseIf ((db.catalog.indexes.lookup folded).isSome ∨ (db.catalog.tables.lookup folded).isSome)
    (.indexExists s!"index {statement.name} already exists")
  let table ← lift (db.catalog.getTable casefold statement.table)
  let columnIndices ← lift (statement.columns.mapM (table.columnIndex casefold))
  if statement.unique then
    onStore (rejectExistingDuplicate statement.name table columnIndices)
  let rootPage ← onStore allocatePage
  let cells ← onStore schemaPage
  let rowid := nextCatalogRowid cells
  let payload ← lift (encodeRecord
    [.text "index", .text statement.name, .text table.name, .int rootPage, .text sql])
  let cell ← lift (encodeLeafTableCell rowid (catalogPayload payload))
  if schemaFits cells cell.size then
    onStore (initBody rootPage (.indexLeaf []))
    onStore (handle (backfill rootPage table columnIndices) fun e =>
      match e with
      | .pageFull message => do
          freePage rootPage
          raise (.pageFull message)
      | e => raise e)
    onStore (appendCatalogRow rowid payload)
    bumpSchemaCookie
    let schema := indexSchema statement table rootPage sql
    update fun db => { db with catalog.indexes := db.catalog.indexes.put folded schema }
    return schema
  else
    onStore (freePage rootPage)
    raise (.pageFull s!"sqlite_schema (page 1) has no room for index {statement.name}")

/-! ## Loading -/

section Load

variable (parse : String → Except DbError Ast.Statement) (pageCount : Nat)

/-- `_reparse_table`. -/
def reparseTable (name sql : String) : Except DbError Ast.CreateTable :=
  match parse sql with
  | .ok (.createTable statement) => .ok statement
  | .ok _ => .error (.corruptDatabase
      s!"sqlite_schema row {name} stores a non-CREATE TABLE statement")
  | .error _ => .error (.corruptDatabase s!"sqlite_schema row {name} stores unparseable SQL: {sql}")

/-- `_reparse_index`. -/
def reparseIndex (name sql : String) : Except DbError Ast.CreateIndex :=
  match parse sql with
  | .ok (.createIndex statement) => .ok statement
  | .ok _ => .error (.corruptDatabase
      s!"sqlite_schema row {name} stores a non-CREATE INDEX statement")
  | .error _ => .error (.corruptDatabase s!"sqlite_schema row {name} stores unparseable SQL: {sql}")

def corruptUnless (c : Prop) [Decidable c] (message : String) : Except DbError Unit :=
  if c then .ok () else .error (.corruptDatabase message)

/-- A row of type `table`. -/
def loadTable (catalog : Catalog) (name tblName : String) (rootPage : Nat) (sql : String) :
    Except DbError Catalog := do
  corruptUnless (tblName = name) s!"sqlite_schema row {name} has mismatched tbl_name {tblName}"
  let statement ← reparseTable parse name sql
  corruptUnless (casefold statement.name = casefold name)
    s!"sqlite_schema row {name} stores SQL that creates {statement.name} instead"
  corruptUnless ((catalog.tables.lookup (casefold name)).isNone)
    s!"sqlite_schema holds two tables named {name}"
  let schema : TableSchema := ⟨name, statement.columns.map fun column => ⟨column.name, column.dataType⟩,
    rootPage, sql⟩
  return { catalog with tables := catalog.tables.put (casefold name) schema }

/-- A row of type `index`. -/
def loadIndex (catalog : Catalog) (name tblName : String) (rootPage : Nat) (sql : String) :
    Except DbError Catalog := do
  let statement ← reparseIndex parse name sql
  corruptUnless (casefold statement.name = casefold name)
    s!"sqlite_schema row {name} stores SQL that creates {statement.name} instead"
  corruptUnless (casefold statement.table = casefold tblName)
    (s!"sqlite_schema row {name} stores SQL indexing {statement.table}, " ++
      s!"not its own tbl_name {tblName}")
  match catalog.tables.lookup (casefold tblName) with
  | none => .error (.corruptDatabase s!"sqlite_schema index {name} names unknown table {tblName}")
  | some table =>
      corruptUnless (∀ column ∈ statement.columns, (table.columnIndex casefold column).toOption.isSome)
        s!"sqlite_schema index {name} references an unknown column on table {tblName}"
      corruptUnless ((catalog.indexes.lookup (casefold name)).isNone)
        s!"sqlite_schema holds two indexes named {name}"
      let schema : IndexSchema := ⟨name, table.name, statement.columns, statement.unique, rootPage, sql⟩
      return { catalog with indexes := catalog.indexes.put (casefold name) schema }

/-- One row of `sqlite_schema`. -/
def loadRow (catalog : Catalog) : List Value → Except DbError Catalog
  | [objectType, name, tblName, rootPage, sql] => do
      if objectType ≠ .text "table" ∧ objectType ≠ .text "index" then
        .error (.unsupportedFeature
          "sqlite_schema holds another object; only tables and indexes are supported")
      else
        match name, tblName, sql with
        | .text name, .text tblName, .text sql =>
            match rootPage with
            | .int rootPage => do
                corruptUnless (1 ≤ rootPage ∧ rootPage ≤ pageCount)
                  s!"sqlite_schema row for {name} claims rootpage {rootPage}, outside 1..{pageCount}"
                if objectType = .text "table" then
                  loadTable casefold parse catalog name tblName rootPage.toNat sql
                else loadIndex casefold parse catalog name tblName rootPage.toNat sql
            | _ => .error (.corruptDatabase s!"sqlite_schema row for {name} has a non-integer rootpage")
        | _, _, _ => .error (.corruptDatabase "sqlite_schema row has a non-text name/tbl_name/sql")
  | row => .error (.corruptDatabase s!"sqlite_schema row has {row.length} columns, expected 5")

/-- `load`. -/
def load : DbM Unit := do
  let rows ← onStore catalogRows
  let db ← state
  let catalog ← lift (rows.foldlM (loadRow casefold parse db.store.pageCount) ⟨[], []⟩)
  update fun db => { db with catalog := catalog }

end Load

end Catalog

end QuillDb
