/-
  Exec/Reload.lean --- page 1 and the catalog in memory.

  Source: `load`, `_catalog_rows`, `create_table` and `create_index` of
  `quilldb/catalog/catalog.py`.

  The catalog is kept twice, as rows of page 1 and as schemas in memory.  `load` makes the
  schemas from the rows when a database is opened, so what a connection sees must be what
  the rows say after any run of statements.  `parse` is the parser; a statement stands for
  the text that it was parsed from.
-/
import QuillDb.Exec.Databases

set_option autoImplicit false

namespace QuillDb

open Prog PageStore Fallible

/-! ## Page 1 -/

/-- A cell of page 1, as `_catalog_rows` reads it. -/
def catalogRow (cell : TableLeafCell) : Except DbError (List Value) :=
  if cell.payload.overflow ≠ 0 ∨ cell.payload.localPart.length ≠ cell.payload.total then
    .error (.corruptDatabase "a sqlite_schema row spilled to overflow; unsupported")
  else decodeRecord cell.payload.localPart 0

theorem catalogRows_eq : catalogRows = (do
    let cells ← schemaPage
    lift (cells.mapM catalogRow)) := rfl

theorem catalogRow_payload {rowid : Int} {row : List Value} {payload : Bytes} (h : encodeRecord row = .ok payload) :
    catalogRow ⟨rowid, catalogPayload payload⟩ = .ok row := by
  have hdecode := decodeRecord_encodeRecord [] [] h
  rw [List.append_nil, List.nil_append, List.length_nil] at hdecode
  simpa [catalogRow, catalogPayload] using hdecode

theorem lt_nextCatalogRowid {cells : List TableLeafCell} : ∀ cell ∈ cells, cell.rowid < nextCatalogRowid cells := by
  intro cell hcell
  unfold nextCatalogRowid
  split
  · rename_i hnone
    rw [List.max?_eq_none_iff, List.map_eq_nil_iff] at hnone
    rw [hnone] at hcell
    cases hcell
  · rename_i rowid hmax
    have hle := (List.max?_eq_some_iff.mp hmax).2 cell.rowid (List.mem_map_of_mem hcell)
    omega

/-- The new row goes behind the others. -/
theorem withCatalogRow_next (cells : List TableLeafCell) (payload : Bytes) :
    withCatalogRow cells (nextCatalogRowid cells) payload =
      .body (.tableLeaf (cells ++ [⟨nextCatalogRowid cells, catalogPayload payload⟩])) := by
  have hlast : cells.findIdx (fun existing => nextCatalogRowid cells < existing.rowid) = cells.length := by
    rw [List.findIdx_eq_length]
    intro cell hcell
    have hlt := lt_nextCatalogRowid cell hcell
    simp
    omega
  rw [withCatalogRow, hlast, BTree.insertAt]
  simp

section Load

variable (casefold : String → String) (parse : String → Except DbError Ast.Statement)

/-- The rows of page 1 make this catalog, in a file that has its root pages. -/
def CatalogPage (catalog : Catalog) (header : PageContent) : Prop :=
  ∃ cells rows, header = .body (.tableLeaf cells) ∧ cells.mapM catalogRow = .ok rows ∧
    ∀ pageCount, (∀ slot ∈ catalog.slots, slot.2 ≤ pageCount) →
      rows.foldlM (loadRow casefold parse pageCount) ⟨[], []⟩ = .ok catalog

/-- The statement is what its text says. -/
def Mutation.Parsed : Mutation → Prop
  | bootstrap => parse stat1TableSql = .ok (.createTable stat1Table)
  | createTable statement sql => parse sql = .ok (.createTable statement)
  | createIndex statement sql => parse sql = .ok (.createIndex statement)
  | _ => True

/-- Page 1 says what the catalog says, and the pages hold its trees. -/
def Loadable (db : Database) : Prop :=
  db.catalog.Named casefold ∧ ∃ header content, Stores header db.catalog.slots content db.store ∧
    CatalogPage casefold parse db.catalog header

variable {casefold parse} {header header' : PageContent} {content : Content} {db db' : Database}

/-- `load` finds the catalog on page 1, whatever is in memory. -/
theorem Loadable.load_eq (h : Loadable casefold parse db) (catalog : Catalog) :
    load casefold parse { db with catalog := catalog } = (.ok (), db) := by
  obtain ⟨-, header, content, hs, cells, rows, hheader, hrows, hfold⟩ := h
  have hpage : schemaPage db.store = (.ok cells, db.store) := by
    have hread : readBody schemaRootPage db.store = (.ok (.tableLeaf cells), db.store) := by
      have hget : getPage schemaRootPage db.store = (.ok header, db.store) := by
        rw [getPage, bind_of_ok (state_apply _), if_pos ⟨le_refl _, hs.pageCount_pos⟩, hs.header_eq]
        rfl
      rw [readBody, bind_of_ok hget, hheader]
      rfl
    rw [schemaPage, bind_of_ok hread]
    rfl
  have hcatalogRows : catalogRows db.store = (.ok rows, db.store) := by
    rw [catalogRows_eq, bind_of_ok hpage, hrows]
    rfl
  have hloaded := hfold db.store.pageCount fun slot hslot => (hs.root_range hslot).2
  have hstore : onStore catalogRows { db with catalog := catalog } = (.ok rows, { db with catalog := catalog }) := by
    rw [onStore, zoom, hcatalogRows]
  rw [load, bind_of_ok hstore, bind_of_ok (state_apply _), hloaded]
  rfl

/-! ## Statements -/

theorem loadRow_table {catalog : Catalog} {pageCount rootPage : Nat} {statement : Ast.CreateTable} {sql : String}
    (hparse : parse sql = .ok (.createTable statement)) (hrange : 1 ≤ rootPage ∧ rootPage ≤ pageCount)
    (hnew : catalog.tables.lookup (casefold statement.name) = none) :
    loadRow casefold parse pageCount catalog (schemaRow "table" statement.name statement.name rootPage sql) =
      .ok { catalog with
        tables := catalog.tables.put (casefold statement.name) (tableSchema statement rootPage sql) } := by
  have hroot : (1 : Int) ≤ rootPage ∧ (rootPage : Int) ≤ pageCount := by omega
  simp [schemaRow, loadRow, loadTable, reparseTable, corruptUnless, hparse, hroot, hnew, tableSchema, bind, Except.bind]
  rfl

theorem loadRow_index {catalog : Catalog} {pageCount rootPage : Nat} {statement : Ast.CreateIndex} {sql : String}
    {table : TableSchema} (hparse : parse sql = .ok (.createIndex statement))
    (hrange : 1 ≤ rootPage ∧ rootPage ≤ pageCount)
    (hnew : catalog.indexes.lookup (casefold statement.name) = none)
    (htable : catalog.tables.lookup (casefold table.name) = some table)
    (hname : casefold statement.table = casefold table.name)
    (hcolumns : ∀ column ∈ statement.columns, (table.columnIndex casefold column).toOption.isSome) :
    loadRow casefold parse pageCount catalog (schemaRow "index" statement.name table.name rootPage sql) =
      .ok { catalog with
        indexes := catalog.indexes.put (casefold statement.name) (indexSchema statement table rootPage sql) } := by
  have hroot : (1 : Int) ≤ rootPage ∧ (rootPage : Int) ≤ pageCount := by omega
  simp [schemaRow, loadRow, loadIndex, reparseIndex, corruptUnless, hparse, hroot, hnew, htable, hname, indexSchema,
    bind, Except.bind, if_pos hcolumns]
  rfl

/-- One row more on page 1. -/
theorem CatalogPage.add {catalog catalog' : Catalog} (h : CatalogPage casefold parse catalog header)
    {row : List Value} {rootPage : Nat} (hregistered : Registered header db row rootPage header')
    (hslots : ∀ slot ∈ catalog.slots, slot ∈ catalog'.slots)
    (hload : ∀ pageCount, (∀ slot ∈ catalog'.slots, slot.2 ≤ pageCount) →
      loadRow casefold parse pageCount catalog row = .ok catalog') : CatalogPage casefold parse catalog' header' := by
  obtain ⟨cells, rows, hheader, hrows, hfold⟩ := h
  obtain ⟨cells', payload, hheader', hpayload, hnew⟩ := hregistered.row
  obtain rfl : cells = cells' := by
    rw [hheader] at hheader'
    simpa using hheader'
  refine ⟨_, rows ++ [row], hnew.trans (withCatalogRow_next cells payload), ?_, fun pageCount hroots => ?_⟩
  · rw [mapM_eq_ok_iff]
    exact List.rel_append (mapM_ok hrows) (.cons (catalogRow_payload hpayload) .nil)
  · rw [List.foldlM_append, hfold pageCount fun slot hslot => hroots slot (hslots slot hslot)]
    have hlast : [row].foldlM (loadRow casefold parse pageCount) catalog = .ok catalog' := by
      rw [List.foldlM_cons, hload pageCount hroots]
      rfl
    exact hlast

theorem Loadable.addTable (hnames : db.catalog.Named casefold) (hpage : CatalogPage casefold parse db.catalog header)
    {statement : Ast.CreateTable} {sql : String} (hparse : parse sql = .ok (.createTable statement))
    (h : AddsTable casefold header statement sql db db') : Loadable casefold parse db' := by
  obtain ⟨hnew, rootPage, header', content, hcatalog, hregistered, hs⟩ := h
  have hslots := slots_put_table hnew (tableSchema statement rootPage sql)
  rw [← hcatalog] at hslots
  have hroot : (.table, rootPage) ∈ db'.catalog.slots := hslots.mem_iff.mp (List.mem_cons_self ..)
  refine ⟨?_, header', content, hs, ?_⟩
  · rw [hcatalog]
    exact hnames.addTable (tableSchema statement rootPage sql) hnew
  · apply hpage.add hregistered
    · exact fun slot hslot => hslots.mem_iff.mp (List.mem_cons_of_mem _ hslot)
    · intro pageCount hroots
      have hlow := (hs.root_range hroot).1
      rw [hcatalog]
      exact loadRow_table hparse ⟨by omega, hroots _ hroot⟩ hnew

theorem Loadable.addIndex (hnames : db.catalog.Named casefold) (hpage : CatalogPage casefold parse db.catalog header)
    {statement : Ast.CreateIndex} {sql : String} (hparse : parse sql = .ok (.createIndex statement))
    (h : AddsIndex casefold header statement sql db db') : Loadable casefold parse db' := by
  obtain ⟨hnew, table, rootPage, header', content, htable, ⟨positions, hcolumns⟩, hcatalog, hregistered, hs⟩ := h
  have hslots := slots_put_index hnew (indexSchema statement table rootPage sql)
  rw [← hcatalog] at hslots
  have hroot : (.index, rootPage) ∈ db'.catalog.slots := hslots.mem_iff.mp (List.mem_cons_self ..)
  obtain ⟨hlookup, hname⟩ := hnames.lookup_self htable
  refine ⟨?_, header', content, hs, ?_⟩
  · obtain ⟨e, he, rfl⟩ := mem_tables htable
    rw [hcatalog]
    exact hnames.addIndex hnew he rfl
  · apply hpage.add hregistered
    · exact fun slot hslot => hslots.mem_iff.mp (List.mem_cons_of_mem _ hslot)
    · intro pageCount hroots
      have hlow := (hs.root_range hroot).1
      rw [hcatalog]
      refine loadRow_index hparse ⟨by omega, hroots _ hroot⟩ hnew hlookup hname fun column hcolumn => ?_
      obtain ⟨i, -, hi⟩ := exists_right (mapM_ok hcolumns) hcolumn
      rw [hi]
      rfl

theorem Loadable.keep (hnames : db.catalog.Named casefold) (hpage : CatalogPage casefold parse db.catalog header)
    (h : Kept header db db') : Loadable casefold parse db' := by
  obtain ⟨hcatalog, content, hs⟩ := h
  exact ⟨hcatalog ▸ hnames, header, content, hs, hcatalog ▸ hpage⟩

/-- One statement. -/
theorem Loadable.step {ops : FloatOps} {listEq : List Value → List Value → Bool} {mutation : Mutation}
    (h : Loadable casefold parse db) (hparsed : mutation.Parsed parse) :
    Post (mutation.run casefold ops listEq) db
      (fun _ db' => db'.store.pageCount < 2 ^ 32 → Loadable casefold parse db') fun _ _ => True := by
  obtain ⟨hnames, header, content, hs, hpage⟩ := h
  apply (Mutation.run_effect hs).mono ?_ fun _ _ _ => trivial
  intro _ db' heffect hsmall
  replace heffect := heffect hsmall
  cases mutation with
  | bootstrap =>
      rcases heffect with h | h
      · exact keep hnames hpage h
      · exact addTable hnames hpage hparsed h
  | createTable statement sql => exact addTable hnames hpage hparsed heffect
  | createIndex statement sql => exact addIndex hnames hpage hparsed heffect
  | analyze target => exact keep hnames hpage heffect
  | rows request => exact keep hnames hpage heffect

/-- After every run of statements, `load` makes from page 1 the catalog that is in memory,
with its tables and its indexes in the same order. -/
theorem load_rebuilds {ops : FloatOps} {listEq : List Value → List Value → Bool} {mutations : List Mutation}
    (hdb : Loadable casefold parse db)
    (hrun : Executes casefold ops listEq (fun mutation _ => mutation.Parsed parse) db mutations db')
    (hsmall : db'.store.pageCount < 2 ^ 32) (catalog : Catalog) :
    load casefold parse { db' with catalog := catalog } = (.ok (), db') :=
  (hrun.induct hsmall hdb fun _ _ hdb hparsed => hdb.step hparsed).load_eq catalog

end Load

/-! ## A new database -/

theorem newDatabase_loadable (casefold : String → String) (parse : String → Except DbError Ast.Statement) :
    Loadable casefold parse newDatabase := by
  refine ⟨⟨fun e he => absurd he List.not_mem_nil, List.nodup_nil, fun i hi => absurd hi List.not_mem_nil⟩, _,
    ⟨fun _ => [], fun _ => []⟩, newDatabase_stores _, [], [], rfl, rfl, fun pageCount _ => rfl⟩

/-- The statements of `oneRow` by their texts. -/
def parseOneRow (sql : String) : Except DbError Ast.Statement :=
  if sql = stat1TableSql then .ok (.createTable stat1Table)
  else if sql = "CREATE TABLE t (a INTEGER)" then .ok (.createTable ⟨"t", [⟨"a", .integer⟩]⟩)
  else .ok (.createIndex ⟨"i", "t", ["a"], true⟩)

theorem load_rebuilds_oneRow : ∃ db, Executes id noFloats tupleEq (fun mutation _ => mutation.Parsed parseOneRow)
    newDatabase oneRow db ∧ load id parseOneRow { db with catalog := ⟨[], []⟩ } = (.ok (), db) := by
  obtain ⟨db, hrun, hsmall⟩ := oneRow_executes (fun mutation _ => mutation.Parsed parseOneRow) fun mutation hmem _ => by
    simp only [oneRow, List.mem_cons, List.not_mem_nil, or_false] at hmem
    rcases hmem with rfl | rfl | rfl | rfl | rfl
    · rfl
    · rfl
    · rfl
    · trivial
    · trivial
  exact ⟨db, hrun, load_rebuilds (newDatabase_loadable id parseOneRow) hrun hsmall ⟨[], []⟩⟩

end QuillDb
