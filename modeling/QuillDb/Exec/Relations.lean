/-
  Exec/Relations.lean --- what runs of statements mean.

  Source: `_run_mutation` of `quilldb/api/connection.py`, the operators that write of
  `quilldb/exec/operators.py`, `create_table` and `create_index` of
  `quilldb/catalog/catalog.py`, `analyze` of `quilldb/plan/analyze.py`.

  A database is here a catalog and the rows of its tables.  There are no pages, no trees and
  no indexes; a UNIQUE index is a condition on rows.  A statement that succeeds on the pages
  is a step of this machine.
-/
import QuillDb.Exec.InStepRuns
import QuillDb.Lib.Runs

set_option autoImplicit false

namespace QuillDb

open Prog PageStore Fallible

/-! ## Relations -/

/-- The catalog, and the rows of each table under the name that the catalog lists it by. -/
structure Relations where
  catalog : Catalog
  rows : String → List (Int × List Value)

namespace Relations

def setRows (R : Relations) (name : String) (rows : List (Int × List Value)) : Relations :=
  ⟨R.catalog, Function.update R.rows name rows⟩

section Step

variable (casefold : String → String) (ops : FloatOps) (listEq : List Value → List Value → Bool)

/-- An empty table more. -/
def Creates (statement : Ast.CreateTable) (sql : String) (R R' : Relations) : Prop :=
  R.catalog.tables.lookup (casefold statement.name) = none ∧ ∃ rootPage,
    R' = ⟨{ R.catalog with
        tables := R.catalog.tables.put (casefold statement.name) (tableSchema statement rootPage sql) },
      Function.update R.rows (casefold statement.name) []⟩

/-- An index more; if it is UNIQUE, the rows of its table hold no duplicate. -/
def Enters (statement : Ast.CreateIndex) (sql : String) (R R' : Relations) : Prop :=
  R.catalog.indexes.lookup (casefold statement.name) = none ∧ ∃ table rootPage positions,
    R.catalog.getTable casefold statement.table = .ok table ∧
    statement.columns.mapM (table.columnIndex casefold) = .ok positions ∧
    (statement.unique = true → ¬ HasDuplicate (keyedBy positions (R.rows (casefold table.name)))) ∧
    R' = ⟨{ R.catalog with
      indexes := R.catalog.indexes.put (casefold statement.name) (indexSchema statement table rootPage sql) }, R.rows⟩

/-- The figures of a table and its indexes; the keys are some that are in step. -/
def FiguresOf (R : Relations) (table : TableSchema) (figures : List StatFigure) : Prop :=
  ∃ first rest, figures = first :: rest ∧ TableFigure (R.rows (casefold table.name)) first ∧
    List.Forall₂ (fun index figure => ∃ positions keys, indexColumns casefold table index = .ok positions ∧
      Indexed positions (R.rows (casefold table.name)) keys ∧ IndexFigure listEq keys index figure)
      (R.catalog.indexesFor casefold table.name) rest

/-- `quill_stat1` has new rows about a table. -/
def Restates (table : TableSchema) (R R' : Relations) : Prop :=
  ∃ figures, R.FiguresOf casefold listEq table figures ∧
    R' = R.setRows (casefold stat1TableName)
      (figures.foldl (restated table.name) (R.rows (casefold stat1TableName)))

/-- What a statement means. -/
def Step : Mutation → Relations → Relations → Prop
  | .bootstrap, R, R' => R' = R ∨ Creates casefold stat1Table stat1TableSql R R'
  | .createTable statement sql, R, R' => Creates casefold statement sql R R'
  | .createIndex statement sql, R, R' => Enters casefold statement sql R R'
  | .analyze target, R, R' => ∃ tables, StatisticsCatalog.analyzed casefold R.catalog target = .ok tables ∧
      Runs (Restates casefold listEq) R tables R'
  | .rows request, R, R' => ∃ table rows, request.Makes casefold ops R.catalog table (R.rows (casefold table.name))
      rows ∧ R' = R.setRows (casefold table.name) rows

end Step

end Relations

/-- The trees of the database say these relations, and its indexes are in step. -/
def Represents (casefold : String → String) (db : Database) (R : Relations) : Prop :=
  ∃ header content, Stores header db.catalog.slots content db.store ∧ InStep casefold db.catalog content ∧
    R.catalog = db.catalog ∧ ∀ e ∈ db.catalog.tables, R.rows e.1 = content.rows e.2.rootPage

/-! ## One statement -/

section Simulation

variable {casefold : String → String} {ops : FloatOps} {listEq : List Value → List Value → Bool}
  {header : PageContent} {content content' : Content} {db db' : Database} {R : Relations} {catalog : Catalog}
  {s : PageStore}

/-- The rows of a table of the catalog. -/
theorem rows_of_mem (h : InStep casefold catalog content)
    (hrows : ∀ e ∈ catalog.tables, R.rows e.1 = content.rows e.2.rootPage) {e : String × TableSchema}
    (he : e ∈ catalog.tables) : R.rows (casefold e.2.name) = content.rows e.2.rootPage := by
  rw [← h.names.named e he]
  exact hrows e he

/-- One table has new rows. -/
theorem rows_setRows (h : InStep casefold catalog content) (hs : Stores header catalog.slots content s)
    (hrows : ∀ e ∈ catalog.tables, R.rows e.1 = content.rows e.2.rootPage) {e : String × TableSchema}
    (he : e ∈ catalog.tables) {rows : List (Int × List Value)}
    (hcontent : content'.rows = Function.update content.rows e.2.rootPage rows) :
    ∀ t ∈ catalog.tables, (R.setRows (casefold e.2.name) rows).rows t.1 = content'.rows t.2.rootPage := by
  intro t ht
  rw [hcontent, Relations.setRows, ← h.names.named e he]
  by_cases heq : t = e
  · subst heq
    simp
  · have hname : t.1 ≠ e.1 := fun hname => heq (List.inj_on_of_nodup_map h.names.distinct ht he hname)
    have hroot : t.2.rootPage ≠ e.2.rootPage :=
      fun hroot => heq (List.inj_on_of_nodup_map (nodup_tableRoots hs) ht he hroot)
    simp only [Function.update_of_ne hname, Function.update_of_ne hroot]
    exact hrows t ht

theorem createTable_represents {statement : Ast.CreateTable} {sql : String} {table : TableSchema}
    (h : Represents casefold db R) (hrun : createTable casefold statement sql db = (.ok table, db'))
    (hsmall : db'.store.pageCount < 2 ^ 32) :
    ∃ R', Relations.Creates casefold statement sql R R' ∧ Represents casefold db' R' := by
  obtain ⟨header, content, hs, hstep, hcatalog, hrows⟩ := h
  obtain ⟨hnew, hcatalog', htable, header', hregistered, -⟩ := createTable_stores hs hrun hsmall
  obtain ⟨header', hs', hstep'⟩ := createTable_inStep hs hstep hrun hsmall
  rw [htable] at hcatalog'
  refine ⟨_, ⟨hcatalog ▸ hnew, table.rootPage, rfl⟩, header', _, hs', hstep', ?_, fun e he => ?_⟩
  · rw [hcatalog', hcatalog]
  · rw [hcatalog', Dict.put_of_lookup hnew] at he
    rcases List.mem_append.mp he with he | he
    · have hname : e.1 ≠ casefold statement.name := lookup_eq_none hnew he
      dsimp only
      rw [Content.setRows_rows_of_ne (hregistered.fresh _ (table_mem_slots he)), Function.update_of_ne hname]
      exact hrows e he
    · rw [List.mem_singleton.mp he]
      dsimp only [tableSchema]
      rw [Content.setRows_rows, Function.update_self]

theorem createIndex_represents {statement : Ast.CreateIndex} {sql : String} {index : IndexSchema}
    (h : Represents casefold db R) (hrun : createIndex casefold statement sql db = (.ok index, db'))
    (hsmall : db'.store.pageCount < 2 ^ 32) :
    ∃ R', Relations.Enters casefold statement sql R R' ∧ Represents casefold db' R' := by
  obtain ⟨header, content, hs, hstep, hcatalog, hrows⟩ := h
  obtain ⟨hnew, hcatalog', e, he, positions, keys, -, htable, hindex, hcolumns, -⟩ :=
    createIndex_stores hs hrun hsmall
  obtain ⟨header', keys', hs', hstep'⟩ := createIndex_inStep hs hstep hrun hsmall
  have htables : db'.catalog.tables = db.catalog.tables := by rw [hcatalog']
  have hunique : statement.unique = true → ¬ HasDuplicate (keyedBy positions (R.rows (casefold e.2.name))) := by
    intro hunique
    have hmem : index ∈ db'.catalog.indexesFor casefold e.2.name := by
      rw [mem_indexesFor, hcatalog', Dict.put_of_lookup hnew]
      exact ⟨⟨_, List.mem_append_right _ (List.mem_singleton_self _), rfl⟩, by rw [hindex]; rfl⟩
    obtain ⟨positions', hpositions', -, hdistinct⟩ := (hstep'.coherent e (htables ▸ he)).indexed index hmem
    obtain rfl := Except.ok.inj (hcolumns.symm.trans hpositions')
    rw [rows_of_mem hstep hrows he]
    exact hdistinct (by rw [hindex]; exact hunique)
  rw [hindex] at hcatalog'
  have hstatement : index.columns = statement.columns := by rw [hindex]; rfl
  rw [indexColumns, hstatement] at hcolumns
  refine ⟨_, ⟨hcatalog ▸ hnew, e.2, index.rootPage, positions, hcatalog ▸ htable, hcolumns, hunique, rfl⟩, header', _,
    hs', hstep', ?_, fun t ht => ?_⟩
  · rw [hcatalog', hcatalog]
  · exact hrows t (htables ▸ ht)

/-- The figures of trees that are in step. -/
theorem figuresOf (h : InStep casefold db.catalog content) (hcatalog : R.catalog = db.catalog)
    (hrows : ∀ e ∈ db.catalog.tables, R.rows e.1 = content.rows e.2.rootPage) {t : String × TableSchema}
    (ht : t ∈ db.catalog.tables) {figures : List StatFigure}
    (hfigures : Figures listEq content (db.catalog.indexesFor casefold t.2.name) t.2 figures) :
    R.FiguresOf casefold listEq t.2 figures := by
  obtain ⟨first, rest, rfl, hfirst, hrest⟩ := hfigures
  rw [Relations.FiguresOf, rows_of_mem h hrows ht, hcatalog]
  refine ⟨first, rest, rfl, hfirst, ?_⟩
  have hindexed := (h.coherent t ht).indexed
  generalize db.catalog.indexesFor casefold t.2.name = indexes at hrest hindexed
  induction hrest with
  | nil => exact .nil
  | @cons index figure indexes rest hfigure _ ih =>
      obtain ⟨positions, hpositions, hkeys, -⟩ := hindexed index (List.mem_cons_self ..)
      exact .cons ⟨positions, _, hpositions, hkeys, hfigure⟩
        (ih fun other hother => hindexed other (List.mem_cons_of_mem _ hother))

theorem analyze_represents {target : Option String} {table : TableSchema} (h : Represents casefold db R)
    (htable : db.catalog.getTable casefold stat1TableName = .ok table)
    (hstat : StatTable casefold db.catalog table)
    (hfit : RowidsFit table.rootPage (db.catalog.tables.length * (db.catalog.indexes.length + 1)) db.store) :
    Post (StatisticsCatalog.analyze listEq casefold table.rootPage target) db
      (fun _ db' => ∃ R', Relations.Step casefold ops listEq (.analyze target) R R' ∧ Represents casefold db' R')
      fun _ _ => True := by
  obtain ⟨header, content, hs, hstep, hcatalog, hrows⟩ := h
  obtain ⟨e, he, rfl⟩ := mem_tables htable
  have hname : casefold e.2.name = casefold stat1TableName := (hstep.names.lookup_self htable).2.symm
  let I (done : List TableSchema) (content : Content) : Prop := InStep casefold db.catalog content ∧
    ∃ R', R'.catalog = db.catalog ∧ (∀ t ∈ db.catalog.tables, R'.rows t.1 = content.rows t.2.rootPage) ∧
      Runs (Relations.Restates casefold listEq) R done R'
  have hslot := table_mem_slots he
  apply (analyze_int64_post (I := I) rfl hs ⟨hstep, R, hcatalog, hrows, .nil R⟩ hslot
    (hfit.rowidsLeft hs hslot (hstep.int64 e he)) ?_).mono ?_ fun _ _ _ => trivial
  · rintro done content s hs ⟨hstep, R', hcatalog', hrows', hruns⟩ t ht figures hfigures - hint
    refine ⟨hstep.of_figures hs he hstat _ figures hint, _, ?_, ?_, hruns.concat ⟨figures, ?_, rfl⟩⟩
    · exact hcatalog'
    · rw [← hname, rows_of_mem hstep hrows' he]
      exact rows_setRows hstep hs hrows' he rfl
    · exact figuresOf hstep hcatalog' hrows' ht hfigures
  · rintro _ db' ⟨hkept, tables, content', htables, hs', hstep', R', hcatalog', hrows', hruns⟩
    refine ⟨R', ⟨tables, hcatalog ▸ htables, hruns⟩, header, content', hkept ▸ hs', hkept ▸ hstep', ?_, ?_⟩
    · rw [hkept, hcatalog']
    · rw [hkept]
      exact hrows'

/-- One statement. -/
theorem Mutation.run_represents {mutation : Mutation} (h : Represents casefold db R)
    (hclean : mutation.Clean casefold ops db) :
    Post (mutation.run casefold ops listEq) db
      (fun _ db' => db'.store.pageCount < 2 ^ 32 →
        ∃ R', Relations.Step casefold ops listEq mutation R R' ∧ Represents casefold db' R') fun _ _ => True := by
  have hcreate : ∀ statement sql, Post (QuillDb.createTable casefold statement sql) db
      (fun _ db' => db'.store.pageCount < 2 ^ 32 →
        ∃ R', Relations.Creates casefold statement sql R R' ∧ Represents casefold db' R') fun _ _ => True :=
    fun statement sql => Post.of_ok fun table db' hrun hsmall => createTable_represents h hrun hsmall
  cases mutation with
  | bootstrap =>
      rw [Mutation.run, StatisticsCatalog.ensureTable, post_bind, post_bind, post_state]
      split
      · exact fun _ => ⟨R, .inl rfl, h⟩
      · apply (hcreate _ _).mono ?_ fun _ _ _ => trivial
        intro _ db' hdb' hsmall
        obtain ⟨R', hstep, hR'⟩ := hdb' hsmall
        exact ⟨R', .inr hstep, hR'⟩
  | createTable statement sql => exact (hcreate statement sql).bind (fun _ _ h => h) fun _ _ _ => trivial
  | createIndex statement sql =>
      rw [Mutation.run, post_bind]
      exact Post.of_ok fun index db' hrun hsmall => createIndex_represents h hrun hsmall
  | analyze target =>
      rw [Mutation.run, post_bind, post_state, post_bind, post_lift]
      refine ⟨fun table htable => ?_, fun _ _ => trivial⟩
      apply (analyze_represents h htable (hclean.2 table htable) (hclean.1 table htable)).mono
      · exact fun _ _ h _ => h
      · exact fun _ _ _ => trivial
  | rows request =>
      obtain ⟨header, content, hs, hstep, hcatalog, hrows⟩ := h
      rw [Mutation.run, post_bind, post_state, onStore, post_zoom]
      apply (Request.run_inStep hs hstep hclean.2 hclean.1).mono ?_ fun _ _ _ => trivial
      rintro _ s' ⟨e, he, rows, content', hmakes, hcontent, hs', hstep'⟩ -
      refine ⟨_, ⟨e.2, rows, ?_, rfl⟩, header, content', hs', hstep', hcatalog, ?_⟩
      · rw [hcatalog, rows_of_mem hstep hrows he]
        exact hmakes
      · exact rows_setRows hstep hs hrows he hcontent

/-! ## Runs -/

/-- A run of statements is a run on relations, and in the end a cursor over a table meets the
rows of its relation, under int64 rowids. -/
theorem statements_refine {mutations : List Mutation} (hdb : Represents casefold db R)
    (hrun : Executes casefold ops listEq (Mutation.Clean casefold ops) db mutations db')
    (hsmall : db'.store.pageCount < 2 ^ 32) :
    ∃ R', Runs (Relations.Step casefold ops listEq) R mutations R' ∧ R'.catalog = db'.catalog ∧
      ∀ e ∈ db'.catalog.tables, TableRows db'.store e.2 (R'.rows e.1) ∧ RowidsInt64 (R'.rows e.1) := by
  obtain ⟨R', hruns, header, content, hs, hstep, hcatalog, hrows⟩ := hrun.simulates hsmall hdb
    fun mutation db R hdb hclean => Mutation.run_represents hdb hclean
  refine ⟨R', hruns, hcatalog, fun e he => ?_⟩
  rw [hrows e he]
  exact ⟨hs.tableRows (table_mem_slots he) (hstep.coherent e he).widths, hstep.int64 e he⟩

end Simulation

/-! ## A new database -/

def noRelations : Relations := ⟨⟨[], []⟩, fun _ => []⟩

theorem newDatabase_represents (casefold : String → String) : Represents casefold newDatabase noRelations := by
  obtain ⟨header, content, hs, hstep⟩ := newDatabase_inStep casefold
  exact ⟨header, content, hs, hstep, rfl, fun e he => absurd he List.not_mem_nil⟩

theorem statements_refine_severalRows : ∃ R, Runs (Relations.Step id noFloats tupleEq) noRelations severalRows R ∧
    R.catalog = severalRowsDatabase.catalog ∧ ∀ e ∈ severalRowsDatabase.catalog.tables,
      TableRows severalRowsDatabase.store e.2 (R.rows e.1) ∧ RowidsInt64 (R.rows e.1) :=
  statements_refine (newDatabase_represents id) severalRows_clean severalRows_small

end QuillDb
