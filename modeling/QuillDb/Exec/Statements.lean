/-
  Exec/Statements.lean --- runs of the statements that write.

  Source: `_run_mutation` and its callers in `quilldb/api/connection.py`,
  `StatisticsCatalog` of `quilldb/plan/analyze.py`.

  A run is one of statements that all succeed; one that raises is rolled back.  `commit`
  writes the page count into four bytes of the header, and no statement takes a page away
  from the file, so in a run that can be committed all page numbers are that small.
-/
import QuillDb.Exec.DeclaredTypes
import QuillDb.Lib.Runs
import QuillDb.Plan.Analyze

set_option autoImplicit false

namespace QuillDb

open Prog PageStore

/-! ## Statements -/

/-- A statement that `_run_mutation` runs, with its source text, or the creation of
`quill_stat1` when a database is opened. -/
inductive Mutation where
  | bootstrap
  | createTable (statement : Ast.CreateTable) (sql : String)
  | createIndex (statement : Ast.CreateIndex) (sql : String)
  | analyze (target : Option String)
  | rows (request : Request)

section Mutation

variable (casefold : String → String) (ops : FloatOps) (listEq : List Value → List Value → Bool)

def Mutation.run : Mutation → DbM Unit
  | bootstrap => do
      let _ ← StatisticsCatalog.ensureTable casefold
  | createTable statement sql => do
      let _ ← QuillDb.createTable casefold statement sql
  | createIndex statement sql => do
      let _ ← QuillDb.createIndex casefold statement sql
  | analyze target => do
      let db ← state
      let table ← lift (db.catalog.getTable casefold stat1TableName)
      StatisticsCatalog.analyze listEq casefold table.rootPage target
  | rows request => do
      let db ← state
      onStore (request.run casefold ops db.catalog)

/-- A run of statements that all succeed, each from a database with `meets`. -/
inductive Executes (meets : Mutation → Database → Prop) : Database → List Mutation → Database → Prop
  | nil (db : Database) : Executes meets db [] db
  | cons {db db₁ db₂ : Database} {mutation : Mutation} {rest : List Mutation} (hmeets : meets mutation db)
      (hrun : mutation.run casefold ops listEq db = (.ok (), db₁)) (hrest : Executes meets db₁ rest db₂) :
      Executes meets db (mutation :: rest) db₂

/-- The database behind some statements. -/
def after (db : Database) (mutations : List Mutation) : Database :=
  mutations.foldl (fun db mutation => (mutation.run casefold ops listEq db).2) db

/-- A run, statement by statement. -/
theorem executes_after {meets : Mutation → Database → Prop} {mutations : List Mutation} {db : Database}
    (hruns : ∀ k (hk : k < mutations.length),
      (mutations[k].run casefold ops listEq (after casefold ops listEq db (mutations.take k))).1 = .ok ())
    (hmeets : ∀ k (hk : k < mutations.length), meets mutations[k] (after casefold ops listEq db (mutations.take k))) :
    Executes casefold ops listEq meets db mutations (after casefold ops listEq db mutations) := by
  induction mutations generalizing db with
  | nil => exact .nil db
  | cons mutation rest ih =>
      have hfirst := hruns 0 (Nat.succ_pos _)
      apply Executes.cons (hmeets 0 (Nat.succ_pos _)) (Prod.ext hfirst rfl)
      exact ih (fun k hk => hruns (k + 1) (Nat.succ_lt_succ hk)) fun k hk => hmeets (k + 1) (Nat.succ_lt_succ hk)

end Mutation

/-! ## No statement takes pages away -/

/-- `db'` has at least as many pages. -/
def Grown (db db' : Database) : Prop := Larger db.store db'.store

instance : Progress Grown := ⟨fun db => Progress.refl db.store, fun h h' => Nat.le_trans h h'⟩

theorem Grown.of_store {α : Type} {m : StoreM α} (h : Grows m) : Moves Grown (onStore m) := fun db => h db.store

theorem bumpSchemaCookie_grown : Moves Grown bumpSchemaCookie := fun db => Nat.le_refl db.store.pageCount

section Grown

variable {casefold : String → String} {ops : FloatOps} {listEq : List Value → List Value → Bool}

theorem insertRow_grows (indexes : List IndexSchema) (statement : BoundInsert) :
    Grows (insertRow casefold indexes statement) := by
  refine (Moves.lift _).bind fun keyed => (Moves.forM (fun p => ?_) keyed).bind fun _ => ?_
  · exact Moves.ite ((Moves.of_reads (findConflict_reads _ _)).bind fun _ => Moves.raiseIf _ _) (Moves.pure _)
  · refine (Moves.of_reads (TableCursor.nextRowid_reads _)).bind fun rowid => (Moves.lift _).bind fun payload => ?_
    exact (BTree.insert_grows _ _ _).bind fun _ => Moves.forM (fun p => IndexBTree.insert_grows _ _ _) keyed

theorem scanMatchingRows_grows (table : TableSchema) (condition : Option BoundExpression) :
    Grows (scanMatchingRows ops table condition) := by
  refine (TableCursor.each_moves (fun rowid payload => ?_) _).bind fun rows => Moves.pure _
  exact (Moves.lift _).bind fun row => (Moves.lift _).bind fun pass => Moves.pure _

theorem deleteRows_grows (indexes : List IndexSchema) (statement : BoundDelete) :
    Grows (deleteRows casefold ops indexes statement) := by
  refine (scanMatchingRows_grows _ _).bind fun found => (Moves.forM (fun p => ?_) found).bind fun _ => Moves.pure _
  refine (Moves.forM (fun index => ?_) indexes).bind fun _ => (BTree.delete_grows _ _).bind fun _ => Moves.pure _
  exact (Moves.lift _).bind fun key => (IndexBTree.delete_grows _ _ _).bind fun _ => Moves.pure _

theorem replaceRow_grows (root : Nat) (rowid : Int) (oldValues newValues : List Value) :
    Grows (replaceRow root rowid oldValues newValues) := by
  refine (BTree.delete_grows _ _).bind fun _ => Moves.handle ?_ fun e => ?_
  · exact (Moves.lift _).bind fun payload => BTree.insert_grows _ _ _
  · cases e with
    | pageFull message =>
        exact (Moves.lift _).bind fun payload => (BTree.insert_grows _ _ _).bind fun _ => Moves.raise _
    | _ => exact Moves.raise _

theorem updateRows_grows (indexes : List IndexSchema) (statement : BoundUpdate) :
    Grows (updateRows casefold ops indexes statement) := by
  refine (scanMatchingRows_grows _ _).bind fun found => (Moves.forM (fun p => ?_) found).bind fun _ => Moves.pure _
  refine (Moves.lift _).bind fun newValues => (Moves.forM (fun index => ?_) indexes).bind fun _ => ?_
  · refine Moves.ite ((Moves.lift _).bind fun change => Moves.ite ?_ (Moves.pure _)) (Moves.pure _)
    exact (Moves.of_reads (findConflict_reads _ _)).bind fun _ => Moves.raiseIf _ _
  · refine (Moves.forM (fun index => ?_) indexes).bind fun _ => (replaceRow_grows _ _ _ _).bind fun _ =>
      Moves.forM (fun index => ?_) indexes
    · refine (Moves.lift _).bind fun change => Moves.ite ?_ (Moves.pure _)
      exact (IndexBTree.delete_grows _ _ _).bind fun _ => Moves.pure _
    · exact (Moves.lift _).bind fun change => Moves.ite (IndexBTree.insert_grows _ _ _) (Moves.pure _)

theorem Request.run_grows (catalog : Catalog) (request : Request) : Grows (request.run casefold ops catalog) := by
  obtain ⟨statement, parameters⟩ := request
  cases statement with
  | insert statement => exact (Moves.lift _).bind fun bound => insertRow_grows _ _
  | update statement => exact (Moves.lift _).bind fun bound => (updateRows_grows _ _).bind fun _ => Moves.pure _
  | delete statement => exact (Moves.lift _).bind fun bound => (deleteRows_grows _ _).bind fun _ => Moves.pure _

theorem schemaPage_reads : Reads schemaPage := by
  refine (readBody_reads _).bind fun body => ?_
  cases body with
  | tableLeaf cells => exact Moves.pure _
  | tableInterior cells rightChild => exact Moves.raise _
  | indexLeaf cells => exact Moves.raise _
  | indexInterior cells rightChild => exact Moves.raise _

theorem appendCatalogRow_grows (rowid : Int) (payload : Bytes) : Grows (appendCatalogRow rowid payload) :=
  (Moves.lift _).bind fun _ => (Moves.of_reads schemaPage_reads).bind fun _ =>
    (Moves.raiseIf _ _).bind fun _ => set_grows _ _

theorem backfill_grows (root : Nat) (table : TableSchema) (columnIndices : List Nat) :
    Grows (backfill root table columnIndices) := by
  refine (TableCursor.each_moves (fun rowid payload => ?_) _).bind fun _ => Moves.pure _
  exact (Moves.lift _).bind fun row => (Moves.lift _).bind fun values => IndexBTree.insert_grows _ _ _

theorem rejectExistingDuplicate_reads (indexName : String) (table : TableSchema) (columnIndices : List Nat) :
    Reads (rejectExistingDuplicate indexName table columnIndices) := by
  refine (TableCursor.each_moves (fun rowid payload => ?_) _).bind fun keyedRows => ?_
  · exact (Moves.lift _).bind fun row => (Moves.lift _).bind fun key => Moves.pure _
  · cases firstDuplicateKey keyedRows with
    | none => exact Moves.pure _
    | some key => exact Moves.raise _

theorem createTable_grown (statement : Ast.CreateTable) (sql : String) :
    Moves Grown (createTable casefold statement sql) := by
  refine Moves.state.bind fun db => (Moves.raiseIf _ _).bind fun _ => (Moves.raiseIf _ _).bind fun _ => ?_
  refine (Grown.of_store allocatePage_grows).bind fun rootPage => ?_
  refine (Grown.of_store (Moves.of_reads schemaPage_reads)).bind fun cells => (Moves.lift _).bind fun payload => ?_
  refine (Moves.lift _).bind fun cell => Moves.ite ?_ ?_
  · refine (Grown.of_store (initBody_grows _ _)).bind fun _ => ?_
    refine (Grown.of_store (appendCatalogRow_grows _ _)).bind fun _ => bumpSchemaCookie_grown.bind fun _ => ?_
    exact Moves.bind (Moves.update fun db => Nat.le_refl db.store.pageCount) fun _ => Moves.pure _
  · exact (Grown.of_store (freePage_grows _)).bind fun _ => Moves.raise _

theorem createIndex_grown (statement : Ast.CreateIndex) (sql : String) :
    Moves Grown (createIndex casefold statement sql) := by
  refine Moves.state.bind fun db => (Moves.raiseIf _ _).bind fun _ => (Moves.raiseIf _ _).bind fun _ => ?_
  refine (Moves.lift _).bind fun table => (Moves.lift _).bind fun columnIndices => ?_
  refine Moves.guard (Grown.of_store (Moves.of_reads (rejectExistingDuplicate_reads _ _ _))) ?_
  refine (Grown.of_store allocatePage_grows).bind fun rootPage => ?_
  refine (Grown.of_store (Moves.of_reads schemaPage_reads)).bind fun cells => (Moves.lift _).bind fun payload => ?_
  refine (Moves.lift _).bind fun cell => Moves.ite ?_ ?_
  · refine (Grown.of_store (initBody_grows _ _)).bind fun _ => (Grown.of_store ?_).bind fun _ => ?_
    · refine Moves.handle (backfill_grows _ _ _) fun e => ?_
      cases e with
      | pageFull message => exact (freePage_grows _).bind fun _ => Moves.raise _
      | _ => exact Moves.raise _
    · refine (Grown.of_store (appendCatalogRow_grows _ _)).bind fun _ => bumpSchemaCookie_grown.bind fun _ => ?_
      exact Moves.bind (Moves.update fun db => Nat.le_refl db.store.pageCount) fun _ => Moves.pure _
  · exact (Grown.of_store (freePage_grows _)).bind fun _ => Moves.raise _

theorem measureTable_reads (root : Nat) : Reads (measureTable root) := by
  have hwalk : ∀ fuel pageId, Reads (measureTableFrom fuel pageId) := by
    intro fuel
    induction fuel with
    | zero => exact fun pageId => Moves.raise _
    | succ fuel ih =>
        refine fun pageId => (readBody_reads _).bind fun body => ?_
        cases body with
        | tableLeaf cells => exact Moves.pure _
        | tableInterior cells rightChild => exact (Moves.mapM ih _).bind fun kids => Moves.pure _
        | indexLeaf cells => exact Moves.raise _
        | indexInterior cells rightChild => exact Moves.raise _
  exact Moves.state.bind fun s => hwalk _ _

theorem measureIndex_reads (root keyColumns : Nat) : Reads (measureIndex listEq root keyColumns) := by
  have hwalk : ∀ fuel pageId, Reads (measureIndexFrom fuel pageId) := by
    intro fuel
    induction fuel with
    | zero => exact fun pageId => Moves.raise _
    | succ fuel ih =>
        refine fun pageId => (readBody_reads _).bind fun body => ?_
        cases body with
        | tableLeaf cells => exact Moves.raise _
        | tableInterior cells rightChild => exact Moves.raise _
        | indexLeaf cells => exact (Moves.mapM decodeKey_reads _).bind fun keys => Moves.pure _
        | indexInterior cells rightChild => exact (Moves.mapM ih _).bind fun kids => Moves.pure _
  exact Moves.state.bind fun s => (hwalk _ _).bind fun walk => Moves.pure _

theorem analyzeTable_grows (root : Nat) (indexes : List IndexSchema) (table : TableSchema) :
    Grows (StatisticsCatalog.analyzeTable listEq root indexes table) := by
  have hclear : ∀ idx, Grows (StatisticsCatalog.clearRows root table.name idx) := by
    intro idx
    refine (TableCursor.each_moves (fun rowid payload => ?_) _).bind fun staleRowids => ?_
    · exact (Moves.lift _).bind fun row => Moves.pure _
    · exact Moves.forM (fun rowid => (BTree.delete_grows _ _).bind fun _ => Moves.pure _) _
  have hwrite : ∀ idx stat pageCount height,
      Grows (StatisticsCatalog.writeRow root table.name idx stat pageCount height) := by
    intro idx stat pageCount height
    refine (Moves.lift _).bind fun payload => (Moves.of_reads (TableCursor.nextRowid_reads _)).bind fun rowid => ?_
    exact BTree.insert_grows _ _ _
  refine (Moves.of_reads (measureTable_reads _)).bind fun stats => (hclear _).bind fun _ => ?_
  refine (hwrite _ _ _ _).bind fun _ => Moves.forM (fun index => ?_) _
  exact (Moves.of_reads (measureIndex_reads _ _)).bind fun stats => (hclear _).bind fun _ => hwrite _ _ _ _

/-- A statement only adds pages. -/
theorem Mutation.run_grown (mutation : Mutation) : Moves Grown (mutation.run casefold ops listEq) := by
  cases mutation with
  | bootstrap =>
      refine Moves.bind (Moves.state.bind fun db => ?_) fun _ => Moves.pure _
      split
      · exact Moves.pure _
      · exact createTable_grown _ _
  | createTable statement sql => exact (createTable_grown _ _).bind fun _ => Moves.pure _
  | createIndex statement sql => exact (createIndex_grown _ _).bind fun _ => Moves.pure _
  | analyze target =>
      refine Moves.state.bind fun db => (Moves.lift _).bind fun table => Moves.state.bind fun db => ?_
      cases target with
      | none =>
          exact (Moves.forM (fun table => Grown.of_store (analyzeTable_grows _ _ _)) _).bind fun _ =>
            bumpSchemaCookie_grown
      | some name =>
          exact (Moves.lift _).bind fun table => (Grown.of_store (analyzeTable_grows _ _ _)).bind fun _ =>
            bumpSchemaCookie_grown
  | rows request => exact Moves.state.bind fun db => Grown.of_store (Request.run_grows _ _)

/-- A run only adds pages. -/
theorem Executes.grown {meets : Mutation → Database → Prop} {db db' : Database} {mutations : List Mutation}
    (h : Executes casefold ops listEq meets db mutations db') : Grown db db' := by
  induction h with
  | nil db => exact Progress.refl db
  | @cons db db₁ db₂ mutation rest _ hrun _ ih =>
      have hstep : Grown db (mutation.run casefold ops listEq db).2 := mutation.run_grown db
      rw [hrun] at hstep
      exact Progress.trans hstep ih

/-- A run is one of steps that leave small files, if it leaves one. -/
theorem Executes.runs {meets : Mutation → Database → Prop} {db db' : Database} {mutations : List Mutation}
    (h : Executes casefold ops listEq meets db mutations db') (hsmall : db'.store.pageCount < 2 ^ 32) :
    Runs (fun mutation db db' => meets mutation db ∧ mutation.run casefold ops listEq db = (.ok (), db') ∧
      db'.store.pageCount < 2 ^ 32) db mutations db' := by
  induction h with
  | nil db => exact .nil db
  | cons hmeets hrun hrest ih =>
      have hgrown : _ ≤ _ := hrest.grown
      exact .cons ⟨hmeets, hrun, hgrown.trans_lt hsmall⟩ (ih hsmall)

/-- What each statement of a run keeps holds behind the run, if it holds of small files. -/
theorem Executes.induct {meets : Mutation → Database → Prop} {I : Database → Prop} {db db' : Database}
    {mutations : List Mutation} (h : Executes casefold ops listEq meets db mutations db')
    (hsmall : db'.store.pageCount < 2 ^ 32) (hdb : I db)
    (hstep : ∀ mutation db, I db → meets mutation db → Post (mutation.run casefold ops listEq) db
      (fun _ db' => db'.store.pageCount < 2 ^ 32 → I db') fun _ _ => True) : I db' := by
  apply (h.runs hsmall).keeps hdb
  rintro mutation db db' hdb ⟨hmeets, hrun, hsmall⟩
  exact (hstep mutation db hdb hmeets).ok hrun hsmall

/-- Where each statement of a run is a step of another machine, so is the run. -/
theorem Executes.simulates {τ : Type} {meets : Mutation → Database → Prop} {R : Database → τ → Prop}
    {step : Mutation → τ → τ → Prop} {db db' : Database} {x : τ} {mutations : List Mutation}
    (h : Executes casefold ops listEq meets db mutations db') (hsmall : db'.store.pageCount < 2 ^ 32) (hdb : R db x)
    (hstep : ∀ mutation db x, R db x → meets mutation db → Post (mutation.run casefold ops listEq) db
      (fun _ db' => db'.store.pageCount < 2 ^ 32 → ∃ y, step mutation x y ∧ R db' y) fun _ _ => True) :
    ∃ y, Runs step x mutations y ∧ R db' y := by
  apply (h.runs hsmall).simulates hdb
  rintro mutation db db' x hdb ⟨hmeets, hrun, hsmall⟩
  exact (hstep mutation db x hdb hmeets).ok hrun hsmall

end Grown

end QuillDb
