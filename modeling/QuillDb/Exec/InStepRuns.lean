/-
  Exec/InStepRuns.lean --- indexes stay in step over runs of statements.

  Source: `create_table` and `create_index` of `quilldb/catalog/catalog.py`, `_ensure_table`
  and `analyze` of `quilldb/plan/analyze.py`, the operators that write of
  `quilldb/exec/operators.py`.

  ANALYZE writes `quill_stat1` without its indexes, so a run that keeps them in step must
  not have an index on that table when it analyzes.
-/
import QuillDb.Exec.Databases
import QuillDb.Plan.StatRows

set_option autoImplicit false

namespace QuillDb

open Prog PageStore Fallible

section Steps

variable {casefold : String → String} {header : PageContent} {content : Content} {db db' : Database}

/-- The trees of a database say the content, and its indexes are in step. -/
def IndexesInStep (casefold : String → String) (db : Database) : Prop :=
  ∃ header content, Stores header db.catalog.slots content db.store ∧ InStep casefold db.catalog content

/-! ## CREATE TABLE -/

/-- A new table has no rows and no indexes. -/
theorem createTable_inStep {statement : Ast.CreateTable} {sql : String} {table : TableSchema}
    (hs : Stores header db.catalog.slots content db.store) (h : InStep casefold db.catalog content)
    (hrun : createTable casefold statement sql db = (.ok table, db')) (hsmall : db'.store.pageCount < 2 ^ 32) :
    ∃ header', Stores header' db'.catalog.slots (content.setRows table.rootPage []) db'.store ∧
      InStep casefold db'.catalog (content.setRows table.rootPage []) := by
  obtain ⟨hnew, hcatalog, htable, header', hregistered, hs'⟩ := createTable_stores hs hrun hsmall
  have hname : casefold table.name = casefold statement.name := by rw [htable]; rfl
  have hold : ∀ e ∈ db'.catalog.tables, e ∈ db.catalog.tables ∨ e = (casefold statement.name, table) := by
    intro e he
    rw [hcatalog, Dict.put_of_lookup hnew] at he
    simpa using he
  have hindexes : db'.catalog.indexes = db.catalog.indexes := by rw [hcatalog]
  have hfor : ∀ name, db'.catalog.indexesFor casefold name = db.catalog.indexesFor casefold name := by
    intro name
    rw [Catalog.indexesFor, hindexes, Catalog.indexesFor]
  -- no index names the new table
  have hnone : db.catalog.indexesFor casefold table.name = [] := by
    apply List.eq_nil_iff_forall_not_mem.mpr
    intro index hindex
    obtain ⟨⟨i, hi, rfl⟩, hfold⟩ := mem_indexesFor.mp hindex
    obtain ⟨t, ht, howner⟩ := h.names.owned i hi
    exact lookup_eq_none hnew ht (howner.trans (hfold.trans hname))
  have hroots : ∀ e ∈ db.catalog.tables, e.2.rootPage ≠ table.rootPage :=
    fun e he => hregistered.fresh _ (table_mem_slots he)
  have hnames : db'.catalog.Named casefold := by
    rw [hcatalog, ← hname]
    exact h.names.addTable _ (hname ▸ hnew)
  refine ⟨header', hs', ⟨hnames, fun e he => ?_, fun e he row hrow => ?_, fun e he row hrow => ?_⟩⟩
  · rw [hfor]
    rcases hold e he with he | rfl
    · rw [Content.setRows_rows_of_ne (hroots e he)]
      exact h.coherent e he
    · rw [Content.setRows_rows, hnone]
      exact ⟨fun row hrow => absurd hrow List.not_mem_nil, fun index hindex => absurd hindex List.not_mem_nil⟩
  · rcases hold e he with he | rfl
    · rw [Content.setRows_rows_of_ne (hroots e he)] at hrow
      exact h.noNan e he row hrow
    · rw [Content.setRows_rows] at hrow
      cases hrow
  · rcases hold e he with he | rfl
    · rw [Content.setRows_rows_of_ne (hroots e he)] at hrow
      exact h.int64 e he row hrow
    · rw [Content.setRows_rows] at hrow
      cases hrow

/-! ## CREATE INDEX -/

/-- The rows of a table whose records can be read. -/
theorem Stores.tableRows {slots : List (TreeKind × Nat)} {s : PageStore} (hs : Stores header slots content s)
    {table : TableSchema} (hslot : (.table, table.rootPage) ∈ slots)
    (hwidths : ∀ row ∈ content.rows table.rootPage, row.2.length = table.columns.length) :
    TableRows s table (content.rows table.rootPage) := by
  obtain ⟨H, T, rest, hid, hf, -, hrows, -⟩ := hs.exists_table hslot
  refine ⟨H, T, _, hid ▸ hf.tableAt.toTableAt, ?_⟩
  generalize content.rows table.rootPage = rows at hrows hwidths
  generalize T.items = items at hrows
  induction hrows with
  | nil => exact .nil
  | cons hrow _ ih =>
      refine .cons ⟨hrow.1, hrow.2, hwidths _ (List.mem_cons_self ..)⟩ (ih fun row hrow => ?_)
      exact hwidths row (List.mem_cons_of_mem _ hrow)

/-- Keys that were entered row by row are in step with the rows. -/
theorem Entered.indexed {positions : List Nat} {rows : List (Int × List Value)} {keys : List (List Value)}
    (h : Entered positions rows keys)
    (hpick : ∀ row ∈ rows, pickColumns row.2 positions = .ok (keyAt positions row.2))
    (hcomparable : ∀ row ∈ rows, Comparable positions.length (keyAt positions row.2)) :
    Indexed positions rows keys := by
  induction h with
  | nil =>
      exact ⟨⟨fun key hkey => absurd hkey List.not_mem_nil, .nil⟩, fun row hrow => absurd hrow List.not_mem_nil,
        fun key hkey => absurd hkey List.not_mem_nil, List.Perm.nil⟩
  | @concat rows row values keys keys' _ hvalues hgains ih =>
      have hsub : rows ⊆ rows ++ [row] := List.subset_append_left _ _
      have hrow : row ∈ rows ++ [row] := List.mem_append_right _ (List.mem_singleton_self row)
      obtain rfl := Except.ok.inj (hvalues.symm.trans (hpick row hrow))
      have hindexed := ih (fun other hother => hpick other (hsub hother)) fun other hother =>
        hcomparable other (hsub hother)
      exact hindexed.gain (comparable_indexKey (hcomparable row hrow)) hgains (List.perm_append_singleton row rows)

/-- A new index has a key for each row of its table. -/
theorem createIndex_inStep {statement : Ast.CreateIndex} {sql : String} {index : IndexSchema}
    (hs : Stores header db.catalog.slots content db.store) (h : InStep casefold db.catalog content)
    (hrun : createIndex casefold statement sql db = (.ok index, db')) (hsmall : db'.store.pageCount < 2 ^ 32) :
    ∃ header' keys, Stores header' db'.catalog.slots (content.setKeys index.rootPage keys) db'.store ∧
      InStep casefold db'.catalog (content.setKeys index.rootPage keys) := by
  obtain ⟨hnew, hcatalog, e, he, positions, keys, header', -, hindex, hcolumns, hreject, hentered, hregistered, hs'⟩ :=
    createIndex_stores hs hrun hsmall
  have htables : db'.catalog.tables = db.catalog.tables := by rw [hcatalog]
  have hindexes : db'.catalog.indexes.map Prod.snd = db.catalog.indexes.map Prod.snd ++ [index] := by
    rw [hcatalog, Dict.put_of_lookup hnew, List.map_append, List.map_singleton]
  have howner : index.table = e.2.name := by rw [hindex]; rfl
  have hwidths := (h.coherent e he).widths
  have hpick : ∀ row ∈ content.rows e.2.rootPage, pickColumns row.2 positions = .ok (keyAt positions row.2) := by
    intro row hrow
    apply pickColumns_eq
    rw [hwidths row hrow]
    exact lt_of_indexColumns hcolumns
  have hcomparable : ∀ row ∈ content.rows e.2.rootPage, Comparable positions.length (keyAt positions row.2) :=
    fun row hrow => keyAt_comparable (h.noNan e he row hrow) positions
  have hindexed := hentered.indexed hpick hcomparable
  have hdistinct : index.unique = true → ¬ HasDuplicate (keyedBy positions (content.rows e.2.rootPage)) := by
    intro hunique
    obtain ⟨s', hok⟩ := hreject hunique
    have hrows := hs.tableRows (table_mem_slots he) hwidths
    exact ((rejectExistingDuplicate_eq hrows (lt_of_indexColumns hcolumns) (h.noNan e he) _).ok hok).2
  have hnames : db'.catalog.Named casefold := by
    rw [hcatalog]
    exact h.names.addIndex hnew he howner
  refine ⟨header', _, hs', ⟨hnames, fun t ht => ?_, fun t ht => ?_, fun t ht => ?_⟩⟩
  · rw [htables] at ht
    refine ⟨(h.coherent t ht).widths, fun other hother => ?_⟩
    rw [Catalog.indexesFor, hindexes, List.filter_append] at hother
    rcases List.mem_append.mp hother with hother | hother
    · have hroot : other.rootPage ≠ index.rootPage := hregistered.fresh _ (index_mem_slots other hother)
      rw [Content.setKeys_keys_of_ne hroot]
      exact (h.coherent t ht).indexed other hother
    · -- the new index is one of its own table's
      obtain ⟨hmem, hfold⟩ := List.mem_filter.mp hother
      obtain rfl := List.mem_singleton.mp hmem
      have hsame : t = e := by
        apply List.inj_on_of_nodup_map h.names.distinct ht he
        rw [h.names.named t ht, h.names.named e he, ← howner]
        exact (of_decide_eq_true hfold).symm
      subst hsame
      rw [Content.setKeys_keys]
      exact ⟨positions, hcolumns, hindexed, hdistinct⟩
  · rw [htables] at ht
    exact h.noNan t ht
  · rw [htables] at ht
    exact h.int64 t ht

/-! ## ANALYZE -/

/-- A table without indexes has new rows. -/
theorem InStep.of_setRows {catalog : Catalog} {s : PageStore} (h : InStep casefold catalog content)
    (hs : Stores header catalog.slots content s) {e : String × TableSchema} (he : e ∈ catalog.tables)
    (hnone : catalog.indexesFor casefold e.2.name = []) {rows : List (Int × List Value)}
    (hwidths : ∀ row ∈ rows, row.2.length = e.2.columns.length) (hnan : ∀ row ∈ rows, NoNan row.2)
    (hint : RowidsInt64 rows) :
    InStep casefold catalog (content.setRows e.2.rootPage rows) := by
  have hother : ∀ t ∈ catalog.tables, t ≠ e → t.2.rootPage ≠ e.2.rootPage :=
    fun t ht hne hroot => hne (List.inj_on_of_nodup_map (nodup_tableRoots hs) ht he hroot)
  refine ⟨h.names, fun t ht => ?_, fun t ht => ?_, fun t ht => ?_⟩
  · by_cases heq : t = e
    · subst heq
      rw [hnone, Content.setRows_rows]
      exact ⟨hwidths, fun index hindex => absurd hindex List.not_mem_nil⟩
    · rw [Content.setRows_rows_of_ne (hother t ht heq)]
      exact h.coherent t ht
  · by_cases heq : t = e
    · subst heq
      rw [Content.setRows_rows]
      exact hnan
    · rw [Content.setRows_rows_of_ne (hother t ht heq)]
      exact h.noNan t ht
  · by_cases heq : t = e
    · subst heq
      rw [Content.setRows_rows]
      exact hint
    · rw [Content.setRows_rows_of_ne (hother t ht heq)]
      exact h.int64 t ht

/-- What is in `quill_stat1` was there, or is what ANALYZE writes. -/
theorem mem_foldl_restated {tbl : String} {figures : List StatFigure} {rows : List (Int × List Value)}
    {row : Int × List Value} (h : row ∈ figures.foldl (restated tbl) rows) :
    row ∈ rows ∨ ∃ figure : StatFigure, row.2 = figure.values tbl := by
  induction figures generalizing rows with
  | nil => exact .inl h
  | cons figure figures ih =>
      rcases ih h with h | h
      · rcases List.mem_append.mp h with h | h
        · exact .inl (List.mem_filter.mp h).1
        · exact .inr ⟨figure, by rw [List.mem_singleton.mp h]⟩
      · exact .inr h

theorem StatFigure.noNan (tbl : String) (figure : StatFigure) : NoNan (figure.values tbl) := by
  obtain ⟨idx, stat, pageCount, height⟩ := figure
  cases idx <;> simp [NoNan, StatFigure.values, Value.isNan, Value.number]

/-- `quill_stat1` as ANALYZE needs it for the indexes to stay in step: its five columns,
and no index on it. -/
def StatTable (casefold : String → String) (catalog : Catalog) (table : TableSchema) : Prop :=
  table.columns.length = 5 ∧ catalog.indexesFor casefold table.name = []

instance (casefold : String → String) (catalog : Catalog) (table : TableSchema) :
    Decidable (StatTable casefold catalog table) := inferInstanceAs (Decidable (_ ∧ _))

/-- `quill_stat1` has new figures. -/
theorem InStep.of_figures {catalog : Catalog} {s : PageStore} (h : InStep casefold catalog content)
    (hs : Stores header catalog.slots content s) {e : String × TableSchema} (he : e ∈ catalog.tables)
    (hstat : StatTable casefold catalog e.2) (tbl : String) (figures : List StatFigure)
    (hint : RowidsInt64 (figures.foldl (restated tbl) (content.rows e.2.rootPage))) :
    InStep casefold catalog
      (content.setRows e.2.rootPage (figures.foldl (restated tbl) (content.rows e.2.rootPage))) := by
  apply h.of_setRows hs he hstat.2 ?_ ?_ hint
  · intro row hrow
    rcases mem_foldl_restated hrow with hrow | ⟨figure, hvalues⟩
    · exact (h.coherent e he).widths row hrow
    · rw [hvalues, hstat.1]
      rfl
  · intro row hrow
    rcases mem_foldl_restated hrow with hrow | ⟨figure, hvalues⟩
    · exact h.noNan e he row hrow
    · rw [hvalues]
      exact figure.noNan _

theorem analyze_inStep {listEq : List Value → List Value → Bool} {target : Option String}
    (hs : Stores header db.catalog.slots content db.store) (h : InStep casefold db.catalog content)
    {e : String × TableSchema} (he : e ∈ db.catalog.tables) (hstat : StatTable casefold db.catalog e.2)
    (hfit : RowidsFit e.2.rootPage (db.catalog.tables.length * (db.catalog.indexes.length + 1)) db.store) :
    Post (StatisticsCatalog.analyze listEq casefold e.2.rootPage target) db
      (fun _ db' => IndexesInStep casefold db') fun _ _ => True := by
  have hslot := table_mem_slots he
  apply (analyze_int64_post (I := fun _ => InStep casefold db.catalog) rfl hs h hslot
    (hfit.rowidsLeft hs hslot (h.int64 e he)) ?_).mono ?_ fun _ _ _ => trivial
  · intro _ content s hs h t _ figures _ _ hint
    exact h.of_figures hs he hstat _ figures hint
  · rintro _ db' ⟨hcatalog, -, content', -, hs', h'⟩
    exact ⟨header, content', hcatalog ▸ hs', hcatalog ▸ h'⟩

end Steps

/-! ## Runs -/

section Runs

variable {casefold : String → String} {ops : FloatOps} {listEq : List Value → List Value → Bool} {db db' : Database}

/-- The statement stores no NaN and no row behind the greatest rowid, and analyzes with no
index on `quill_stat1`. -/
def Mutation.Clean (casefold : String → String) (ops : FloatOps) (mutation : Mutation) (db : Database) : Prop :=
  mutation.InRange casefold ops db ∧
    match mutation with
    | .rows request => request.Clean casefold ops db.catalog db.store
    | .analyze _ => ∀ table, db.catalog.getTable casefold stat1TableName = .ok table →
        StatTable casefold db.catalog table
    | _ => True

instance (mutation : Mutation) (db : Database) : Decidable (mutation.Clean casefold ops db) :=
  match mutation with
  | .rows request =>
      inferInstanceAs (Decidable (Mutation.InRange casefold ops (.rows request) db ∧
        request.Clean casefold ops db.catalog db.store))
  | .analyze target =>
      inferInstanceAs (Decidable (Mutation.InRange casefold ops (.analyze target) db ∧
        ∀ table, db.catalog.getTable casefold stat1TableName = .ok table → StatTable casefold db.catalog table))
  | .bootstrap => .isTrue ⟨trivial, trivial⟩
  | .createTable _ _ => .isTrue ⟨trivial, trivial⟩
  | .createIndex _ _ => .isTrue ⟨trivial, trivial⟩

/-- One statement keeps the indexes in step. -/
theorem Mutation.run_inStep {mutation : Mutation} (h : IndexesInStep casefold db)
    (hclean : mutation.Clean casefold ops db) :
    Post (mutation.run casefold ops listEq) db
      (fun _ db' => db'.store.pageCount < 2 ^ 32 → IndexesInStep casefold db') fun _ _ => True := by
  obtain ⟨header, content, hs, hstep⟩ := h
  have hcreate : ∀ statement sql, Post (QuillDb.createTable casefold statement sql) db
      (fun _ db' => db'.store.pageCount < 2 ^ 32 → IndexesInStep casefold db') fun _ _ => True := by
    refine fun statement sql => Post.of_ok fun table db' hrun hsmall => ?_
    obtain ⟨header', hs', hstep'⟩ := createTable_inStep hs hstep hrun hsmall
    exact ⟨header', _, hs', hstep'⟩
  cases mutation with
  | bootstrap =>
      rw [Mutation.run, StatisticsCatalog.ensureTable, post_bind, post_bind, post_state]
      split
      · exact fun _ => ⟨header, content, hs, hstep⟩
      · exact hcreate _ _
  | createTable statement sql => exact (hcreate statement sql).bind (fun _ _ h => h) fun _ _ _ => trivial
  | createIndex statement sql =>
      rw [Mutation.run, post_bind]
      refine Post.of_ok fun index db' hrun hsmall => ?_
      obtain ⟨header', keys, hs', hstep'⟩ := createIndex_inStep hs hstep hrun hsmall
      exact ⟨header', _, hs', hstep'⟩
  | analyze target =>
      rw [Mutation.run, post_bind, post_state, post_bind, post_lift]
      refine ⟨fun table htable => ?_, fun _ _ => trivial⟩
      obtain ⟨e, he, rfl⟩ := mem_tables htable
      apply (analyze_inStep hs hstep he (hclean.2 e.2 htable) (hclean.1 e.2 htable)).mono
      · exact fun _ _ h _ => h
      · exact fun _ _ _ => trivial
  | rows request =>
      rw [Mutation.run, post_bind, post_state, onStore, post_zoom]
      apply (Request.run_inStep hs hstep hclean.2 hclean.1).mono ?_ fun _ _ _ => trivial
      rintro _ s' ⟨-, -, -, content', -, -, hs', hstep'⟩ -
      exact ⟨header, content', hs', hstep'⟩

/-- After every run of statements, an index has one entry for each row of its table, with
the row's rowid and a key equal to the row's, and no other; the rows of a UNIQUE index hold no
duplicate; and the rowids are in the int64 range, so that the pages read back as they are. -/
theorem indexes_in_step {mutations : List Mutation} (hdb : IndexesInStep casefold db)
    (hrun : Executes casefold ops listEq (Mutation.Clean casefold ops) db mutations db')
    (hsmall : db'.store.pageCount < 2 ^ 32) :
    ∀ e ∈ db'.catalog.tables, ∀ index ∈ db'.catalog.indexesFor casefold e.2.name, ∃ rows keys positions,
      TableRows db'.store e.2 rows ∧ RowidsInt64 rows ∧
      IndexBTree.scan index.rootPage db'.store = (.ok keys, db'.store) ∧
      indexColumns casefold e.2 index = .ok positions ∧ Indexed positions rows keys ∧
      (index.unique = true → ¬ HasDuplicate (keyedBy positions rows)) := by
  obtain ⟨header, content, hs, hstep⟩ := hrun.induct hsmall hdb fun mutation db hdb hclean =>
    Mutation.run_inStep hdb hclean
  intro e he index hindex
  have hcoherent := hstep.coherent e he
  obtain ⟨positions, hpositions, hindexed, hunique⟩ := hcoherent.indexed index hindex
  exact ⟨_, _, positions, hs.tableRows (table_mem_slots he) hcoherent.widths, hstep.int64 e he,
    hs.scan (index_mem_slots index hindex), hpositions, hindexed, hunique⟩

end Runs

/-! ## A new database -/

theorem newDatabase_inStep (casefold : String → String) : IndexesInStep casefold newDatabase := by
  refine ⟨_, ⟨fun _ => [], fun _ => []⟩, newDatabase_stores _, ⟨⟨?_, List.nodup_nil, ?_⟩, ?_, ?_, ?_⟩⟩
  · exact fun e he => absurd he List.not_mem_nil
  · exact fun e he => absurd he List.not_mem_nil
  · exact fun e he => absurd he List.not_mem_nil
  · exact fun e he => absurd he List.not_mem_nil
  · exact fun e he => absurd he List.not_mem_nil

theorem severalRows_clean : Executes id noFloats tupleEq (Mutation.Clean id noFloats) newDatabase severalRows
    severalRowsDatabase :=
  severalRows_executes (by decide +kernel)

theorem indexes_in_step_severalRows :
    (severalRowsDatabase.catalog.indexesFor id "t").map IndexSchema.name = ["i", "j"] ∧
    ∀ e ∈ severalRowsDatabase.catalog.tables, ∀ index ∈ severalRowsDatabase.catalog.indexesFor id e.2.name,
    ∃ rows keys positions,
      TableRows severalRowsDatabase.store e.2 rows ∧ RowidsInt64 rows ∧
      IndexBTree.scan index.rootPage severalRowsDatabase.store = (.ok keys, severalRowsDatabase.store) ∧
      indexColumns id e.2 index = .ok positions ∧ Indexed positions rows keys ∧
      (index.unique = true → ¬ HasDuplicate (keyedBy positions rows)) :=
  ⟨by decide +kernel, indexes_in_step (newDatabase_inStep id) severalRows_clean severalRows_small⟩

end QuillDb
