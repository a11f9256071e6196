/-
  Exec/Databases.lean --- what a statement does to the trees of a database.

  Source: `create_table`, `create_index` and `_backfill` of `quilldb/catalog/catalog.py`,
  `quilldb/plan/analyze.py`, the operators that write of `quilldb/exec/operators.py`.

  A statement on rows keeps the trees and page 1; CREATE TABLE and CREATE INDEX plant one
  tree more and write one row more on page 1.  So every page has one owner behind every
  run of statements.
-/
import QuillDb.BTree.Planting
import QuillDb.Exec.Created
import QuillDb.Exec.InStep
import QuillDb.Plan.StatRows

set_option autoImplicit false

namespace QuillDb

open Prog PageStore Fallible

/-! ## Trees and their content -/

/-- What a tree says on its own. -/
def StoredTree.says : StoredTree → List (Int × List Value) × List (List Value)
  | .table T => (T.items.map fun r => (r.rowid, (decodeRecord r.stored.data 0).toOption.getD []), [])
  | .index T => ([], T.entries.map Entry.key)

section Trees

variable {header : PageContent} {slots : List (TreeKind × Nat)} {content : Content} {s : PageStore}

/-- The record of a row can be read, and its rowid meets `P`. -/
def Decodes (P : Int → Prop) (_ : Nat) (rowid : Int) (data : Bytes) : Prop :=
  P rowid ∧ ∃ row, decodeRecord data 0 = .ok row

/-- Trees with records that can be read say something. -/
theorem holds_iff_stores {P : Int → Prop} : Holds header slots (Decodes P) s ↔ ∃ content,
    Stores header slots content s ∧ ∀ root, (.table, root) ∈ slots → ∀ row ∈ content.rows root, P row.1 := by
  constructor
  · intro h
    have hnodup := h.nodup_roots
    obtain ⟨trees, hf, hslots, hrows⟩ := h
    have hroots : (trees.map fun t => t.slot.2).Nodup := by
      rw [← (hslots.map Prod.snd).nodup_iff, List.map_map] at hnodup
      exact hnodup
    classical
    -- the tree with a root
    let sayAt (root : Nat) : List (Int × List Value) × List (List Value) :=
      if h : ∃ t ∈ trees, t.slot.2 = root then h.choose.says else ([], [])
    have hat : ∀ t ∈ trees, sayAt t.slot.2 = t.says := by
      intro t ht
      have hex : ∃ u ∈ trees, u.slot.2 = t.slot.2 := ⟨t, ht, rfl⟩
      have hsame : hex.choose = t := List.inj_on_of_nodup_map hroots hex.choose_spec.1 ht hex.choose_spec.2
      simp only [sayAt, dif_pos hex, hsame]
    refine ⟨⟨fun root => (sayAt root).1, fun root => (sayAt root).2⟩, ⟨trees, hf, hslots, fun t ht => ?_⟩,
      fun root hroot row hrow => ?_⟩
    rotate_left
    · obtain ⟨t, ht, hslot⟩ := List.mem_map.mp (hslots.mem_iff.mpr hroot)
      cases t with
      | index T => cases congrArg Prod.fst hslot
      | table T =>
          obtain rfl : T.id = root := congrArg Prod.snd hslot
          have hsaid : (sayAt T.id).1 = _ := congrArg Prod.fst (hat _ ht)
          have hmem : row ∈ (sayAt T.id).1 := hrow
          rw [hsaid] at hmem
          obtain ⟨r, hr, rfl⟩ := List.mem_map.mp hmem
          exact (hrows _ ht r hr).1
    have ht' := hat t ht
    cases t with
    | table T =>
        have hrowsAt : (sayAt T.id).1 =
            T.items.map fun r => (r.rowid, (decodeRecord r.stored.data 0).toOption.getD []) :=
          congrArg Prod.fst ht'
        simp only [StoredTree.Shows, hrowsAt]
        apply List.forall₂_map_right_iff.mpr
        apply List.forall₂_same.mpr
        intro r hr
        obtain ⟨-, row, hrow⟩ := hrows _ ht r hr
        exact ⟨rfl, by simp [hrow, Except.toOption]⟩
    | index T => exact (congrArg Prod.snd ht').symm
  · rintro ⟨content, ⟨trees, hf, hslots, hshows⟩, hP⟩
    refine ⟨trees, hf, hslots, fun t ht r hr => ?_⟩
    cases t with
    | table T =>
        obtain ⟨row, hmem, hrowid, hrow⟩ := exists_right (hshows _ ht) hr
        have hslot : ((.table, T.id) : TreeKind × Nat) ∈ slots := hslots.mem_iff.mp (List.mem_map_of_mem ht)
        exact ⟨hrowid ▸ hP T.id hslot row hmem, _, hrow⟩
    | index T => exact absurd hr List.not_mem_nil

/-- A statement on rows leaves trees with records that can be read. -/
theorem Request.run_decodes {casefold : String → String} {ops : FloatOps} {catalog : Catalog} {request : Request}
    {P : Int → Prop} (h : Holds header catalog.slots (Decodes P) s)
    (hnext : ∀ statement, request.statement = .insert statement → ∀ bound, Binder.bind request.parameters
      (Binder.bindInsert ops (catalog.getTable casefold) request.parameters statement) = .ok bound →
        ∀ rowid, (TableCursor.nextRowid bound.table.rootPage s).1 = .ok rowid → P rowid) :
    Post (request.run casefold ops catalog) s (fun _ s' => Holds header catalog.slots (Decodes P) s')
      fun _ _ => True := by
  have hdecodes : ∀ values payload, encodeRecord values = .ok payload → ∃ row, decodeRecord payload 0 = .ok row := by
    intro values payload hpayload
    have hdecode := decodeRecord_encodeRecord [] [] hpayload
    rw [List.append_nil, List.nil_append, List.length_nil] at hdecode
    exact ⟨values, hdecode⟩
  obtain ⟨statement, parameters⟩ := request
  cases statement with
  | insert statement =>
      rw [Request.run, post_bind, post_lift]
      refine ⟨fun bound hbind => ?_, fun _ _ => trivial⟩
      obtain ⟨consumed, hbound⟩ := bind_ok hbind
      obtain ⟨e, he, hetable⟩ := mem_tables (bindInsert_ok hbound).1
      exact insertRow_post h (hetable ▸ table_mem_slots he) index_mem_slots fun rowid payload hrowid hpayload =>
        ⟨hnext statement rfl bound hbind rowid hrowid, hdecodes _ payload hpayload⟩
  | update statement =>
      rw [Request.run, post_bind, post_lift]
      refine ⟨fun bound hbind => ?_, fun _ _ => trivial⟩
      obtain ⟨consumed, hbound⟩ := bind_ok hbind
      obtain ⟨e, he, hetable⟩ := mem_tables (bindUpdate_ok hbound)
      rw [post_bind]
      exact updateRows_post h (hetable ▸ table_mem_slots he) index_mem_slots
        fun _ _ p _ oldPayload _ payload hold _ hpayload => ⟨hold.1, hdecodes _ payload hpayload⟩
  | delete statement =>
      rw [Request.run, post_bind, post_lift]
      refine ⟨fun bound hbind => ?_, fun _ _ => trivial⟩
      obtain ⟨consumed, hbound⟩ := bind_ok hbind
      obtain ⟨e, he, hetable⟩ := mem_tables (bindDelete_ok hbound)
      rw [post_bind]
      exact deleteRows_post h (hetable ▸ table_mem_slots he) index_mem_slots

end Trees

/-! ## Names -/

section Names

variable {casefold : String → String} {catalog : Catalog}

theorem lookup_eq_none {κ α : Type} [DecidableEq κ] {d : Dict κ α} {k : κ} (h : d.lookup k = none) {e : κ × α}
    (he : e ∈ d) : e.1 ≠ k := by
  intro heq
  obtain ⟨a, ha⟩ := Dict.lookup_isSome_of_mem he
  rw [heq, h] at ha
  cases ha

theorem Catalog.Named.addTable (h : catalog.Named casefold) (table : TableSchema)
    (hnew : catalog.tables.lookup (casefold table.name) = none) :
    ({ catalog with tables := catalog.tables.put (casefold table.name) table } : Catalog).Named casefold := by
  refine ⟨fun e he => ?_, Dict.nodup_put h.distinct _ _, fun i hi => ?_⟩
  · rw [Dict.put_of_lookup hnew] at he
    rcases List.mem_append.mp he with he | he
    · exact h.named e he
    · rw [List.mem_singleton.mp he]
  · obtain ⟨t, ht, howner⟩ := h.owned i hi
    refine ⟨t, ?_, howner⟩
    rw [Dict.put_of_lookup hnew]
    exact List.mem_append_left _ ht

theorem Catalog.Named.addIndex (h : catalog.Named casefold) {name : String} {index : IndexSchema}
    (hnew : catalog.indexes.lookup name = none) {e : String × TableSchema} (he : e ∈ catalog.tables)
    (howner : index.table = e.2.name) :
    ({ catalog with indexes := catalog.indexes.put name index } : Catalog).Named casefold := by
  refine ⟨h.named, h.distinct, fun i hi => ?_⟩
  rw [Dict.put_of_lookup hnew] at hi
  rcases List.mem_append.mp hi with hi | hi
  · exact h.owned i hi
  · rw [List.mem_singleton.mp hi]
    exact ⟨e, he, (h.named e he).trans (congrArg casefold howner.symm)⟩

/-- A table is found under its own name. -/
theorem Catalog.Named.lookup_self (h : catalog.Named casefold) {name : String} {table : TableSchema}
    (htable : catalog.getTable casefold name = .ok table) :
    catalog.tables.lookup (casefold table.name) = some table ∧ casefold name = casefold table.name := by
  unfold Catalog.getTable at htable
  split at htable
  · rename_i found hlookup
    obtain rfl := Except.ok.inj htable
    have hname : casefold name = casefold found.name := h.named _ (Dict.mem_of_lookup hlookup)
    exact ⟨hname ▸ hlookup, hname⟩
  · cases htable

end Names

/-! ## New objects -/

section Created

variable {casefold : String → String} {header : PageContent} {content : Content} {db db' : Database}

/-- A new table goes behind the others. -/
theorem slots_put_table {catalog : Catalog} {name : String} (h : catalog.tables.lookup name = none)
    (table : TableSchema) :
    ((.table, table.rootPage) :: catalog.slots).Perm
      ({ catalog with tables := catalog.tables.put name table } : Catalog).slots := by
  unfold Catalog.slots
  dsimp only
  rw [Dict.put_of_lookup h, List.map_append, List.map_singleton, List.append_assoc]
  exact List.perm_middle.symm

theorem slots_put_index {catalog : Catalog} {name : String} (h : catalog.indexes.lookup name = none)
    (index : IndexSchema) :
    ((.index, index.rootPage) :: catalog.slots).Perm
      ({ catalog with indexes := catalog.indexes.put name index } : Catalog).slots := by
  unfold Catalog.slots
  dsimp only
  rw [Dict.put_of_lookup h, List.map_append, List.map_singleton, ← List.append_assoc]
  exact (List.perm_append_singleton _ _).symm

/-- A new object: its root is a page of its own, and its row is on page 1. -/
structure Registered (header : PageContent) (db : Database) (row : List Value) (rootPage : Nat)
    (header' : PageContent) : Prop where
  fresh : ∀ slot ∈ db.catalog.slots, slot.2 ≠ rootPage
  row : ∃ cells payload, header = .body (.tableLeaf cells) ∧ encodeRecord row = .ok payload ∧
    header' = withCatalogRow cells (nextCatalogRowid cells) payload

/-- `createTable` plants an empty table. -/
theorem createTable_stores {statement : Ast.CreateTable} {sql : String} {table : TableSchema}
    (hs : Stores header db.catalog.slots content db.store)
    (h : createTable casefold statement sql db = (.ok table, db')) (hsmall : db'.store.pageCount < 2 ^ 32) :
    db.catalog.tables.lookup (casefold statement.name) = none ∧
      db'.catalog = { db.catalog with tables := db.catalog.tables.put (casefold statement.name) table } ∧
      table = tableSchema statement table.rootPage sql ∧ ∃ header',
        Registered header db (schemaRow "table" statement.name statement.name table.rootPage sql) table.rootPage
          header' ∧
        Stores header' db'.catalog.slots (content.setRows table.rootPage []) db'.store := by
  obtain ⟨hfresh, rootPage, s₁, s₂, cells, cells', payload, hallocate, hpage, hpayload, hinit, hpage', rfl, hstore,
    hcatalog⟩ := createTable_ok h
  have hspare := hs.allocate (E := fun _ _ => True) |>.ok hallocate
  have hroot : rootPage < 2 ^ 32 := by
    have hle := hspare.le_pageCount
    have hgrows : s₁.pageCount ≤ s₂.pageCount := by
      have hmoves := initBody_grows rootPage (.tableLeaf []) s₁
      rwa [hinit] at hmoves
    have hsame : db'.store.pageCount = s₂.pageCount := by rw [hstore]; rfl
    omega
  have hplanted := (hspare.initTable hroot).ok hinit
  obtain rfl : cells = cells' := by
    have hheader := hpage.symm.trans (hspare.header_eq.trans hplanted.header_eq.symm)
    rw [hpage'] at hheader
    simpa using hheader
  refine ⟨hfresh, hcatalog, rfl, _, ⟨hspare.fresh, cells, payload, ?_, hpayload, rfl⟩, ?_⟩
  · exact hspare.header_eq.symm.trans hpage
  · rw [hstore, hcatalog]
    exact (hplanted.set_header _).perm (slots_put_table hfresh (tableSchema statement rootPage sql))

/-- Keys of rows that were entered one after the other. -/
inductive Entered (positions : List Nat) : List (Int × List Value) → List (List Value) → Prop
  | nil : Entered positions [] []
  | concat {rows : List (Int × List Value)} {row : Int × List Value} {values : List Value}
      {keys keys' : List (List Value)} (hrows : Entered positions rows keys)
      (hvalues : pickColumns row.2 positions = .ok values) (hgains : Gains (values ++ [.int row.1]) keys keys') :
      Entered positions (rows ++ [row]) keys'

/-- `backfill` enters the key of each row. -/
theorem backfill_post {slots : List (TreeKind × Nat)} {s : PageStore} {root : Nat} {table : TableSchema}
    {positions : List Nat} (hs : Stores header slots content s) (hslot : (.table, table.rootPage) ∈ slots)
    (hindex : (.index, root) ∈ slots) (hempty : content.keys root = []) :
    Post (backfill root table positions) s (fun _ s' => ∃ keys,
      Entered positions (content.rows table.rootPage) keys ∧ Stores header slots (content.setKeys root keys) s')
      fun _ _ => True := by
  rw [backfill]
  apply (hs.eachInto (I := Entered positions) (E := fun _ _ => True) hslot hindex (hempty ▸ Entered.nil) ?_).bind
  · exact fun _ _ hs' => hs'
  · exact fun _ _ _ => trivial
  · intro seen row after payload _ hdecode s H U rest hid hf hseen
    rw [hdecode, post_bind, post_lift_ok, post_bind, post_lift]
    refine ⟨fun values hvalues => ?_, fun _ _ => trivial⟩
    subst hid
    apply (hf.insertKey_gains values row.1).mono ?_ fun _ _ _ => trivial
    rintro _ s' ⟨H', U', hf', hid', hgains⟩
    exact ⟨H', U', hf', hid', hseen.concat hvalues hgains⟩

/-- `createIndex` plants an index with the keys of its table's rows. -/
theorem createIndex_stores {statement : Ast.CreateIndex} {sql : String} {index : IndexSchema}
    (hs : Stores header db.catalog.slots content db.store)
    (h : createIndex casefold statement sql db = (.ok index, db')) (hsmall : db'.store.pageCount < 2 ^ 32) :
    db.catalog.indexes.lookup (casefold statement.name) = none ∧
      db'.catalog = { db.catalog with indexes := db.catalog.indexes.put (casefold statement.name) index } ∧
      ∃ e ∈ db.catalog.tables, ∃ positions keys header', db.catalog.getTable casefold statement.table = .ok e.2 ∧
        index = indexSchema statement e.2 index.rootPage sql ∧ indexColumns casefold e.2 index = .ok positions ∧
        (index.unique = true → ∃ s', rejectExistingDuplicate statement.name e.2 positions db.store = (.ok (), s')) ∧
        Entered positions (content.rows e.2.rootPage) keys ∧
        Registered header db (schemaRow "index" statement.name e.2.name index.rootPage sql) index.rootPage header' ∧
        Stores header' db'.catalog.slots (content.setKeys index.rootPage keys) db'.store := by
  obtain ⟨hfresh, table, positions, rootPage, s₁, s₂, s₃, cells, cells', payload, htable, hcolumns, hreject, hallocate,
    hpage, hpayload, hinit, hbackfill, hpage', rfl, hstore, hcatalog⟩ := createIndex_ok h
  obtain ⟨e, he, rfl⟩ := mem_tables htable
  have hspare := hs.allocate (E := fun _ _ => True) |>.ok hallocate
  have hroot : rootPage < 2 ^ 32 := by
    have hle := hspare.le_pageCount
    have hgrows : s₁.pageCount ≤ s₂.pageCount := by
      have hmoves := initBody_grows rootPage (.indexLeaf []) s₁
      rwa [hinit] at hmoves
    have hgrows' : s₂.pageCount ≤ s₃.pageCount := by
      have hmoves := backfill_grows rootPage e.2 positions s₂
      rwa [hbackfill] at hmoves
    have hsame : db'.store.pageCount = s₃.pageCount := by rw [hstore]; rfl
    omega
  have hplanted := (hspare.initIndex hroot).ok hinit
  obtain ⟨keys, hentered, hfilled⟩ := (backfill_post hplanted (List.mem_cons_of_mem _ (table_mem_slots he))
    (List.mem_cons_self ..) Content.setKeys_keys).ok hbackfill
  obtain rfl : cells = cells' := by
    have hheader := hpage.symm.trans (hspare.header_eq.trans hfilled.header_eq.symm)
    rw [hpage'] at hheader
    simpa using hheader
  refine ⟨hfresh, hcatalog, e, he, positions, keys, _, htable, rfl, hcolumns, hreject, hentered,
    ⟨hspare.fresh, cells, payload, ?_, hpayload, rfl⟩, ?_⟩
  · exact hspare.header_eq.symm.trans hpage
  · rw [hstore, hcatalog]
    have hslots := (hfilled.set_header (withCatalogRow cells (nextCatalogRowid cells) payload)).perm
      (slots_put_index hfresh (indexSchema statement e.2 rootPage sql))
    rw [Content.setKeys_setKeys] at hslots
    exact hslots

end Created

/-! ## Statements -/

section Effects

variable {casefold : String → String} {ops : FloatOps} {listEq : List Value → List Value → Bool}
  {header : PageContent} {content : Content} {db db' : Database}

/-- The catalog and page 1 are as they were. -/
def Kept (header : PageContent) (db db' : Database) : Prop :=
  db'.catalog = db.catalog ∧ ∃ content, Stores header db'.catalog.slots content db'.store

/-- One table more. -/
def AddsTable (casefold : String → String) (header : PageContent) (statement : Ast.CreateTable) (sql : String)
    (db db' : Database) : Prop :=
  db.catalog.tables.lookup (casefold statement.name) = none ∧ ∃ rootPage header' content,
    db'.catalog = { db.catalog with
      tables := db.catalog.tables.put (casefold statement.name) (tableSchema statement rootPage sql) } ∧
    Registered header db (schemaRow "table" statement.name statement.name rootPage sql) rootPage header' ∧
    Stores header' db'.catalog.slots content db'.store

/-- One index more, on columns of a table. -/
def AddsIndex (casefold : String → String) (header : PageContent) (statement : Ast.CreateIndex) (sql : String)
    (db db' : Database) : Prop :=
  db.catalog.indexes.lookup (casefold statement.name) = none ∧ ∃ table rootPage header' content,
    db.catalog.getTable casefold statement.table = .ok table ∧
    (∃ positions, statement.columns.mapM (table.columnIndex casefold) = .ok positions) ∧
    db'.catalog = { db.catalog with
      indexes := db.catalog.indexes.put (casefold statement.name) (indexSchema statement table rootPage sql) } ∧
    Registered header db (schemaRow "index" statement.name table.name rootPage sql) rootPage header' ∧
    Stores header' db'.catalog.slots content db'.store

/-- What a statement does to the catalog and page 1. -/
def Mutation.Effect (casefold : String → String) (header : PageContent) (db db' : Database) : Mutation → Prop
  | bootstrap => Kept header db db' ∨ AddsTable casefold header stat1Table stat1TableSql db db'
  | createTable statement sql => AddsTable casefold header statement sql db db'
  | createIndex statement sql => AddsIndex casefold header statement sql db db'
  | analyze _ => Kept header db db'
  | rows _ => Kept header db db'

theorem createTable_adds (hs : Stores header db.catalog.slots content db.store) (statement : Ast.CreateTable)
    (sql : String) : Post (QuillDb.createTable casefold statement sql) db
      (fun _ db' => db'.store.pageCount < 2 ^ 32 → AddsTable casefold header statement sql db db')
      fun _ _ => True := by
  apply Post.of_ok
  intro table db' hrun hsmall
  obtain ⟨hnew, hcatalog, htable, header', hregistered, hs'⟩ := createTable_stores hs hrun hsmall
  rw [htable] at hcatalog
  exact ⟨hnew, table.rootPage, header', _, hcatalog, hregistered, hs'⟩

/-- One statement. -/
theorem Mutation.run_effect {mutation : Mutation} (hs : Stores header db.catalog.slots content db.store) :
    Post (mutation.run casefold ops listEq) db
      (fun _ db' => db'.store.pageCount < 2 ^ 32 → mutation.Effect casefold header db db') fun _ _ => True := by
  cases mutation with
  | bootstrap =>
      rw [Mutation.run, StatisticsCatalog.ensureTable, post_bind, post_bind, post_state]
      split
      · exact fun _ => .inl ⟨rfl, content, hs⟩
      · exact (createTable_adds hs _ _).mono (fun _ _ h hsmall => .inr (h hsmall)) fun _ _ _ => trivial
  | createTable statement sql => exact (createTable_adds hs _ _).bind (fun _ _ h => h) fun _ _ _ => trivial
  | createIndex statement sql =>
      rw [Mutation.run, post_bind]
      apply Post.of_ok
      intro index db' hrun hsmall
      obtain ⟨hnew, hcatalog, e, he, positions, keys, header', htable, hindex, hcolumns, -, -, hregistered, hs'⟩ :=
        createIndex_stores hs hrun hsmall
      have hstatement : index.columns = statement.columns := by rw [hindex]; rfl
      rw [hindex] at hcatalog
      rw [indexColumns, hstatement] at hcolumns
      exact ⟨hnew, e.2, index.rootPage, header', _, htable, ⟨positions, hcolumns⟩, hcatalog, hregistered, hs'⟩
  | analyze target =>
      rw [Mutation.run, post_bind, post_state, post_bind, post_lift]
      refine ⟨fun table htable => ?_, fun _ _ => trivial⟩
      obtain ⟨e, he, rfl⟩ := mem_tables htable
      apply (analyze_post (I := fun _ _ => True) rfl hs trivial (table_mem_slots he)
        fun _ _ _ _ _ _ _ _ _ _ => trivial).mono ?_ fun _ _ _ => trivial
      rintro _ db' ⟨hcatalog, -, content', -, hs', -⟩ -
      exact ⟨hcatalog, content', hcatalog ▸ hs'⟩
  | rows request =>
      rw [Mutation.run, post_bind, post_state, onStore, post_zoom]
      have hholds := (holds_iff_stores (P := fun _ => True)).mpr ⟨content, hs, fun _ _ _ _ => trivial⟩
      apply (Request.run_decodes hholds fun _ _ _ _ _ _ => trivial).mono ?_ fun _ _ _ => trivial
      intro _ s' hs' _
      obtain ⟨content', hs', -⟩ := holds_iff_stores.mp hs'
      exact ⟨rfl, content', hs'⟩

end Effects

/-! ## Rowids of `quill_stat1` -/

section Analyze

variable {casefold : String → String} {listEq : List Value → List Value → Bool} {header : PageContent}
  {content : Content} {catalog : Catalog} {n root : Nat} {rows : List (Int × List Value)}

theorem RowidsLeft.figures {figures : List StatFigure} (h : RowidsLeft (n + figures.length) rows)
    (tbl : String) : RowidsLeft n (figures.foldl (restated tbl) rows) := by
  induction figures generalizing rows with
  | nil => exact h
  | cons figure figures ih => exact ih ((h.subset (List.filter_subset_self rows)).concat _)

theorem length_analyzed {target : Option String} {tables : List TableSchema}
    (h : StatisticsCatalog.analyzed casefold catalog target = .ok tables) :
    tables.length ≤ catalog.tables.length := by
  cases target with
  | none =>
      rw [← Except.ok.inj h]
      apply (List.length_filter_le ..).trans
      rw [Catalog.listTables, List.length_map, List.length_insertionSort]
  | some name =>
      obtain ⟨table, htable, heq⟩ := bind_eq_ok h
      obtain ⟨e, he, -⟩ := mem_tables htable
      rw [← Except.ok.inj heq]
      exact List.length_pos_of_mem he

/-- `analyze`, when there are rowids left for what it writes. -/
theorem analyze_int64_post {target : Option String} {db : Database} {I : List TableSchema → Content → Prop}
    (hcatalog : db.catalog = catalog) (hs : Stores header catalog.slots content db.store) (hcontent : I [] content)
    (hslot : (.table, root) ∈ catalog.slots)
    (hleft : RowidsLeft (catalog.tables.length * (catalog.indexes.length + 1)) (content.rows root))
    (hI : ∀ done content s, Stores header catalog.slots content s → I done content → ∀ t ∈ catalog.tables, ∀ figures,
      Figures listEq content (catalog.indexesFor casefold t.2.name) t.2 figures → Legible (content.rows root) →
        RowidsInt64 (figures.foldl (restated t.2.name) (content.rows root)) →
          I (done ++ [t.2]) (content.setRows root (figures.foldl (restated t.2.name) (content.rows root)))) :
    Post (StatisticsCatalog.analyze listEq casefold root target) db (fun _ db' => db'.catalog = catalog ∧
      ∃ tables content', StatisticsCatalog.analyzed casefold catalog target = .ok tables ∧
        Stores header catalog.slots content' db'.store ∧ I tables content') fun _ _ => True := by
  -- the tables that are left have rowids left
  let J (done : List TableSchema) (content : Content) : Prop := done.length ≤ catalog.tables.length →
    RowidsLeft ((catalog.tables.length - done.length) * (catalog.indexes.length + 1)) (content.rows root) ∧
      I done content
  apply (analyze_post (I := J) hcatalog hs (fun _ => ⟨hleft, hcontent⟩) hslot ?_).mono ?_ fun _ _ _ => trivial
  · intro done content s hs hJ t ht figures hfigures hlegible hlength
    rw [List.length_append, List.length_singleton] at hlength ⊢
    obtain ⟨hleft, hdone⟩ := hJ (Nat.le_of_succ_le hlength)
    have hfew : figures.length ≤ catalog.indexes.length + 1 := by
      have hidx := congrArg List.length hfigures.idx
      rw [List.length_map, List.length_cons, List.length_map] at hidx
      have hindexes : (catalog.indexesFor casefold t.2.name).length ≤ catalog.indexes.length := by
        apply (List.length_filter_le ..).trans
        rw [List.length_map]
      omega
    obtain ⟨m, hm⟩ := Nat.exists_eq_add_of_le hlength
    have hsplit : (catalog.tables.length - done.length) * (catalog.indexes.length + 1) =
        m * (catalog.indexes.length + 1) + (catalog.indexes.length + 1) := by
      rw [← Nat.succ_mul]
      congr 1
      omega
    have hmore : catalog.tables.length - (done.length + 1) = m := by omega
    rw [hsplit] at hleft
    have hnew := (hleft.mono (Nat.add_le_add_left hfew _)).figures t.2.name
    rw [hmore, Content.setRows_rows]
    exact ⟨hnew, hI done content s hs hdone t ht figures hfigures hlegible hnew.int64⟩
  · rintro _ db' ⟨hcatalog', tables, content', htables, hs', hJ⟩
    exact ⟨hcatalog', tables, content', htables, hs', (hJ (length_analyzed htables)).2⟩

end Analyze

/-! ## Pages -/

section Pages

variable {casefold : String → String} {ops : FloatOps} {listEq : List Value → List Value → Bool}
  {header : PageContent} {content : Content} {db db' : Database}

/-- The rows that the statement stores go under rowids in the int64 range. -/
def Mutation.InRange (casefold : String → String) (ops : FloatOps) : Mutation → Database → Prop
  | .rows request, db => request.InRange casefold ops db.catalog db.store
  | .analyze _, db => ∀ table, db.catalog.getTable casefold stat1TableName = .ok table →
      RowidsFit table.rootPage (db.catalog.tables.length * (db.catalog.indexes.length + 1)) db.store
  | _, _ => True

instance (mutation : Mutation) (db : Database) : Decidable (mutation.InRange casefold ops db) :=
  match mutation with
  | .rows request => inferInstanceAs (Decidable (request.InRange casefold ops db.catalog db.store))
  | .analyze _ => inferInstanceAs (Decidable (∀ table, db.catalog.getTable casefold stat1TableName = .ok table →
      RowidsFit table.rootPage (db.catalog.tables.length * (db.catalog.indexes.length + 1)) db.store))
  | .bootstrap => .isTrue trivial
  | .createTable _ _ => .isTrue trivial
  | .createIndex _ _ => .isTrue trivial

/-- The pages hold the trees of the catalog, with rows that can be read and int64 rowids. -/
def Housed (db : Database) : Prop := ∃ header content, Stores header db.catalog.slots content db.store ∧
  ∀ root, (.table, root) ∈ db.catalog.slots → RowidsInt64 (content.rows root)

theorem createTable_housed (hs : Stores header db.catalog.slots content db.store)
    (hint : ∀ root, (.table, root) ∈ db.catalog.slots → RowidsInt64 (content.rows root))
    (statement : Ast.CreateTable) (sql : String) : Post (QuillDb.createTable casefold statement sql) db
      (fun _ db' => db'.store.pageCount < 2 ^ 32 → Housed db') fun _ _ => True := by
  apply Post.of_ok
  intro table db' hrun hsmall
  obtain ⟨hnew, hcatalog, htable, header', hregistered, hs'⟩ := createTable_stores hs hrun hsmall
  refine ⟨header', _, hs', fun root hroot => ?_⟩
  rw [hcatalog] at hroot
  rcases List.mem_cons.mp ((slots_put_table hnew table).mem_iff.mpr hroot) with heq | hroot
  · have hroot : root = table.rootPage := congrArg Prod.snd heq
    rw [hroot, Content.setRows_rows]
    exact fun row hrow => absurd hrow List.not_mem_nil
  · rw [Content.setRows_rows_of_ne (hregistered.fresh _ hroot)]
    exact hint root hroot

/-- One statement. -/
theorem Mutation.run_housed {mutation : Mutation} (h : Housed db) (hrange : mutation.InRange casefold ops db) :
    Post (mutation.run casefold ops listEq) db
      (fun _ db' => db'.store.pageCount < 2 ^ 32 → Housed db') fun _ _ => True := by
  obtain ⟨header, content, hs, hint⟩ := h
  cases mutation with
  | bootstrap =>
      rw [Mutation.run, StatisticsCatalog.ensureTable, post_bind, post_bind, post_state]
      split
      · exact fun _ => ⟨header, content, hs, hint⟩
      · exact createTable_housed hs hint _ _
  | createTable statement sql =>
      exact (createTable_housed hs hint _ _).bind (fun _ _ h => h) fun _ _ _ => trivial
  | createIndex statement sql =>
      rw [Mutation.run, post_bind]
      apply Post.of_ok
      intro index db' hrun hsmall
      obtain ⟨hnew, hcatalog, -, -, -, keys, header', -, -, -, -, -, -, hs'⟩ := createIndex_stores hs hrun hsmall
      refine ⟨header', _, hs', fun root hroot => ?_⟩
      rw [hcatalog] at hroot
      rcases List.mem_cons.mp ((slots_put_index hnew index).mem_iff.mpr hroot) with heq | hroot
      · cases congrArg Prod.fst heq
      · exact hint root hroot
  | analyze target =>
      rw [Mutation.run, post_bind, post_state, post_bind, post_lift]
      refine ⟨fun table htable => ?_, fun _ _ => trivial⟩
      obtain ⟨e, he, rfl⟩ := mem_tables htable
      have hslot := table_mem_slots he
      have hleft := (hrange e.2 htable).rowidsLeft hs hslot (hint _ hslot)
      let I (_ : List TableSchema) (content : Content) : Prop :=
        ∀ root, (.table, root) ∈ db.catalog.slots → RowidsInt64 (content.rows root)
      apply (analyze_int64_post (I := I) rfl hs hint hslot hleft ?_).mono ?_ fun _ _ _ => trivial
      · intro done content s _ hint t _ figures _ _ hnew root hroot
        by_cases heq : root = e.2.rootPage
        · rw [heq, Content.setRows_rows]
          exact hnew
        · rw [Content.setRows_rows_of_ne heq]
          exact hint root hroot
      · rintro _ db' ⟨hcatalog, tables, content', -, hs', hint'⟩ -
        exact ⟨header, content', hcatalog ▸ hs', hcatalog ▸ hint'⟩
  | rows request =>
      rw [Mutation.run, post_bind, post_state, onStore, post_zoom]
      have hnext : ∀ statement, request.statement = .insert statement → ∀ bound, Binder.bind request.parameters
          (Binder.bindInsert ops (db.catalog.getTable casefold) request.parameters statement) = .ok bound →
            ∀ rowid, (TableCursor.nextRowid bound.table.rootPage db.store).1 = .ok rowid → InInt64 rowid := by
        intro statement hstatement bound hbind rowid hrowid
        obtain ⟨consumed, hbound⟩ := bind_ok hbind
        obtain ⟨e, he, hetable⟩ := mem_tables (bindInsert_ok hbound).1
        have hslot := table_mem_slots he
        have hfit : RowidsFit bound.table.rootPage 1 db.store := by
          rw [Mutation.InRange, Request.InRange, hstatement] at hrange
          exact hrange bound hbind
        rw [← hetable] at hrowid hfit
        have hleft := (hfit.rowidsLeft hs hslot (hint _ hslot)).concat []
        rw [hs.nextRowid hslot] at hrowid
        rw [← Except.ok.inj hrowid]
        exact hleft.int64 _ (List.mem_append_right _ (List.mem_singleton_self _))
      apply (Request.run_decodes (holds_iff_stores.mpr ⟨content, hs, hint⟩) hnext).mono ?_ fun _ _ _ => trivial
      intro _ s' hs' _
      obtain ⟨content', hs', hint'⟩ := holds_iff_stores.mp hs'
      exact ⟨header, content', hs', hint'⟩

/-- After every run of statements each page is page 1, or a page of one tree of the
catalog, or on the freelist, and only one of these and once; and the pages of a tree read
back as they were written. -/
theorem pages_owned {mutations : List Mutation} (hdb : Housed db)
    (hrun : Executes casefold ops listEq (Mutation.InRange casefold ops) db mutations db')
    (hsmall : db'.store.pageCount < 2 ^ 32) : ∃ (trees : List StoredTree) (free : List Nat),
      (trees.map StoredTree.slot).Perm db'.catalog.slots ∧ (∀ t ∈ trees, t.Sound) ∧
      (∀ t ∈ trees, ∀ p ∈ t.image, db'.store.pages p.1 = p.2 ∧ p.2.reread = p.2) ∧
      FreeList db'.store.pages db'.store.freelistTrunk free ∧ db'.store.freelistCount = free.length ∧
      (1 :: ((trees.flatMap fun t => t.image.map Prod.fst) ++ free)).Perm (List.range' 1 db'.store.pageCount) := by
  obtain ⟨header, content, ⟨trees, hf, hslots, hshows⟩, hint⟩ := hrun.induct hsmall hdb fun mutation db hdb hrange =>
    Mutation.run_housed hdb hrange
  obtain ⟨free, hcount, hfree, hperm⟩ := hf.live.free
  refine ⟨trees, free, hslots, hf.sound, fun t ht p hp => ⟨?_, ?_⟩, hfree.freeList, hcount, ?_⟩
  · exact hf.live.holds p (List.mem_flatMap.mpr ⟨t, ht, hp⟩)
  · refine hf.steady ht (fun r hr => ?_) p hp
    cases t with
    | index X => cases hr
    | table X =>
        obtain ⟨row, hrow, hrowid, -⟩ := exists_right (hshows _ ht) hr
        rw [hrowid]
        exact hint X.id (hslots.mem_iff.mp (List.mem_map_of_mem ht)) row hrow
  · rwa [List.append_nil, List.map_flatMap] at hperm

end Pages

/-! ## A new database -/

/-- A database without tables: page 1 is an empty leaf. -/
def newDatabase : Database where
  store := ⟨1, 0, 0, fun _ => .body (.tableLeaf [])⟩
  schemaCookie := 0
  catalog := ⟨[], []⟩

theorem newDatabase_stores (content : Content) :
    Stores (.body (.tableLeaf [])) newDatabase.catalog.slots content newDatabase.store := by
  refine ⟨[], ⟨fun t ht => absurd ht List.not_mem_nil, ?_⟩, List.Perm.refl _, fun t ht => absurd ht List.not_mem_nil⟩
  exact ⟨⟨[], rfl, ⟨rfl, Nat.two_pow_pos 32⟩, List.Perm.refl _⟩, fun p hp => absurd hp List.not_mem_nil,
    fun p hp => absurd hp List.not_mem_nil, rfl⟩

/-- A table with a UNIQUE index and a row. -/
def oneRow : List Mutation :=
  [.bootstrap, .createTable ⟨"t", [⟨"a", .integer⟩]⟩ "CREATE TABLE t (a INTEGER)",
    .createIndex ⟨"i", "t", ["a"], true⟩ "CREATE UNIQUE INDEX i ON t (a)",
    .rows ⟨.insert ⟨"t", [.literal (.int 5)]⟩, []⟩, .analyze none]

theorem oneRow_executes (meets : Mutation → Database → Prop) (hmeets : ∀ mutation ∈ oneRow, ∀ db, meets mutation db) :
    ∃ db, Executes id noFloats tupleEq meets newDatabase oneRow db ∧ db.store.pageCount < 2 ^ 32 := by
  refine ⟨_, executes_after _ _ _ (by decide +kernel) fun k hk => ?_, ?_⟩
  · exact hmeets _ (List.getElem_mem hk) _
  · decide +kernel

/-- `INSERT INTO t VALUES (a, b)`. -/
def insertPair (a : Int) (b : String) : Mutation :=
  .rows ⟨.insert ⟨"t", [.literal (.int a), .literal (.text b)]⟩, []⟩

/-- `a = n`. -/
def whereA (n : Int) : Ast.Expression := .binaryOp (.column "a" none) .eq (.literal (.int n))

/-- A table with two indexes, and rows that come, change and go. -/
def severalRows : List Mutation :=
  [.bootstrap, .createTable ⟨"t", [⟨"a", .integer⟩, ⟨"b", .text⟩]⟩ "CREATE TABLE t (a INTEGER, b TEXT)",
    .createIndex ⟨"i", "t", ["a"], true⟩ "CREATE UNIQUE INDEX i ON t (a)",
    .createIndex ⟨"j", "t", ["b"], false⟩ "CREATE INDEX j ON t (b)",
    insertPair 5 "x", insertPair 3 "y", insertPair 9 "x", insertPair 1 "x", insertPair 2 "x",
    .rows ⟨.update ⟨"t", [⟨"a", .literal (.int 7)⟩], some (whereA 3)⟩, []⟩,
    .rows ⟨.delete ⟨"t", some (whereA 9)⟩, []⟩, .analyze none]

def severalRowsDatabase : Database := after id noFloats tupleEq newDatabase severalRows

theorem severalRows_small : severalRowsDatabase.store.pageCount < 2 ^ 32 := by decide +kernel

theorem severalRows_executes {meets : Mutation → Database → Prop}
    (hmeets : ∀ k (hk : k < severalRows.length),
      meets severalRows[k] (after id noFloats tupleEq newDatabase (severalRows.take k))) :
    Executes id noFloats tupleEq meets newDatabase severalRows severalRowsDatabase :=
  executes_after _ _ _ (by decide +kernel) hmeets

theorem newDatabase_housed : Housed newDatabase :=
  ⟨_, ⟨fun _ => [], fun _ => []⟩, newDatabase_stores _, fun _ _ _ hrow => absurd hrow List.not_mem_nil⟩

theorem pages_owned_severalRows : ∃ (trees : List StoredTree) (free : List Nat),
    (trees.map StoredTree.slot).Perm severalRowsDatabase.catalog.slots ∧ (∀ t ∈ trees, t.Sound) ∧
    (∀ t ∈ trees, ∀ p ∈ t.image, severalRowsDatabase.store.pages p.1 = p.2 ∧ p.2.reread = p.2) ∧
    FreeList severalRowsDatabase.store.pages severalRowsDatabase.store.freelistTrunk free ∧
    severalRowsDatabase.store.freelistCount = free.length ∧
    (1 :: ((trees.flatMap fun t => t.image.map Prod.fst) ++ free)).Perm
      (List.range' 1 severalRowsDatabase.store.pageCount) := by
  have hrun : Executes id noFloats tupleEq (Mutation.InRange id noFloats) newDatabase severalRows severalRowsDatabase :=
    severalRows_executes (by decide +kernel)
  exact pages_owned newDatabase_housed hrun severalRows_small

end QuillDb
