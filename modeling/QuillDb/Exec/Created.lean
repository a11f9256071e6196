/-
  Exec/Created.lean --- what CREATE TABLE and CREATE INDEX leave when they succeed.

  Source: `create_table`, `create_index` and `_append_catalog_row` of
  `quilldb/catalog/catalog.py`.

  The steps of a call that returns, each with the state it leaves.
-/
import QuillDb.Exec.Statements

set_option autoImplicit false

namespace QuillDb

open Prog PageStore Fallible

section Created

variable {casefold : String → String} {db db' : Database} {s s' : PageStore}

/-- A program on the pages that returned, and what came behind it. -/
theorem of_onStore_bind_ok {α β : Type} {m : StoreM α} {f : α → DbM β} {b : β}
    (h : (onStore m >>= f) db = (.ok b, db')) :
    ∃ a s, m db.store = (.ok a, s) ∧ f a { db with store := s } = (.ok b, db') := by
  rw [onStore, bind_apply, zoom] at h
  rcases hm : m db.store with ⟨e | a, s⟩
  · rw [hm] at h
    cases congrArg Prod.fst h
  · rw [hm] at h
    exact ⟨a, s, rfl, h⟩

theorem readBody_ok {id : Nat} {b : PageBody} (h : readBody id s = (.ok b, s')) :
    s' = s ∧ s.pages id = .body b := by
  have hstate := readBody_reads id s
  rw [h] at hstate
  refine ⟨hstate.symm, ?_⟩
  obtain ⟨page, s₁, hpage, hrest⟩ := exists_of_bind_ok h
  rw [getPage, bind_of_ok (state_apply s)] at hpage
  split at hpage
  · have hsame : s.pages id = page := Except.ok.inj (congrArg Prod.fst hpage)
    rw [hsame]
    cases page with
    | body b' => rw [Except.ok.inj (congrArg Prod.fst hrest)]
    | link next content => cases congrArg Prod.fst hrest
  · cases congrArg Prod.fst hpage

/-- Page 1 is a leaf. -/
theorem schemaPage_ok {cells : List TableLeafCell} (h : schemaPage s = (.ok cells, s')) :
    s' = s ∧ s.pages schemaRootPage = .body (.tableLeaf cells) := by
  obtain ⟨b, s₁, hb, hrest⟩ := exists_of_bind_ok h
  obtain ⟨rfl, hpage⟩ := readBody_ok hb
  cases b with
  | tableLeaf cells' =>
      obtain rfl := Except.ok.inj (congrArg Prod.fst hrest)
      exact ⟨(congrArg Prod.snd hrest).symm, hpage⟩
  | _ => cases congrArg Prod.fst hrest

/-- Page 1 with one more row. -/
def withCatalogRow (cells : List TableLeafCell) (rowid : Int) (payload : Bytes) : PageContent :=
  .body (.tableLeaf (BTree.insertAt cells (cells.findIdx fun existing => rowid < existing.rowid)
    ⟨rowid, catalogPayload payload⟩))

theorem appendCatalogRow_ok {rowid : Int} {payload : Bytes} {u : Unit}
    (h : appendCatalogRow rowid payload s = (.ok u, s')) : ∃ cells,
      s.pages schemaRootPage = .body (.tableLeaf cells) ∧
        s' = s.set schemaRootPage (withCatalogRow cells rowid payload) := by
  obtain ⟨cell, hcell, h₁⟩ := of_lift_bind_ok h
  obtain ⟨cells, s₂, hcells, h₂⟩ := exists_of_bind_ok h₁
  obtain ⟨rfl, hpage⟩ := schemaPage_ok hcells
  obtain ⟨-, h₃⟩ := of_raiseIf_bind_ok h₂
  obtain ⟨-, -, hcell⟩ := bind_eq_ok hcell
  obtain ⟨-, -, hcell⟩ := bind_eq_ok hcell
  obtain ⟨-, -, hcell⟩ := bind_eq_ok hcell
  obtain rfl := Except.ok.inj hcell
  exact ⟨cells, hpage, (congrArg Prod.snd h₃).symm⟩

/-- The row of an object in `sqlite_schema`. -/
def schemaRow (kind name tblName : String) (rootPage : Nat) (sql : String) : List Value :=
  [.text kind, .text name, .text tblName, .int rootPage, .text sql]

/-- What `create_table` has done when it returns. -/
theorem createTable_ok {statement : Ast.CreateTable} {sql : String} {table : TableSchema}
    (h : createTable casefold statement sql db = (.ok table, db')) :
    db.catalog.tables.lookup (casefold statement.name) = none ∧ ∃ rootPage s₁ s₂ cells cells' payload,
      allocatePage db.store = (.ok rootPage, s₁) ∧ s₁.pages schemaRootPage = .body (.tableLeaf cells) ∧
      encodeRecord (schemaRow "table" statement.name statement.name rootPage sql) = .ok payload ∧
      initBody rootPage (.tableLeaf []) s₁ = (.ok (), s₂) ∧ s₂.pages schemaRootPage = .body (.tableLeaf cells') ∧
      table = tableSchema statement rootPage sql ∧
      db'.store = s₂.set schemaRootPage (withCatalogRow cells' (nextCatalogRowid cells) payload) ∧
      db'.catalog = { db.catalog with tables := db.catalog.tables.put (casefold statement.name) table } := by
  rw [createTable, bind_of_ok (state_apply db)] at h
  obtain ⟨-, h₁⟩ := of_raiseIf_bind_ok h
  obtain ⟨hfresh, h₂⟩ := of_raiseIf_bind_ok h₁
  obtain ⟨rootPage, s₁, hallocate, h₃⟩ := of_onStore_bind_ok h₂
  obtain ⟨cells, s₂, hcells, h₄⟩ := of_onStore_bind_ok h₃
  obtain ⟨rfl, hpage⟩ := schemaPage_ok hcells
  obtain ⟨payload, hpayload, h₅⟩ := of_lift_bind_ok h₄
  obtain ⟨cell, -, h₆⟩ := of_lift_bind_ok h₅
  split at h₆
  · obtain ⟨⟨⟩, s₃, hinit, h₇⟩ := of_onStore_bind_ok h₆
    obtain ⟨⟨⟩, s₄, happend, h₈⟩ := of_onStore_bind_ok h₇
    obtain ⟨cells', hpage', rfl⟩ := appendCatalogRow_ok happend
    obtain ⟨htable, hdb⟩ := Prod.mk.inj h₈
    obtain rfl := Except.ok.inj htable
    subst hdb
    refine ⟨Option.not_isSome_iff_eq_none.mp hfresh, rootPage, _, s₃, cells, cells', payload, hallocate, hpage,
      hpayload, hinit, hpage', rfl, rfl, rfl⟩
  · obtain ⟨⟨⟩, s₃, -, h₇⟩ := of_onStore_bind_ok h₆
    cases congrArg Prod.fst h₇

/-- A handler that raises again is not there when the call returns. -/
theorem backfill_of_handle {rootPage : Nat} {table : TableSchema} {columnIndices : List Nat}
    (h : handle (backfill rootPage table columnIndices) (fun e =>
      match e with
      | .pageFull message => do
          freePage rootPage
          raise (.pageFull message)
      | e => raise e) s = (.ok (), s')) : backfill rootPage table columnIndices s = (.ok (), s') := by
  unfold handle at h
  rcases hrun : backfill rootPage table columnIndices s with ⟨e | u, s₁⟩
  · rw [hrun] at h
    exfalso
    cases e with
    | pageFull message =>
        obtain ⟨u, s₂, -, hraise⟩ := exists_of_bind_ok h
        cases congrArg Prod.fst hraise
    | _ => cases congrArg Prod.fst h
  · rw [hrun] at h
    exact h

/-- What `create_index` has done when it returns. -/
theorem createIndex_ok {statement : Ast.CreateIndex} {sql : String} {index : IndexSchema}
    (h : createIndex casefold statement sql db = (.ok index, db')) :
    db.catalog.indexes.lookup (casefold statement.name) = none ∧ ∃ table columnIndices rootPage s₁ s₂ s₃ cells
        cells' payload,
      db.catalog.getTable casefold statement.table = .ok table ∧
      statement.columns.mapM (table.columnIndex casefold) = .ok columnIndices ∧
      (statement.unique = true → ∃ s', rejectExistingDuplicate statement.name table columnIndices db.store =
        (.ok (), s')) ∧
      allocatePage db.store = (.ok rootPage, s₁) ∧ s₁.pages schemaRootPage = .body (.tableLeaf cells) ∧
      encodeRecord (schemaRow "index" statement.name table.name rootPage sql) = .ok payload ∧
      initBody rootPage (.indexLeaf []) s₁ = (.ok (), s₂) ∧
      backfill rootPage table columnIndices s₂ = (.ok (), s₃) ∧
      s₃.pages schemaRootPage = .body (.tableLeaf cells') ∧ index = indexSchema statement table rootPage sql ∧
      db'.store = s₃.set schemaRootPage (withCatalogRow cells' (nextCatalogRowid cells) payload) ∧
      db'.catalog = { db.catalog with indexes := db.catalog.indexes.put (casefold statement.name) index } := by
  rw [createIndex, bind_of_ok (state_apply db)] at h
  obtain ⟨-, h₁⟩ := of_raiseIf_bind_ok h
  obtain ⟨hfresh, h₂⟩ := of_raiseIf_bind_ok h₁
  obtain ⟨table, htable, h₃⟩ := of_lift_bind_ok h₂
  obtain ⟨columnIndices, hcolumns, h₄⟩ := of_lift_bind_ok h₃
  -- the check for duplicates leaves the pages
  have hchecked : (statement.unique = true → ∃ s',
      rejectExistingDuplicate statement.name table columnIndices db.store = (.ok (), s')) ∧
      (do
        let rootPage ← onStore allocatePage
        let cells ← onStore schemaPage
        let rowid := nextCatalogRowid cells
        let payload ← lift (encodeRecord (schemaRow "index" statement.name table.name rootPage sql))
        let cell ← lift (encodeLeafTableCell rowid (catalogPayload payload))
        if schemaFits cells cell.size then
          onStore (initBody rootPage (.indexLeaf []))
          onStore (handle (backfill rootPage table columnIndices) fun e =>
            match e with
            | .pageFull message => do
                freePage rootPage
                raise (.pageFull message)
            | e => raise e)
          onStore (appendCatalogRow rowid payload)
          bumpSchemaCookie
          let schema := indexSchema statement table rootPage sql
          update fun db => { db with
            catalog.indexes := db.catalog.indexes.put (casefold statement.name) schema }
          return schema
        else
          onStore (freePage rootPage)
          raise (.pageFull s!"sqlite_schema (page 1) has no room for index {statement.name}")) db =
        (.ok index, db') := by
    split at h₄
    · obtain ⟨⟨⟩, s₁, hreject, h₅⟩ := of_onStore_bind_ok h₄
      have hsame := rejectExistingDuplicate_reads statement.name table columnIndices db.store
      rw [hreject] at hsame
      dsimp only at hsame
      subst hsame
      exact ⟨fun _ => ⟨_, hreject⟩, h₅⟩
    · exact ⟨fun hunique => absurd hunique ‹_›, h₄⟩
  obtain ⟨hreject, h₅⟩ := hchecked
  obtain ⟨rootPage, s₁, hallocate, h₆⟩ := of_onStore_bind_ok h₅
  obtain ⟨cells, s₂, hcells, h₇⟩ := of_onStore_bind_ok h₆
  obtain ⟨rfl, hpage⟩ := schemaPage_ok hcells
  obtain ⟨payload, hpayload, h₈⟩ := of_lift_bind_ok h₇
  obtain ⟨cell, -, h₉⟩ := of_lift_bind_ok h₈
  split at h₉
  · obtain ⟨⟨⟩, s₃, hinit, h₁₀⟩ := of_onStore_bind_ok h₉
    obtain ⟨⟨⟩, s₄, hbackfill, h₁₁⟩ := of_onStore_bind_ok h₁₀
    obtain ⟨⟨⟩, s₅, happend, h₁₂⟩ := of_onStore_bind_ok h₁₁
    obtain ⟨cells', hpage', rfl⟩ := appendCatalogRow_ok happend
    obtain ⟨hindex, hdb⟩ := Prod.mk.inj h₁₂
    obtain rfl := Except.ok.inj hindex
    subst hdb
    refine ⟨Option.not_isSome_iff_eq_none.mp fun h => hfresh (.inl h), table, columnIndices, rootPage, _, s₃, s₄, cells,
      cells', payload, htable, hcolumns, hreject, hallocate, hpage, hpayload, hinit, ?_, hpage', rfl, rfl, rfl⟩
    exact backfill_of_handle hbackfill
  · obtain ⟨⟨⟩, s₃, -, h₁₀⟩ := of_onStore_bind_ok h₉
    cases congrArg Prod.fst h₁₀

end Created

end QuillDb
