/-
  Exec/InStep.lean --- the tables of a catalog and their indexes.

  Source: `Insert`, `Delete` and `Update` of `quilldb/exec/operators.py`, `indexes_for` of
  `quilldb/catalog/catalog.py`.

  An index belongs to the table it names, and no two tables have one name, so a statement
  on one table leaves the rows and the keys of the others alone.
-/
import QuillDb.BTree.Reread
import QuillDb.Exec.UpdateRows

set_option autoImplicit false

namespace QuillDb

open Prog PageStore Fallible

def NoNan (row : List Value) : Prop := ∀ v ∈ row, ¬ v.isNan

instance (row : List Value) : Decidable (NoNan row) := inferInstanceAs (Decidable (∀ v ∈ row, ¬ v.isNan))

/-- The tables are listed by their names, and an index by the name of a table. -/
structure Catalog.Named (casefold : String → String) (catalog : Catalog) : Prop where
  named : ∀ e ∈ catalog.tables, e.1 = casefold e.2.name
  distinct : (catalog.tables.map Prod.fst).Nodup
  owned : ∀ e ∈ catalog.indexes, ∃ t ∈ catalog.tables, t.1 = casefold e.2.table

/-- `n` rows more can be put behind these under rowids in the int64 range. -/
def RowidsLeft (n : Nat) (rows : List (Int × List Value)) : Prop :=
  n < 2 ^ 63 ∧ ∀ row ∈ rows, -2 ^ 63 ≤ row.1 ∧ row.1 + n < 2 ^ 63

/-- The rows are under rowids in the int64 range. -/
def RowidsInt64 (rows : List (Int × List Value)) : Prop := ∀ row ∈ rows, InInt64 row.1

/-- Every table of the catalog has its rows, under int64 rowids, and, in step with them, its
indexes. -/
structure InStep (casefold : String → String) (catalog : Catalog) (content : Content) : Prop where
  names : catalog.Named casefold
  coherent : ∀ e ∈ catalog.tables, Coherent casefold e.2 (catalog.indexesFor casefold e.2.name)
    (content.rows e.2.rootPage) content.keys
  noNan : ∀ e ∈ catalog.tables, ∀ row ∈ content.rows e.2.rootPage, NoNan row.2
  int64 : ∀ e ∈ catalog.tables, RowidsInt64 (content.rows e.2.rootPage)

/-! ## Rowids -/

namespace RowidsLeft

variable {n : Nat} {rows kept : List (Int × List Value)}

theorem int64 (h : RowidsLeft n rows) : RowidsInt64 rows := by
  intro row hrow
  have hbounds := h.2 row hrow
  exact ⟨hbounds.1, by omega⟩

theorem mono {m : Nat} (h : RowidsLeft n rows) (hle : m ≤ n) : RowidsLeft m rows := by
  refine ⟨by have := h.1; omega, fun row hrow => ?_⟩
  have hbounds := h.2 row hrow
  exact ⟨hbounds.1, by omega⟩

theorem subset (h : RowidsLeft n rows) (hsub : kept ⊆ rows) : RowidsLeft n kept :=
  ⟨h.1, fun row hrow => h.2 row (hsub hrow)⟩

/-- The next row takes one of the rowids. -/
theorem concat (h : RowidsLeft (n + 1) rows) (values : List Value) :
    RowidsLeft n (rows ++ [(nextRowidOf rows, values)]) := by
  have hroom := h.1
  refine ⟨by omega, fun row hrow => ?_⟩
  rcases List.mem_append.mp hrow with hrow | hrow
  · have hbounds := h.2 row hrow
    exact ⟨hbounds.1, by omega⟩
  · rw [List.mem_singleton.mp hrow]
    rcases List.eq_nil_or_concat' rows with rfl | ⟨front, last, rfl⟩
    · have hfirst : nextRowidOf [] = 1 := rfl
      simp only [hfirst]
      omega
    · have hlast := h.2 last (by simp)
      have hnext : nextRowidOf (front ++ [last]) = last.1 + 1 := by simp [nextRowidOf]
      simp only [hnext]
      omega

end RowidsLeft

/-- The next `n` rowids of the table are in the int64 range. -/
def RowidsFit (root n : Nat) (s : PageStore) : Prop :=
  ∀ rowid, (TableCursor.nextRowid root s).1 = .ok rowid → max rowid 1 + n ≤ 2 ^ 63

instance (root n : Nat) (s : PageStore) : Decidable (RowidsFit root n s) :=
  inferInstanceAs (Decidable (∀ rowid, (TableCursor.nextRowid root s).1 = .ok rowid → max rowid 1 + (n : Int) ≤ 2 ^ 63))

theorem RowidsFit.rowidsLeft {header : PageContent} {slots : List (TreeKind × Nat)} {content : Content} {s : PageStore}
    {root n : Nat} (h : RowidsFit root n s) (hs : Stores header slots content s) (hslot : (.table, root) ∈ slots)
    (hint : RowidsInt64 (content.rows root)) : RowidsLeft n (content.rows root) := by
  have hnext := h _ (congrArg Prod.fst (hs.nextRowid hslot))
  have hlt := lt_nextRowidOf (hs.ascending hslot)
  refine ⟨by omega, fun row hrow => ?_⟩
  have hbelow := hlt row hrow
  exact ⟨(hint row hrow).1, by omega⟩

section InStep

variable {casefold : String → String} {catalog : Catalog} {content : Content} {header : PageContent}
  {s s' : PageStore} {e : String × TableSchema}

/-! ## One table -/

theorem mem_indexesFor {name : String} {index : IndexSchema} :
    index ∈ catalog.indexesFor casefold name ↔
      (∃ i ∈ catalog.indexes, i.2 = index) ∧ casefold index.table = casefold name := by
  simp [Catalog.indexesFor]

/-- No two indexes have one root. -/
theorem nodup_indexRoots (hs : Stores header catalog.slots content s) :
    (catalog.indexes.map fun i => i.2.rootPage).Nodup := by
  have hnodup := hs.nodup_roots
  rw [Catalog.slots, List.map_append, List.map_map, List.map_map] at hnodup
  exact (List.nodup_append.mp hnodup).2.1

theorem nodup_tableRoots (hs : Stores header catalog.slots content s) :
    (catalog.tables.map fun e => e.2.rootPage).Nodup := by
  have hnodup := hs.nodup_roots
  rw [Catalog.slots, List.map_append, List.map_map, List.map_map] at hnodup
  exact (List.nodup_append.mp hnodup).1

theorem planted (casefold : String → String) (hs : Stores header catalog.slots content s) (he : e ∈ catalog.tables) :
    Planted catalog.slots e.2 (catalog.indexesFor casefold e.2.name) := by
  refine ⟨table_mem_slots he, index_mem_slots, ?_⟩
  have hnodup := nodup_indexRoots hs
  have hsub : ((catalog.indexesFor casefold e.2.name).map IndexSchema.rootPage).Sublist
      (catalog.indexes.map fun i => i.2.rootPage) := by
    have hmap : catalog.indexes.map (fun i => i.2.rootPage) =
        (catalog.indexes.map Prod.snd).map IndexSchema.rootPage := by
      rw [List.map_map]
      rfl
    rw [hmap]
    exact List.filter_sublist.map _
  exact hnodup.sublist hsub

/-- An index of another table has another root. -/
theorem InStep.root_notMem (h : InStep casefold catalog content) (hs : Stores header catalog.slots content s)
    (he : e ∈ catalog.tables) {other : String × TableSchema} (hother : other ∈ catalog.tables) (hne : other ≠ e)
    {index : IndexSchema} (hindex : index ∈ catalog.indexesFor casefold other.2.name) :
    index.rootPage ∉ (catalog.indexesFor casefold e.2.name).map IndexSchema.rootPage := by
  intro hmem
  obtain ⟨index', hindex', hroot⟩ := List.mem_map.mp hmem
  obtain ⟨⟨i, hi, rfl⟩, htable⟩ := mem_indexesFor.mp hindex
  obtain ⟨⟨i', hi', rfl⟩, htable'⟩ := mem_indexesFor.mp hindex'
  obtain rfl := List.inj_on_of_nodup_map (nodup_indexRoots hs) hi' hi hroot
  apply hne
  apply List.inj_on_of_nodup_map h.names.distinct hother he
  rw [h.names.named _ hother, h.names.named _ he, ← htable, ← htable']

theorem Coherent.congr {table : TableSchema} {indexes : List IndexSchema} {rows : List (Int × List Value)}
    {keys keys' : Nat → List (List Value)} (h : Coherent casefold table indexes rows keys)
    (hkeys : ∀ index ∈ indexes, keys' index.rootPage = keys index.rootPage) :
    Coherent casefold table indexes rows keys' := by
  refine ⟨h.widths, fun index hindex => ?_⟩
  rw [hkeys index hindex]
  exact h.indexed index hindex

/-- One table has new rows; the others stay. -/
theorem InStep.of_hasRows (h : InStep casefold catalog content) (hs : Stores header catalog.slots content s)
    (he : e ∈ catalog.tables) {rows : List (Int × List Value)}
    (hrows : HasRows casefold header catalog.slots e.2 (catalog.indexesFor casefold e.2.name) content rows s')
    (hnan : ∀ row ∈ rows, NoNan row.2) (hint : RowidsInt64 rows) :
    ∃ content', Stores header catalog.slots content' s' ∧ InStep casefold catalog content' ∧
      content'.rows = Function.update content.rows e.2.rootPage rows := by
  obtain ⟨keys, hs', hc, hframe⟩ := hrows
  have hother : ∀ other ∈ catalog.tables, other ≠ e → other.2.rootPage ≠ e.2.rootPage :=
    fun other hother hne hroot => hne (List.inj_on_of_nodup_map (nodup_tableRoots hs) hother he hroot)
  refine ⟨_, hs', ⟨h.names, fun t ht => ?_, fun t ht => ?_, fun t ht => ?_⟩, rfl⟩
  · by_cases heq : t = e
    · subst heq
      simpa using hc
    · simp only [Function.update_of_ne (hother t ht heq)]
      apply (h.coherent t ht).congr
      exact fun index hindex => hframe _ (h.root_notMem hs he ht heq hindex)
  · by_cases heq : t = e
    · subst heq
      simpa using hnan
    · simp only [Function.update_of_ne (hother t ht heq)]
      exact h.noNan t ht
  · by_cases heq : t = e
    · subst heq
      simpa using hint
    · simp only [Function.update_of_ne (hother t ht heq)]
      exact h.int64 t ht

/-- What goes into an index is a value of the row. -/
theorem nanFree_of_noNan {table : TableSchema} {indexes : List IndexSchema} {values : List Value}
    (h : NoNan values) : NanFree casefold table indexes values := by
  intro index _ key hkey v hv
  obtain ⟨positions, -, hpick⟩ := bind_eq_ok hkey
  obtain ⟨i, -, hi⟩ := exists_left (mapM_ok hpick) hv
  apply h v
  split at hi
  · rename_i value hvalue
    rw [← Except.ok.inj hi]
    exact List.mem_of_getElem? hvalue
  · cases hi

end InStep

/-! ## Statements on rows -/

section Requests

variable (casefold : String → String) (ops : FloatOps) (catalog : Catalog)

/-- The statement stores no NaN. -/
def Request.Clean (request : Request) (s : PageStore) : Prop :=
  match request.statement with
  | .insert statement => ∀ bound, Binder.bind request.parameters
      (Binder.bindInsert ops (catalog.getTable casefold) request.parameters statement) = .ok bound →
        NoNan bound.values
  | .update statement => ∀ bound, Binder.bind request.parameters
      (Binder.bindUpdate casefold (catalog.getTable casefold) request.parameters statement) = .ok bound →
        ∀ found, (scanMatchingRows ops bound.table bound.condition s).1 = .ok found → ∀ row ∈ found, ∀ newValues,
          assignedRow ops row.2 bound.assignments row.2 = .ok newValues → NoNan newValues
  | .delete _ => True

/-- An INSERT puts its row under a rowid in the int64 range. -/
def Request.InRange (request : Request) (s : PageStore) : Prop :=
  match request.statement with
  | .insert statement => ∀ bound, Binder.bind request.parameters
      (Binder.bindInsert ops (catalog.getTable casefold) request.parameters statement) = .ok bound →
        RowidsFit bound.table.rootPage 1 s
  | _ => True

instance (request : Request) (s : PageStore) : Decidable (request.InRange casefold ops catalog s) :=
  match request with
  | ⟨.insert statement, parameters⟩ => inferInstanceAs (Decidable (∀ bound, Binder.bind parameters
      (Binder.bindInsert ops (catalog.getTable casefold) parameters statement) = .ok bound →
        RowidsFit bound.table.rootPage 1 s))
  | ⟨.update _, _⟩ => .isTrue trivial
  | ⟨.delete _, _⟩ => .isTrue trivial

instance (request : Request) (s : PageStore) : Decidable (request.Clean casefold ops catalog s) :=
  match request with
  | ⟨.insert statement, parameters⟩ => inferInstanceAs (Decidable (∀ bound, Binder.bind parameters
      (Binder.bindInsert ops (catalog.getTable casefold) parameters statement) = .ok bound → NoNan bound.values))
  | ⟨.update statement, parameters⟩ => inferInstanceAs (Decidable (∀ bound, Binder.bind parameters
      (Binder.bindUpdate casefold (catalog.getTable casefold) parameters statement) = .ok bound →
        ∀ found, (scanMatchingRows ops bound.table bound.condition s).1 = .ok found → ∀ row ∈ found, ∀ newValues,
          assignedRow ops row.2 bound.assignments row.2 = .ok newValues → NoNan newValues))
  | ⟨.delete _, _⟩ => .isTrue trivial

/-- What a statement that succeeds makes of the rows of its table: an INSERT adds one that
no UNIQUE index rejects, an UPDATE assigns those that WHERE is TRUE of, a DELETE drops
them. -/
def Request.Makes (request : Request) (table : TableSchema) (rows rows' : List (Int × List Value)) : Prop :=
  match request.statement with
  | .insert statement => ∃ bound, Binder.bind request.parameters
      (Binder.bindInsert ops (catalog.getTable casefold) request.parameters statement) = .ok bound ∧
        bound.table = table ∧ ¬ Rejected casefold table (catalog.indexesFor casefold table.name) rows bound.values ∧
          rows' = rows ++ [(nextRowidOf rows, bound.values)]
  | .update statement => ∃ bound, Binder.bind request.parameters
      (Binder.bindUpdate casefold (catalog.getTable casefold) request.parameters statement) = .ok bound ∧
        bound.table = table ∧ (∀ row ∈ rows, ∃ pass, conditionPasses ops bound.condition row.2 = .ok pass) ∧
          (∀ row ∈ rows, passesWhere ops bound.condition row = true →
            ∃ values, assignedRow ops row.2 bound.assignments row.2 = .ok values) ∧
          (∀ front row rest, rows.filter (passesWhere ops bound.condition) = front ++ row :: rest →
            ¬ RejectedAfter casefold ops (catalog.indexesFor casefold table.name) bound rows front row) ∧
          rows' = rows.map fun row => if passesWhere ops bound.condition row
            then updatedRow ops bound.assignments row else row
  | .delete statement => ∃ bound, Binder.bind request.parameters
      (Binder.bindDelete casefold (catalog.getTable casefold) request.parameters statement) = .ok bound ∧
        bound.table = table ∧ (∀ row ∈ rows, ∃ pass, conditionPasses ops bound.condition row.2 = .ok pass) ∧
          rows' = rows.filter fun row => !passesWhere ops bound.condition row

variable {casefold ops catalog} {content : Content} {header : PageContent} {s : PageStore}

/-- One statement. -/
theorem Request.run_inStep {request : Request} (hs : Stores header catalog.slots content s)
    (h : InStep casefold catalog content) (hclean : request.Clean casefold ops catalog s)
    (hrange : request.InRange casefold ops catalog s) :
    Post (request.run casefold ops catalog) s
      (fun _ s' => ∃ e ∈ catalog.tables, ∃ rows content',
        request.Makes casefold ops catalog e.2 (content.rows e.2.rootPage) rows ∧
          content'.rows = Function.update content.rows e.2.rootPage rows ∧
            Stores header catalog.slots content' s' ∧ InStep casefold catalog content')
      fun _ _ => True := by
  obtain ⟨statement, parameters⟩ := request
  cases statement with
  | insert statement =>
      rw [Request.run, post_bind, post_lift]
      refine ⟨fun bound hbind => ?_, fun _ _ => trivial⟩
      have hnan := hclean bound hbind
      obtain ⟨consumed, hbound⟩ := bind_ok hbind
      obtain ⟨htable, hvalues⟩ := bindInsert_ok hbound
      obtain ⟨e, he, hetable⟩ := mem_tables htable
      have hp := planted casefold hs he
      have hrows := HasRows.start hs (h.coherent e he)
      rw [hetable] at hp hrows
      apply (insertRow_spec hp hrows hvalues.length_eq.symm (nanFree_of_noNan hnan)).mono ?_
        fun _ _ _ => trivial
      rintro _ s' ⟨hrejected, hs'⟩
      rw [← hetable] at hs' hrejected
      have hleft : RowidsLeft 1 (content.rows e.2.rootPage) :=
        (hetable ▸ hrange bound hbind).rowidsLeft hs (table_mem_slots he) (h.int64 e he)
      obtain ⟨content', hs', hstep, hrows'⟩ := h.of_hasRows hs he hs' (fun row hrow => by
        rcases List.mem_append.mp hrow with hrow | hrow
        · exact h.noNan e he row hrow
        · rw [List.mem_singleton.mp hrow]
          exact hnan) (hleft.concat bound.values).int64
      exact ⟨e, he, _, content', ⟨bound, hbind, hetable.symm, hrejected, rfl⟩, hrows', hs', hstep⟩
  | update statement =>
      rw [Request.run, post_bind, post_lift]
      refine ⟨fun bound hbind => ?_, fun _ _ => trivial⟩
      have hnew := hclean bound hbind
      obtain ⟨consumed, hbound⟩ := bind_ok hbind
      obtain ⟨e, he, hetable⟩ := mem_tables (bindUpdate_ok hbound)
      have hp := planted casefold hs he
      have hrows := HasRows.start hs (h.coherent e he)
      have hold := h.noNan e he
      rw [hetable] at hp hrows hold
      rw [post_bind]
      cases hrun : scanMatchingRows ops bound.table bound.condition s with
      | mk result s₁ =>
          have hscan := scanMatchingRows_spec ops bound.condition hs hp.tableAt
          cases result with
          | error e =>
              rw [updateRows, post_bind, Post, hrun]
              trivial
          | ok found =>
              obtain ⟨-, -, rfl⟩ := hscan.ok hrun
              have hnan : ∀ row ∈ content.rows bound.table.rootPage, passesWhere ops bound.condition row = true →
                  ∀ newValues, assignedRow ops row.2 bound.assignments row.2 = .ok newValues → NoNan newValues :=
                fun row hrow hpass => hnew _ (congrArg Prod.fst hrun) row (List.mem_filter.mpr ⟨hrow, hpass⟩)
              apply (updateRows_spec hp hrows fun row hrow hpass newValues hassigned =>
                nanFree_of_noNan (hnan row hrow hpass newValues hassigned)).mono ?_ fun _ _ _ => trivial
              rintro _ s' ⟨-, htold, hs', hall, hpassed⟩
              rw [← hetable] at hs' htold hall hpassed
              have hrowids : RowidsInt64 ((content.rows e.2.rootPage).map fun row =>
                  if passesWhere ops bound.condition row then updatedRow ops bound.assignments row else row) := by
                intro row' hrow'
                obtain ⟨row, hrow, rfl⟩ := List.mem_map.mp hrow'
                split
                · rw [updatedRow_rowid]
                  exact h.int64 e he row hrow
                · exact h.int64 e he row hrow
              obtain ⟨content', hs', hstep, hrows'⟩ := h.of_hasRows hs he hs' (fun row' hrow' => by
                obtain ⟨row, hrow, rfl⟩ := List.mem_map.mp hrow'
                have hmem : row ∈ content.rows bound.table.rootPage := hetable ▸ hrow
                split
                · rename_i hpass
                  obtain ⟨values, hassigned⟩ := hall row hrow hpass
                  rw [updatedRow_of_ok hassigned]
                  exact hnan row hmem hpass values hassigned
                · exact hold row hmem) hrowids
              exact ⟨e, he, _, content', ⟨bound, hbind, hetable.symm, htold, hall, hpassed, rfl⟩, hrows', hs', hstep⟩
  | delete statement =>
      rw [Request.run, post_bind, post_lift]
      refine ⟨fun bound hbind => ?_, fun _ _ => trivial⟩
      obtain ⟨consumed, hbound⟩ := bind_ok hbind
      obtain ⟨e, he, hetable⟩ := mem_tables (bindDelete_ok hbound)
      have hp := planted casefold hs he
      have hrows := HasRows.start hs (h.coherent e he)
      rw [hetable] at hp hrows
      rw [post_bind]
      refine Post.mono (deleteRows_spec hp hrows) ?_ fun _ _ _ => trivial
      rintro _ s' ⟨-, htold, hs'⟩
      rw [← hetable] at hs' htold
      obtain ⟨content', hs', hstep, hrows'⟩ := h.of_hasRows hs he hs'
        (fun row hrow => h.noNan e he row (List.mem_filter.mp hrow).1)
        fun row hrow => h.int64 e he row (List.mem_filter.mp hrow).1
      exact ⟨e, he, _, content', ⟨bound, hbind, hetable.symm, htold, rfl⟩, hrows', hs', hstep⟩

end Requests

end QuillDb
