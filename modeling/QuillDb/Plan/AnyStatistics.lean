/-
  Plan/AnyStatistics.lean --- planning with whatever `quill_stat1` holds.

  Source: `quilldb/plan/analyze.py`, `quilldb/plan/statistics.py`, `quilldb/plan/search.py`.

  The project means a row of `quill_stat1` that makes no sense to raise
  CorruptDatabaseError.  `parse_stat1` does so; the text of a table goes to `int` as it
  is, and a first average of zero becomes a divisor.
-/
import QuillDb.Plan.Platform
import QuillDb.Sql.TokenizerSound

set_option autoImplicit false

namespace QuillDb

open Fallible

/-! ## What ANALYZE measures -/

section Measured

variable {listEq : List Value → List Value → Bool}

theorem length_le_sum_runLengths (current : List Value) {length : Nat} (hpos : 0 < length)
    (keys : List (List Value)) :
    0 < (runLengths listEq current length keys).length ∧
      (runLengths listEq current length keys).length ≤ (runLengths listEq current length keys).sum := by
  induction keys generalizing current length with
  | nil => simp [runLengths, Nat.succ_le_iff, hpos]
  | cons key keys ih =>
      rw [runLengths]
      split
      · exact ih current (Nat.succ_pos length)
      · have hrest := (ih key Nat.one_pos).2
        simp only [List.length_cons, List.sum_cons]
        omega

/-- An average is one at least. -/
theorem one_le_of_mem_rowsPerPrefix {leafKeys : List (List Value)} {keyColumns n : Nat}
    (h : n ∈ rowsPerPrefix listEq leafKeys keyColumns) : 1 ≤ n := by
  cases leafKeys with
  | nil =>
      rw [rowsPerPrefix, List.mem_replicate] at h
      omega
  | cons first rest =>
      simp only [rowsPerPrefix, List.mem_map] at h
      obtain ⟨p, -, rfl⟩ := h
      obtain ⟨hpos, hle⟩ := @length_le_sum_runLengths listEq (first.take (p + 1)) 1 Nat.one_pos
        (rest.map fun key => key.take (p + 1))
      exact (Nat.one_le_div_iff hpos).mpr hle

theorem length_rowsPerPrefix (leafKeys : List (List Value)) (keyColumns : Nat) :
    (rowsPerPrefix listEq leafKeys keyColumns).length = keyColumns := by
  cases leafKeys <;> simp [rowsPerPrefix]

/-- What `measure_index` returns: an average for each prefix, one at least. -/
theorem measureIndex_shape {root keyColumns : Nat} {s s' : PageStore} {stats : IndexStats}
    (h : measureIndex listEq root keyColumns s = (.ok stats, s')) :
    stats.rowsPerPrefix.length = keyColumns ∧ ∀ n ∈ stats.rowsPerPrefix, 1 ≤ n := by
  rw [measureIndex] at h
  obtain ⟨_, _, -, h⟩ := Prog.exists_of_bind_ok h
  obtain ⟨⟨leafKeys, leafPages, height⟩, _, -, h⟩ := Prog.exists_of_bind_ok h
  cases h
  exact ⟨length_rowsPerPrefix .., fun n hn => one_le_of_mem_rowsPerPrefix hn⟩

end Measured

namespace Planner

section Reading

variable (py : PyText) (catalog : Catalog) (rows : List (List Value))

/-- A table as the catalog holds it: its indexes name it, and name columns of its. -/
structure Catalogued (table : TableSchema) : Prop where
  getTable : catalog.getTable py.casefold table.name = .ok table
  owner : ∀ index ∈ catalog.indexesFor py.casefold table.name, index.table = table.name
  sound : SoundIndexes py.casefold table (catalog.indexesFor py.casefold table.name)

/-- No count that the planner reads for a table is beyond `size`. -/
structure CountsWithin (size : Nat) (table : TableSchema) : Prop where
  rowCount : ∀ figures, tableStats py catalog rows table.name = .ok figures → figures.rowCount.natAbs ≤ size
  averages : ∀ index ∈ catalog.indexesFor py.casefold table.name, ∀ figures,
    indexStats py catalog rows index = .ok figures → ∀ average ∈ figures.rowsPerPrefix, average.natAbs ≤ size

/-- Tables of the catalog in a chain of joins, with counts and row estimates in the range
of the floats. -/
structure Plannable (ops : CostOps) (scopes : List TableScope) (joins : List BoundJoin)
    (condition : Option BoundExpression) : Prop where
  typed : ∀ values ∈ rows, RowTyped stat1Columns values
  tables : ∀ scope ∈ scopes, Catalogued py catalog scope.table
  chain : joins.length + 1 = scopes.length
  counts : ∃ size, 1 ≤ size ∧ size ≤ estimateLimit ∧
    ∀ scope ∈ scopes, CountsWithin py catalog rows size scope.table
  estimates : EstimatesWithin ops py.casefold catalog (statisticsCatalog py catalog rows) scopes joins condition

/-- The rows of a table and its indexes are as ANALYZE writes them. -/
structure Analyzed (listEq : List Value → List Value → Bool) (table : TableSchema) : Prop where
  decodes : ∀ tbl idx, ∃ found, findStat1Row tbl idx rows = .ok found
  tableRow : ∀ row, findStat1Row table.name none rows = .ok (some row) →
    ∃ s s' stats, measureTable table.rootPage s = (.ok stats, s') ∧
      stats.rowCount < 10 ^ PyText.intMaxStrDigits ∧ row.stat = toString stats.rowCount
  indexRow : ∀ index ∈ catalog.indexesFor py.casefold table.name, ∀ row,
    findStat1Row index.table (some index.name) rows = .ok (some row) →
      ∃ s s' stats, measureIndex listEq index.rootPage index.columns.length s = (.ok stats, s') ∧
        (∀ n ∈ stats.rowCount :: stats.rowsPerPrefix, n < 10 ^ PyText.intMaxStrDigits) ∧
        row.stat = encodeStat1Row stats

/-- The first average of an index is zero in its row. -/
def ZeroAverage (index : IndexSchema) : Prop :=
  ∃ row rowCount averages, findStat1Row index.table (some index.name) rows = .ok (some row) ∧
    parseStat1 py row.stat index = .ok (rowCount, 0 :: averages)

/-- The text of its table, which stands in for an index without a row, is no integer. -/
def NoInteger (index : IndexSchema) : Prop :=
  findStat1Row index.table (some index.name) rows = .ok none ∧ ¬ IntegerText py rows index.table

/-- What the planner cannot read and does not report as corrupt. -/
def StatRead.Bad : StatRead → Prop
  | .tableFigures name => ¬ IntegerText py rows name
  | .indexFigures index => NoInteger py rows index
  | .firstAverage index => NoInteger py rows index ∨ ZeroAverage py rows index

/-- What the planner reports as corrupt. -/
def StatRead.Corrupt (read : StatRead) : Prop :=
  ∃ e, IsCorrupt e ∧ read.check (statisticsCatalog py catalog rows) = .error e

/-- Whatever is bad is read behind something corrupt. -/
def BadAfterCorrupt (reads : List StatRead) : Prop :=
  ∀ before read after, reads = before ++ read :: after → read.Bad py rows →
    ∃ earlier ∈ before, earlier.Corrupt py catalog rows

/-- A read of a table of the catalog. -/
def StatRead.Of (table : TableSchema) : StatRead → Prop
  | .tableFigures name => name = table.name
  | .indexFigures index | .firstAverage index => index ∈ catalog.indexesFor py.casefold table.name

end Reading

section Reads

variable {py : PyText} {catalog : Catalog} {rows : List (List Value)} {table : TableSchema}

theorem indexStats_fails (hrows : ∀ values ∈ rows, RowTyped stat1Columns values)
    (htable : Catalogued py catalog table) {index : IndexSchema}
    (hindex : index ∈ catalog.indexesFor py.casefold table.name) :
    ¬ Fails IsCorrupt (indexStats py catalog rows index) ↔ NoInteger py rows index := by
  have hname : catalog.getTable py.casefold index.table = .ok table := by
    rw [htable.owner index hindex]
    exact htable.getTable
  rw [indexStats_fails_iff hrows hname, Classical.not_imp, NoInteger]

/-- A first average that is read as zero stands in the row. -/
theorem zeroCheck_fails {index : IndexSchema} :
    (∃ figures, indexStats py catalog rows index = .ok figures ∧ ¬ Fails IsCorrupt (zeroCheck figures)) ↔
      ZeroAverage py rows index := by
  have hzero : ∀ figures : IndexStats,
      ¬ Fails IsCorrupt (zeroCheck figures) ↔ figures.rowsPerPrefix.head? = some 0 := by
    intro figures
    rw [zeroCheck]
    split
    · rename_i hhead
      simp [Fails.error_iff, IsCorrupt, hhead]
    · rename_i hhead
      simp [Fails.ok, hhead]
  simp only [hzero]
  constructor
  · rintro ⟨figures, hfigures, hhead⟩
    cases hfound : findStat1Row index.table (some index.name) rows with
    | error e =>
        rw [indexStats, hfound] at hfigures
        cases hfigures
    | ok found =>
        cases found with
        | none =>
            rw [indexStats_none hfound] at hfigures
            obtain ⟨tableStats, -, h⟩ := bind_eq_ok hfigures
            cases h
            rw [defaultIndexStats, List.head?_replicate] at hhead
            split at hhead <;> simp [defaultRowsPerValue] at hhead
        | some row =>
            rw [indexStats_some hfound] at hfigures
            obtain ⟨⟨rowCount, averages⟩, hparse, h⟩ := bind_eq_ok hfigures
            cases h
            obtain ⟨rest, rfl⟩ := List.head?_eq_some_iff.mp hhead
            exact ⟨row, rowCount, rest, hfound, hparse⟩
  · rintro ⟨row, rowCount, averages, hfound, hparse⟩
    refine ⟨⟨rowCount, 0 :: averages, row.height, row.pageCount⟩, ?_, rfl⟩
    rw [indexStats_some hfound, hparse]
    rfl

/-- A read raises something else than corruption exactly when it is bad. -/
theorem StatRead.bad_iff (hrows : ∀ values ∈ rows, RowTyped stat1Columns values)
    (htable : Catalogued py catalog table) {read : StatRead} (hread : read.Of py catalog table) :
    ¬ Fails IsCorrupt (read.check (statisticsCatalog py catalog rows)) ↔ read.Bad py rows := by
  cases read with
  | tableFigures name =>
      rw [StatRead.Of] at hread
      subst hread
      rw [StatRead.check, Fails.map_iff, StatRead.Bad, ← tableStats_fails_iff hrows htable.getTable]
      rfl
  | indexFigures index =>
      rw [StatRead.check, Fails.map_iff, StatRead.Bad, ← indexStats_fails hrows htable hread]
      rfl
  | firstAverage index =>
      rw [StatRead.check, Fails.bind_iff, StatRead.Bad, ← indexStats_fails hrows htable hread,
        ← @zeroCheck_fails py catalog rows index, not_and_or]
      simp only [not_forall, exists_prop]
      rfl

/-- The reads of a plan raise nothing but corruption exactly when what is bad comes late. -/
theorem fails_readAll_iff (hrows : ∀ values ∈ rows, RowTyped stat1Columns values) {reads : List StatRead}
    (hreads : ∀ read ∈ reads, ∃ table, Catalogued py catalog table ∧ read.Of py catalog table) :
    Fails IsCorrupt (readAll (statisticsCatalog py catalog rows) reads) ↔ BadAfterCorrupt py catalog rows reads := by
  rw [readAll, fails_inTurn_map_iff]
  have hbad : ∀ before read after, reads = before ++ read :: after →
      (¬ Fails IsCorrupt (read.check (statisticsCatalog py catalog rows)) ↔ read.Bad py rows) := by
    intro before read after hsplit
    obtain ⟨table, htable, hof⟩ := hreads read (by simp [hsplit])
    exact StatRead.bad_iff hrows htable hof
  constructor
  · intro h before read after hsplit hread
    exact h before read after hsplit ((hbad before read after hsplit).mpr hread)
  · intro h before read after hsplit hread
    exact h before read after hsplit ((hbad before read after hsplit).mp hread)

end Reads

/-! ## Any rows -/

section Plans

variable {py : PyText} {catalog : Catalog} {rows : List (List Value)}
variable {scopes : List TableScope} {joins : List BoundJoin}

theorem figureReads_of (table : TableSchema) :
    ∀ read ∈ figureReads py.casefold catalog table, read.Of py catalog table := by
  simp [figureReads, StatRead.Of]

theorem leadingReads_of {table : TableSchema} {column : String} :
    ∀ read ∈ leadingReads py.casefold catalog table column, read.Of py catalog table := by
  intro read hread
  rw [leadingReads, Option.mem_toList, Option.map_eq_some_iff] at hread
  obtain ⟨index, hlead, rfl⟩ := hread
  exact List.mem_of_find?_eq_some hlead

theorem keyReads_of {scope : TableScope} (hscope : scope ∈ scopes) (predicates : List (Object Predicate)) :
    ∀ read ∈ keyReads py.casefold catalog scopes scope.table predicates, ∃ scope ∈ scopes,
      read.Of py catalog scope.table := by
  intro read hread
  rw [keyReads] at hread
  split at hread
  · cases hread
  · rcases List.mem_append.mp hread with hread | hread
    · exact ⟨scope, hscope, leadingReads_of read hread⟩
    · obtain ⟨outer, houter, hread⟩ := List.mem_flatMap.mp hread
      exact ⟨outer, List.mem_of_getElem? (Option.mem_toList.mp houter), leadingReads_of read hread⟩

/-- Planning a join reads figures of its tables only. -/
theorem planReads_of {condition : Option BoundExpression} :
    ∀ read ∈ planReads py.casefold catalog scopes joins condition, ∃ scope ∈ scopes,
      read.Of py catalog scope.table := by
  intro read hread
  obtain ⟨order, -, hread⟩ := List.mem_flatMap.mp hread
  obtain ⟨step, -, hread⟩ := List.mem_flatMap.mp hread
  rw [stepReads] at hread
  split at hread
  · cases hread
  · rename_i scope hat
    have hscope := List.mem_of_getElem? hat
    rcases List.mem_append.mp hread with hread | hread
    · exact ⟨scope, hscope, figureReads_of scope.table read hread⟩
    · split at hread
      · cases hread
      · exact keyReads_of hscope _ read hread

/-- The figures of a table that is read are sound for the planner. -/
theorem soundScope (hrows : ∀ values ∈ rows, RowTyped stat1Columns values) {scope : TableScope}
    (htable : Catalogued py catalog scope.table) {size : Nat}
    (hcounts : CountsWithin py catalog rows size scope.table) :
    SoundScope py.casefold catalog (statisticsCatalog py catalog rows) size scope where
  moderate := {
    table := fun figures h => ⟨tableStats_shape hrows htable.getTable h, hcounts.rowCount figures h⟩
    index := by
      intro index hindex figures h
      obtain ⟨hshape, hlength⟩ := indexStats_shape hrows h
      exact ⟨hshape, hlength, hcounts.averages index hindex figures h⟩ }
  sound := htable.sound

/-- It is enough that a power of the counts is in range. -/
theorem Plannable.of_counts {ops : CostOps} (hops : ops.Converts)
    (htyped : ∀ values ∈ rows, RowTyped stat1Columns values)
    (htables : ∀ scope ∈ scopes, Catalogued py catalog scope.table) (hchain : joins.length + 1 = scopes.length)
    {size : Nat} (hone : 1 ≤ size) (hlimit : size ^ scopes.length ≤ estimateLimit)
    (hcounts : ∀ scope ∈ scopes, CountsWithin py catalog rows size scope.table)
    (condition : Option BoundExpression) : Plannable py catalog rows ops scopes joins condition where
  typed := htyped
  tables := htables
  chain := hchain
  counts := ⟨size, hone, (Nat.le_self_pow (by omega) size).trans hlimit, hcounts⟩
  estimates := estimatesWithin_of_counts hops hone hlimit
    (fun scope hscope => soundScope htyped (htables scope hscope) (hcounts scope hscope)) hchain condition

/-- No rows at all. -/
theorem analyzed_nil {listEq : List Value → List Value → Bool} {table : TableSchema} :
    Analyzed py catalog [] listEq table where
  decodes _ _ := ⟨none, rfl⟩
  tableRow _ h := by cases h
  indexRow _ _ _ h := by cases h

/-- With the rows of ANALYZE every read returns. -/
theorem StatRead.check_analyzed {listEq : List Value → List Value → Bool} {table : TableSchema}
    (htable : Catalogued py catalog table) (hanalyzed : Analyzed py catalog rows listEq table) {read : StatRead}
    (hread : read.Of py catalog table) : read.check (statisticsCatalog py catalog rows) = .ok () := by
  have htableStats : ∃ figures, tableStats py catalog rows table.name = .ok figures := by
    obtain ⟨found, hfound⟩ := hanalyzed.decodes table.name none
    cases found with
    | none => exact ⟨_, tableStats_none htable.getTable hfound⟩
    | some row =>
        obtain ⟨_, _, stats, -, hcount, hstat⟩ := hanalyzed.tableRow row hfound
        rw [tableStats_some htable.getTable hfound, hstat, PyText.parseInt_toString py hcount]
        exact ⟨_, rfl⟩
  have hindexStats : ∀ index ∈ catalog.indexesFor py.casefold table.name, ∃ figures,
      indexStats py catalog rows index = .ok figures ∧ zeroCheck figures = .ok () := by
    intro index hindex
    obtain ⟨found, hfound⟩ := hanalyzed.decodes index.table (some index.name)
    cases found with
    | none =>
        obtain ⟨figures, hfigures⟩ := htableStats
        rw [indexStats_none hfound, htable.owner index hindex, hfigures]
        refine ⟨_, rfl, ?_⟩
        rw [zeroCheck, defaultIndexStats, List.head?_replicate]
        split <;> simp [defaultRowsPerValue]
    | some row =>
        obtain ⟨_, _, stats, hmeasured, hcounts, hstat⟩ := hanalyzed.indexRow index hindex row hfound
        obtain ⟨hlength, hpos⟩ := measureIndex_shape hmeasured
        rw [indexStats_some hfound, hstat, parseStat1_encode py hlength hcounts]
        refine ⟨_, rfl, ?_⟩
        rw [zeroCheck, if_neg]
        intro hzero
        obtain ⟨rest, hrest⟩ := List.head?_eq_some_iff.mp hzero
        obtain ⟨n, hn, hcast⟩ := List.mem_map.mp (hrest ▸ List.mem_cons_self .. : (0 : Int) ∈ stats.rowsPerPrefix.map _)
        have hn := hpos n hn
        omega
  cases read with
  | tableFigures name =>
      obtain ⟨figures, hfigures⟩ := htableStats
      rw [StatRead.Of] at hread
      simp [StatRead.check, statisticsCatalog, hread, hfigures, Functor.map, Except.map]
  | indexFigures index =>
      obtain ⟨figures, hfigures, -⟩ := hindexStats index hread
      simp [StatRead.check, statisticsCatalog, hfigures, Functor.map, Except.map]
  | firstAverage index =>
      obtain ⟨figures, hfigures, hzero⟩ := hindexStats index hread
      simp [StatRead.check, statisticsCatalog, hfigures, bind, Except.bind, hzero]

/-- Planning raises nothing but corruption exactly when each bad figure is read behind a
corrupt one; with the rows of ANALYZE, or none, it returns; a seek is charged. -/
theorem planning_any_statistics {ops : CostOps} (hops : ops.Converts) {condition : Option BoundExpression}
    (hplan : Plannable py catalog rows ops scopes joins condition) (orderBy : List SortKey) :
    (Fails IsCorrupt (planJoin ops py.casefold catalog (statisticsCatalog py catalog rows) scopes joins condition
        orderBy) ↔
      BadAfterCorrupt py catalog rows (planReads py.casefold catalog scopes joins condition)) ∧
    (∀ scope ∈ scopes,
      Fails IsCorrupt (singleTablePath ops py.casefold catalog (statisticsCatalog py catalog rows) scope.table
          condition orderBy) ↔
        BadAfterCorrupt py catalog rows (figureReads py.casefold catalog scope.table)) ∧
    ((rows = [] ∨ ∃ listEq, ∀ scope ∈ scopes, Analyzed py catalog rows listEq scope.table) →
      (∃ candidate, planJoin ops py.casefold catalog (statisticsCatalog py catalog rows) scopes joins condition
          orderBy = .ok candidate) ∧
        ∀ scope ∈ scopes, ∃ path, singleTablePath ops py.casefold catalog (statisticsCatalog py catalog rows)
          scope.table condition orderBy = .ok path) ∧
    ∀ scope ∈ scopes, ∀ predicates tableOrdinal figures costed,
      tableStats py catalog rows scope.table.name = .ok figures →
      costedPaths ops py.casefold catalog (statisticsCatalog py catalog rows) scope.table predicates figures
        tableOrdinal = .ok costed → ∀ path ∈ costed, Charged path := by
  obtain ⟨size, hone, hsize, hcounts⟩ := hplan.counts
  have hsound : ∀ scope ∈ scopes, SoundScope py.casefold catalog (statisticsCatalog py catalog rows) size scope :=
    fun scope hscope => soundScope hplan.typed (hplan.tables scope hscope) (hcounts scope hscope)
  have hjoin := planJoin_sameErrors hops hone hsize hsound hplan.chain hplan.estimates orderBy
  have hsingle := fun scope hscope => singleTablePath_sameErrors hops hone hsize (hsound scope hscope) condition
    orderBy
  have hfigures : ∀ scope ∈ scopes, ∀ read ∈ figureReads py.casefold catalog scope.table,
      read.Of py catalog scope.table := fun scope _ => figureReads_of scope.table
  refine ⟨?_, ?_, ?_, ?_⟩
  · rw [hjoin.fails_iff]
    apply fails_readAll_iff hplan.typed
    intro read hread
    obtain ⟨scope, hscope, hof⟩ := planReads_of read hread
    exact ⟨scope.table, hplan.tables scope hscope, hof⟩
  · intro scope hscope
    rw [(hsingle scope hscope).fails_iff]
    apply fails_readAll_iff hplan.typed
    exact fun read hread => ⟨scope.table, hplan.tables scope hscope, hfigures scope hscope read hread⟩
  · intro hwritten
    obtain ⟨listEq, hanalyzed⟩ : ∃ listEq, ∀ scope ∈ scopes, Analyzed py catalog rows listEq scope.table := by
      rcases hwritten with rfl | hanalyzed
      · exact ⟨fun _ _ => true, fun scope _ => analyzed_nil⟩
      · exact hanalyzed
    have hcheck : ∀ scope ∈ scopes, ∀ read : StatRead, read.Of py catalog scope.table →
        read.check (statisticsCatalog py catalog rows) = .ok () :=
      fun scope hscope read hof => StatRead.check_analyzed (hplan.tables scope hscope) (hanalyzed scope hscope) hof
    constructor
    · apply hjoin.symm.ok
      apply readAll_ok
      intro read hread
      obtain ⟨scope, hscope, hof⟩ := planReads_of read hread
      exact hcheck scope hscope read hof
    · intro scope hscope
      apply (hsingle scope hscope).symm.ok
      apply readAll_ok
      exact fun read hread => hcheck scope hscope read (hfigures scope hscope read hread)
  · intro scope hscope predicates tableOrdinal figures costed htable hcosted path hpath
    have hscope' := hsound scope hscope
    obtain ⟨-, hranges⟩ := costedPaths_sound hops hone hsize hscope'.moderate htable hscope'.sound
    obtain ⟨-, hrange⟩ := hranges costed hcosted
    obtain ⟨path', hinRange⟩ := hrange path hpath
    exact hinRange.charged

end Plans

/-! ## A chain of two tables -/

/-- Text as Python reads it, for names in lower case. -/
def lowerText : PyText := { Tokenizer.latin1 with casefold := id }

def usersTable : TableSchema := ⟨"u", [⟨"id", .integer⟩], 3, ""⟩

def ordersTable : TableSchema := ⟨"o", [⟨"user_id", .integer⟩], 4, ""⟩

def ordersByUser : IndexSchema := ⟨"o_user", "o", ["user_id"], false, 5, ""⟩

def shop : Catalog where
  tables := [("u", usersTable), ("o", ordersTable)]
  indexes := [("o_user", ordersByUser)]

def shopScopes : List TableScope := [⟨0, "u", usersTable⟩, ⟨1, "o", ordersTable⟩]

/-- `u JOIN o ON o.user_id = u.id`. -/
def ordersOfUsers : List BoundJoin :=
  [⟨.inner, 1, some (.binaryOp (.column ⟨0, "user_id", .integer, 1⟩) .eq (.column ⟨0, "id", .integer, 0⟩))⟩]

theorem shop_catalogued : ∀ scope ∈ shopScopes, Catalogued lowerText shop scope.table := by
  have hindexes : shop.indexesFor lowerText.casefold "u" = [] ∧
      shop.indexesFor lowerText.casefold "o" = [ordersByUser] := by
    decide
  simp only [shopScopes, List.forall_mem_cons, List.not_mem_nil, false_implies, implies_true, and_true]
  constructor
  · refine ⟨rfl, ?_, ?_⟩ <;> simp [SoundIndexes, usersTable, hindexes]
  · refine ⟨rfl, ?_, ?_⟩
    · simp [ordersTable, hindexes, ordersByUser]
    · simp only [SoundIndexes, ordersTable, hindexes, List.forall_mem_singleton]
      refine ⟨by simp [ordersByUser], ?_⟩
      simp only [ordersByUser, List.forall_mem_singleton]
      exact ⟨0, rfl⟩

theorem million_squared_le : 1000000 ^ 2 ≤ estimateLimit := by
  calc 1000000 ^ 2 ≤ (2 ^ 20) ^ 2 := by decide
    _ = 2 ^ 40 := by rw [← Nat.pow_mul]
    _ ≤ 2 ^ 960 := Nat.pow_le_pow_right (by decide) (by decide)

/-- Figures of the shop with counts up to a million. -/
theorem shop_plannable {rows : List (List Value)} (hrows : ∀ values ∈ rows, RowTyped stat1Columns values)
    {figures : IndexStats} (htable : ∀ scope ∈ shopScopes, ∀ figures,
      tableStats lowerText shop rows scope.table.name = .ok figures → figures = defaultTableStats)
    (hindex : indexStats lowerText shop rows ordersByUser = .ok figures)
    (hsmall : ∀ average ∈ figures.rowsPerPrefix, average.natAbs ≤ 1000000) :
    Plannable lowerText shop rows roundingFloats shopScopes ordersOfUsers none := by
  refine .of_counts roundingFloats_converts hrows shop_catalogued rfl (by decide) million_squared_le ?_ none
  intro scope hscope
  constructor
  · intro figures h
    obtain rfl := htable scope hscope figures h
    decide
  · intro index hmem figures' h
    have honly : index = ordersByUser := by
      have hall := (List.mem_filter.mp hmem).1
      simpa [shop] using hall
    rw [honly, hindex] at h
    cases h
    exact hsmall

/-- A row of an index with a first average of zero. -/
def zeroAverageRows : List (List Value) := [[.text "o", .text "o_user", .text "10 0", .int 1, .int 1]]

/-- A row of a table with a text that is no number. -/
def wordRows : List (List Value) := [[.text "u", .null, .text "ten", .int 1, .int 1]]

theorem storedRows_typed : ∀ values ∈ zeroAverageRows ++ wordRows, RowTyped stat1Columns values := by
  have hone : fitsInt64 1 = true := by decide
  simp [zeroAverageRows, wordRows, RowTyped, stat1Columns, stat1Table, DataType.Admits, hone]

/-- Stored figures that are no corruption to the planner: an average of zero, and a count
that is no number. -/
theorem planning_raises_on_stored_rows :
    (∀ values ∈ zeroAverageRows ++ wordRows, RowTyped stat1Columns values) ∧
    planJoin roundingFloats lowerText.casefold shop (statisticsCatalog lowerText shop zeroAverageRows) shopScopes
      ordersOfUsers none [] = .error (.zeroDivision "integer division or modulo by zero") ∧
    singleTablePath roundingFloats lowerText.casefold shop (statisticsCatalog lowerText shop wordRows) usersTable
      none [] = .error (.valueError "invalid literal for int() with base 10") := by
  refine ⟨storedRows_typed, ?_, ?_⟩
  · have hrows : ∀ values ∈ zeroAverageRows, RowTyped stat1Columns values :=
      fun values hvalues => storedRows_typed values (List.mem_append_left _ hvalues)
    have htable : ∀ scope ∈ shopScopes, ∀ figures,
        tableStats lowerText shop zeroAverageRows scope.table.name = .ok figures → figures = defaultTableStats := by
      simp only [shopScopes, List.forall_mem_cons, List.not_mem_nil, false_implies, implies_true, and_true]
      exact ⟨fun _ h => (Except.ok.inj h).symm, fun _ h => (Except.ok.inj h).symm⟩
    have hindex : indexStats lowerText shop zeroAverageRows ordersByUser = .ok ⟨10, [0], 1, 1⟩ := rfl
    have hplan := shop_plannable hrows htable hindex (by decide)
    obtain ⟨size, hone, hsize, hcounts⟩ := hplan.counts
    have hsound : ∀ scope ∈ shopScopes, SoundScope lowerText.casefold shop
        (statisticsCatalog lowerText shop zeroAverageRows) size scope :=
      fun scope hscope => soundScope hrows (shop_catalogued scope hscope) (hcounts scope hscope)
    have hreads : planReads lowerText.casefold shop shopScopes ordersOfUsers none =
        [.tableFigures "u", .tableFigures "o", .indexFigures ordersByUser, .firstAverage ordersByUser,
          .tableFigures "o", .indexFigures ordersByUser, .tableFigures "u", .firstAverage ordersByUser] := by
      decide
    apply (planJoin_sameErrors roundingFloats_converts hone hsize hsound rfl hplan.estimates [] _).mpr
    rw [hreads]
    rfl
  · have hstats : tableStats lowerText shop wordRows "u" =
        .error (.valueError "invalid literal for int() with base 10") := rfl
    simp [singleTablePath, statisticsCatalog, usersTable, hstats, bind, Except.bind]

/-- A first average of zero, and behind it a row without a table. -/
def brokenRows : List (List Value) := zeroAverageRows ++ [[.null, .null, .text "1", .int 1, .int 1]]

theorem brokenRows_typed : ∀ values ∈ brokenRows, RowTyped stat1Columns values := by
  have hone : fitsInt64 1 = true := by decide
  simp [brokenRows, zeroAverageRows, RowTyped, stat1Columns, stat1Table, DataType.Admits, hone]

/-- The figures of a table are looked for past the row without one. -/
theorem tableStats_broken {scope : TableScope} (hscope : scope ∈ shopScopes) :
    tableStats lowerText shop brokenRows scope.table.name =
      .error (.corruptDatabase "quill_stat1 row is malformed") := by
  simp only [shopScopes, List.mem_cons, List.not_mem_nil, or_false] at hscope
  rcases hscope with rfl | rfl <;> rfl

theorem brokenRows_plannable :
    Plannable lowerText shop brokenRows roundingFloats shopScopes ordersOfUsers none := by
  have hindex : indexStats lowerText shop brokenRows ordersByUser = .ok ⟨10, [0], 1, 1⟩ := rfl
  refine shop_plannable brokenRows_typed (fun scope hscope figures h => ?_) hindex (by decide)
  rw [tableStats_broken hscope] at h
  cases h

/-- The average of zero is read only when the figures of the users have raised. -/
theorem planning_any_statistics_shop :
    Fails IsCorrupt (planJoin roundingFloats lowerText.casefold shop
      (statisticsCatalog lowerText shop brokenRows) shopScopes ordersOfUsers none []) := by
  refine (planning_any_statistics roundingFloats_converts brokenRows_plannable []).1.mpr ?_
  have hreads : planReads lowerText.casefold shop shopScopes ordersOfUsers none =
      .tableFigures "u" :: [.tableFigures "o", .indexFigures ordersByUser, .firstAverage ordersByUser,
        .tableFigures "o", .indexFigures ordersByUser, .tableFigures "u", .firstAverage ordersByUser] := by
    decide
  intro before read after hsplit hbad
  rw [hreads] at hsplit
  cases before with
  | nil =>
      -- the first read raises corruption, which is not bad
      obtain rfl := (List.cons.inj hsplit).1
      exact absurd (fun row (h : Except.error _ = _) => by cases h) hbad
  | cons first before =>
      obtain rfl := (List.cons.inj hsplit).1
      have husers : shopScopes[0] ∈ shopScopes := List.getElem_mem _
      refine ⟨_, List.mem_cons_self .., .corruptDatabase "quill_stat1 row is malformed", trivial, ?_⟩
      rw [StatRead.check, statisticsCatalog]
      exact congrArg (Functor.map fun _ => ()) (tableStats_broken husers)

end Planner

end QuillDb
