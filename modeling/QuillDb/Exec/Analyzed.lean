/-
  Exec/Analyzed.lean --- what the planner reads after ANALYZE.

  Source: `analyze`, `_analyze_table`, `table_stats` and `index_stats` of
  `quilldb/plan/analyze.py`, `encode_stat1_row` and `parse_stat1` of
  `quilldb/plan/statistics.py`.

  The figures go out as text into rows of an ordinary table and come back through it.  A
  table reads as it is.  An index reads short by the entries between its leaves, one less
  than there are leaves.
-/
import QuillDb.Exec.InStepRuns
import QuillDb.Plan.AnyStatistics

set_option autoImplicit false

namespace QuillDb

open Prog PageStore Fallible

/-! ## Counts that can be read -/

section Counts

variable {header : PageContent} {slots : List (TreeKind × Nat)} {content : Content} {s : PageStore} {root : Nat}

theorem Stores.length_rows_le (hs : Stores header slots content s) (hslot : (.table, root) ∈ slots) :
    (content.rows root).length ≤ s.pageCount * pageSize := by
  obtain ⟨H, T, rest, -, hf, -, hrows, -⟩ := hs.exists_table hslot
  rw [← hrows.length_eq]
  exact Nat.le_of_lt_succ hf.tableAt.toTableAt.length_items_lt

/-- A count of rows has few digits. -/
theorem count_prints {n pageCount : Nat} (hn : n ≤ pageCount * pageSize) (hsmall : pageCount < 2 ^ 32) :
    n < 10 ^ PyText.intMaxStrDigits := by
  have hpages : pageCount * pageSize < 2 ^ 32 * 2 ^ 12 := Nat.mul_lt_mul_of_pos_right hsmall (by decide)
  calc n < 2 ^ 32 * 2 ^ 12 := hn.trans_lt hpages
    _ ≤ 10 ^ 14 := by norm_num
    _ ≤ 10 ^ PyText.intMaxStrDigits := Nat.pow_le_pow_right (by decide) (by decide)

end Counts

section Averages

variable {listEq : List Value → List Value → Bool} {keys : List (List Value)}

/-- An average is at most the count, or 1. -/
theorem rowsPerPrefix_le {keyColumns n : Nat} (h : n ∈ rowsPerPrefix listEq keys keyColumns) :
    n ≤ max keys.length 1 := by
  cases keys with
  | nil => simp [List.eq_of_mem_replicate h]
  | cons first rest =>
      obtain ⟨p, -, rfl⟩ := List.mem_map.mp h
      apply le_max_of_le_left
      apply (Nat.div_le_self _ _).trans
      rw [sum_runLengths, List.length_map, List.length_cons, Nat.add_comm]

end Averages

/-! ## Reading -/

namespace Planner

variable {py : PyText} {catalog : Catalog} {rows : List (List Value)}

theorem tableStats_of_found {name : String} {table : TableSchema} {n pageCount height : Nat}
    (htable : catalog.getTable py.casefold name = .ok table)
    (hfound : findStat1Row name none rows = .ok (some ⟨name, none, toString n, pageCount, height⟩))
    (hn : n < 10 ^ PyText.intMaxStrDigits) : tableStats py catalog rows name = .ok ⟨n, pageCount, height⟩ := by
  simp only [tableStats, htable, hfound, bind, Except.bind]
  rw [py.parseInt_toString hn]

theorem indexStats_of_found {index : IndexSchema} {stats : QuillDb.IndexStats}
    (hfound : findStat1Row index.table (some index.name) rows =
      .ok (some ⟨index.table, some index.name, encodeStat1Row stats, stats.leafPages, stats.height⟩))
    (hlength : stats.rowsPerPrefix.length = index.columns.length)
    (hn : ∀ n ∈ stats.rowCount :: stats.rowsPerPrefix, n < 10 ^ PyText.intMaxStrDigits) :
    indexStats py catalog rows index =
      .ok ⟨stats.rowCount, stats.rowsPerPrefix.map Nat.cast, stats.height, stats.leafPages⟩ := by
  simp [indexStats, hfound, parseStat1_encode py hlength hn, bind, Except.bind]

end Planner

/-! ## After ANALYZE -/

/-- The indexes are listed by their names, and each names its table as the catalog does. -/
structure Catalog.IndexesNamed (casefold : String → String) (catalog : Catalog) : Prop where
  named : ∀ i ∈ catalog.indexes, i.1 = casefold i.2.name
  distinct : (catalog.indexes.map Prod.fst).Nodup
  owner : ∀ i ∈ catalog.indexes, ∃ t ∈ catalog.tables, i.2.table = t.2.name

section Analyzed

variable {casefold : String → String} {listEq : List Value → List Value → Bool} {header : PageContent}
  {content content' : Content} {catalog : Catalog} {stat table : TableSchema} {done : List TableSchema} {s : PageStore}

theorem Catalog.IndexesNamed.nodup_names (h : catalog.IndexesNamed casefold) (name : String) :
    (none :: (catalog.indexesFor casefold name).map fun index => some index.name).Nodup := by
  have hfolded : (catalog.indexes.map fun i => casefold i.2.name).Nodup := by
    have hsame : (catalog.indexes.map fun i => casefold i.2.name) = catalog.indexes.map Prod.fst :=
      List.map_congr_left fun i hi => (h.named i hi).symm
    rw [hsame]
    exact h.distinct
  have hnames : ((catalog.indexes.map Prod.snd).map IndexSchema.name).Nodup := by
    apply List.Nodup.of_map casefold
    rwa [List.map_map, List.map_map]
  have hsub : ((catalog.indexesFor casefold name).map IndexSchema.name).Nodup :=
    List.Nodup.sublist (List.filter_sublist.map _) hnames
  have hsome := hsub.map (Option.some_injective String)
  rw [List.map_map] at hsome
  exact List.nodup_cons.mpr ⟨by simp, hsome⟩

/-- An index on a table has its name. -/
theorem Catalog.IndexesNamed.table_eq (h : catalog.IndexesNamed casefold) (hnames : catalog.Named casefold)
    {e : String × TableSchema} (he : e ∈ catalog.tables) {index : IndexSchema}
    (hindex : index ∈ catalog.indexesFor casefold e.2.name) : index.table = e.2.name := by
  obtain ⟨⟨i, hi, rfl⟩, hfold⟩ := mem_indexesFor.mp hindex
  obtain ⟨t, ht, howner⟩ := h.owner i hi
  have hsame : t = e := by
    apply List.inj_on_of_nodup_map hnames.distinct ht he
    rw [hnames.named t ht, hnames.named e he, ← howner, hfold]
  rw [howner, hsame]

/-- The first rows of `quill_stat1` about the trees of a table have figures of its rows and
keys. -/
def Found (casefold : String → String) (listEq : List Value → List Value → Bool) (catalog : Catalog)
    (stat : TableSchema) (content : Content) (table : TableSchema) : Prop :=
  ∃ figures, Figures listEq content (catalog.indexesFor casefold table.name) table figures ∧
    ∀ figure ∈ figures, findStat1Row table.name figure.idx ((content.rows stat.rootPage).map Prod.snd) =
      .ok (some ⟨table.name, figure.idx, figure.stat, figure.pageCount, figure.height⟩)

theorem Figures.congr {indexes : List IndexSchema} {figures : List StatFigure}
    (h : Figures listEq content indexes table figures)
    (hrows : content'.rows table.rootPage = content.rows table.rootPage) (hkeys : content'.keys = content.keys) :
    Figures listEq content' indexes table figures := by
  obtain ⟨first, rest, hfigures, hfirst, hrest⟩ := h
  exact ⟨first, rest, hfigures, hrows ▸ hfirst, hkeys ▸ hrest⟩

/-- What `index_stats` reads of an index. -/
structure IndexRead (keys : List (List Value)) (rowCount keyColumns : Nat) (stats : QuillDb.IndexStats)
    (leafKeys : List (List Value)) : Prop where
  leaves : leafKeys.Sublist keys
  count : stats.rowCount = leafKeys.length
  short : stats.rowCount + stats.leafPages = rowCount + 1
  averages : leafKeys ≠ [] → stats.rowsPerPrefix = (List.range keyColumns).map fun p =>
    leafKeys.length / (leafKeys.map fun key => keyPlace (key.take (p + 1))).dedup.length

/-- What is found reads back. -/
theorem Found.read {py : PyText} (h : Found py.casefold tupleEq catalog stat content table)
    (hs : Stores header catalog.slots content s) (hstep : InStep py.casefold catalog content)
    (hindexes : catalog.IndexesNamed py.casefold) (hsmall : s.pageCount < 2 ^ 32) {e : String × TableSchema}
    (he : e ∈ catalog.tables) (htable : e.2 = table) :
    (∃ pageCount height : Nat, 1 ≤ height ∧ height ≤ pageCount ∧
      Planner.tableStats py catalog ((content.rows stat.rootPage).map Prod.snd) table.name =
        .ok ⟨(content.rows table.rootPage).length, pageCount, height⟩) ∧
    ∀ index ∈ catalog.indexesFor py.casefold table.name, ∃ stats leafKeys,
      IndexRead (content.keys index.rootPage) (content.rows table.rootPage).length index.columns.length stats
        leafKeys ∧
      Planner.indexStats py catalog ((content.rows stat.rootPage).map Prod.snd) index =
        .ok ⟨stats.rowCount, stats.rowsPerPrefix.map Nat.cast, stats.height, stats.leafPages⟩ := by
  subst htable
  obtain ⟨figures, ⟨first, rest, rfl, hfirst, hrest⟩, hfound⟩ := h
  obtain ⟨hfoundFirst, hfoundRest⟩ := List.forall_mem_cons.mp hfound
  have hcount : (content.rows e.2.rootPage).length < 10 ^ PyText.intMaxStrDigits :=
    count_prints (hs.length_rows_le (table_mem_slots he)) hsmall
  constructor
  · have hgetTable : catalog.getTable py.casefold e.2.name = .ok e.2 := by
      rw [Catalog.getTable, ← hstep.names.named e he, Dict.lookup_of_mem hstep.names.distinct he]
    rw [hfirst.idx, hfirst.stat] at hfoundFirst
    exact ⟨first.pageCount, first.height, hfirst.shape.1, hfirst.shape.2,
      Planner.tableStats_of_found hgetTable hfoundFirst hcount⟩
  · intro index hindex
    obtain ⟨figure, hfigure, hidx, leafKeys, hsub, hshort, hstat⟩ := exists_right hrest hindex
    have hfoundIndex := hfoundRest figure hfigure
    rw [hidx, hstat, ← hindexes.table_eq hstep.names he hindex] at hfoundIndex
    obtain ⟨positions, hpositions, hkeys, -⟩ := (hstep.coherent e he).indexed index hindex
    have hlength : (content.keys index.rootPage).length = (content.rows e.2.rootPage).length := by
      simpa using hkeys.matched.length_eq
    have hleaves := hsub.length_le
    let stats : QuillDb.IndexStats :=
      ⟨leafKeys.length, rowsPerPrefix tupleEq leafKeys index.columns.length, figure.height, figure.pageCount⟩
    refine ⟨stats, leafKeys, ⟨hsub, rfl, hlength ▸ hshort, fun hne => ?_⟩, ?_⟩
    · have hsorted : KeysSorted (positions.length + 1) leafKeys :=
        ⟨fun key hkey => hkeys.sorted.comparable key (hsub.subset hkey), hkeys.sorted.ordered.sublist hsub⟩
      exact rowsPerPrefix_eq hne hsorted _
    · refine Planner.indexStats_of_found hfoundIndex (length_rowsPerPrefix ..) fun n hn => ?_
      have hpositive : 1 < 10 ^ PyText.intMaxStrDigits := Nat.one_lt_pow (by decide) (by decide)
      rcases List.mem_cons.mp hn with rfl | hn
      · exact (hleaves.trans hlength.le).trans_lt hcount
      · exact (rowsPerPrefix_le hn).trans_lt (max_lt ((hleaves.trans hlength.le).trans_lt hcount) hpositive)

end Analyzed

/-! ## Runs -/

section Runs

variable {casefold : String → String} {ops : FloatOps} {listEq : List Value → List Value → Bool} {header : PageContent}
  {content : Content} {db db' : Database}

end Runs

end QuillDb
