/-
  Plan/Resolves.lean --- which statistics the planner gets by with.

  Source: `quilldb/plan/statistics.py`, `quilldb/plan/cost.py`, `quilldb/plan/search.py`.

  While the estimates stay in the range of the floats, planning raises what the first of
  its reads raises that fails: a row of `quill_stat1` that does not parse, or a first
  average of zero on an index that leads with a join key.
-/
import QuillDb.Exec.Storable
import QuillDb.Lib.SameErrors
import QuillDb.Plan.Search
import Mathlib.Data.List.Dedup

set_option autoImplicit false

namespace QuillDb

open Fallible

/-! ## The platform -/

/-- What Python documents of the conversions that the cost model makes: an integer in the
range of the floats converts, a quotient of integers in that range is a finite float, and
a finite float rounds to an integer. -/
structure CostOps.Converts (ops : CostOps) : Prop where
  ofInt_isSome : ∀ n : Int, n.natAbs ≤ maxFloat → (ops.ofInt n).isSome
  third_isSome : ∀ n bits k, ops.ofInt n = some bits → (ops.trunc (ops.mul bits (ops.third k))).isSome
  intDiv_isSome : ∀ n m : Int, m ≠ 0 → n.natAbs ≤ maxFloat → (ops.intDiv n m).isSome
  ceil_intDiv : ∀ n m bits, ops.intDiv n m = some bits → ∃ c, ops.ceil bits = some c ∧ c.natAbs ≤ maxFloat

/-- Estimates up to here convert, also times the pages of an index. -/
def estimateLimit : Nat := 2 ^ 960

theorem estimateLimit_mul_le : 2 ^ 63 * estimateLimit ≤ maxFloat := by
  have hpow : 2 ^ 63 * estimateLimit = 2 ^ 52 * 2 ^ 971 := by
    rw [estimateLimit, ← Nat.pow_add, ← Nat.pow_add]
  rw [hpow, maxFloat]
  exact Nat.mul_le_mul_right _ (by decide)

theorem estimateLimit_le : estimateLimit ≤ maxFloat :=
  (Nat.le_mul_of_pos_left _ (by decide)).trans estimateLimit_mul_le

theorem natAbs_of_fits {n : Int} (h : fitsInt64 n = true) : n.natAbs ≤ 2 ^ 63 := by
  rw [fitsInt64, Bool.and_eq_true, decide_eq_true_eq, decide_eq_true_eq, minInt64, maxInt64] at h
  omega

theorem natAbs_le_of_fits {n : Int} (h : fitsInt64 n = true) : n.natAbs ≤ maxFloat :=
  (natAbs_of_fits h).trans ((Nat.pow_le_pow_right (by decide) (by decide)).trans two_pow_le_maxFloat)

theorem pages_mul_le {pages n : Int} (hpages : fitsInt64 pages = true) (hn : n.natAbs ≤ estimateLimit) :
    (pages * n).natAbs ≤ maxFloat := by
  rw [Int.natAbs_mul]
  exact (Nat.mul_le_mul (natAbs_of_fits hpages) hn).trans estimateLimit_mul_le

namespace Planner

section Paths

variable {ops : CostOps} {stats : StatsSource} {tableStats : TableStats} {size : Nat}

theorem floatOfInt_ok (hops : ops.Converts) {n : Int} (hn : n.natAbs ≤ maxFloat) :
    ∃ bits, floatOfInt ops.toFloatOps n = .ok bits ∧ ops.ofInt n = some bits := by
  obtain ⟨bits, hbits⟩ := Option.isSome_iff_exists.mp (hops.ofInt_isSome n hn)
  refine ⟨bits, ?_, hbits⟩
  simp [floatOfInt, hbits]

theorem timesInt_ok (hops : ops.Converts) (x : BitVec 64) {n : Int} (hn : n.natAbs ≤ maxFloat) :
    ∃ bits, timesInt ops x n = .ok bits := by
  obtain ⟨bits, hbits, -⟩ := floatOfInt_ok hops hn
  rw [timesInt, hbits]
  exact ⟨_, rfl⟩

/-- The second stage, on figures in range: the rows that survive are among those that are
read, and a seek reads one row at least. -/
theorem estimateRowCounts_ok (hops : ops.Converts) {path : AccessPath} {indexStats : Option IndexStats}
    {fetched : Int} (hfetched : rowsFetched path indexStats tableStats = .ok fetched)
    (hsize : fetched.natAbs ≤ maxFloat) :
    ∃ estimated, estimateRowCounts ops path indexStats tableStats = .ok estimated ∧
      estimated.toAccessPath = path ∧ estimated.rowsFetched = fetched ∧ estimated.estRows ≤ fetched ∧
      estimated.estRows.natAbs ≤ fetched.natAbs := by
  obtain ⟨bits, hbits, hof⟩ := floatOfInt_ok hops hsize
  obtain ⟨surviving, hsurviving⟩ := Option.isSome_iff_exists.mp
    (hops.third_isSome fetched bits path.residual.length hof)
  have hint : toInt ops.toFloatOps (.real (ops.mul bits (ops.third path.residual.length))) = .ok surviving := by
    simp [toInt, hsurviving]
  have hestimated : estimateRowCounts ops path indexStats tableStats =
      .ok { path with rowsFetched := fetched, estRows := min fetched (max 1 surviving) } :=
    bind_eq_ok_iff.mpr ⟨fetched, hfetched, bind_eq_ok_iff.mpr ⟨bits, hbits,
      bind_eq_ok_iff.mpr ⟨surviving, hint, rfl⟩⟩⟩
  refine ⟨_, hestimated, rfl, rfl, min_le_left .., ?_⟩
  simp only
  omega

/-- The third stage, for a walk over the table. -/
theorem seqScanCost_ok (hops : ops.Converts) (hpages : fitsInt64 tableStats.pageCount = true)
    (hrows : tableStats.rowCount.natAbs ≤ estimateLimit) : ∃ cost, seqScanCost ops tableStats = .ok cost := by
  obtain ⟨pages, hpages⟩ := timesInt_ok hops seqPageCost (natAbs_le_of_fits hpages)
  obtain ⟨rows, hrows⟩ := timesInt_ok hops cpuPerRow (hrows.trans estimateLimit_le)
  exact ⟨_, bind_eq_ok_iff.mpr ⟨pages, hpages, bind_eq_ok_iff.mpr ⟨rows, hrows, rfl⟩⟩⟩

theorem leafPagesTouched_ok (hops : ops.Converts) {indexStats : IndexStats}
    (hleaves : fitsInt64 indexStats.leafPages = true) {fetched : Int} (hfetched : fetched.natAbs ≤ estimateLimit) :
    ∃ pages, leafPagesTouched ops fetched indexStats = .ok pages ∧ (pages - 1).natAbs ≤ maxFloat := by
  rw [leafPagesTouched]
  split
  · exact ⟨1, rfl, by simp⟩
  · rename_i hne
    obtain ⟨ratio, hratio⟩ := Option.isSome_iff_exists.mp
      (hops.intDiv_isSome _ _ hne (pages_mul_le hleaves hfetched))
    obtain ⟨c, hc, hcmax⟩ := hops.ceil_intDiv _ _ _ hratio
    have hdivide : trueDivide ops (indexStats.leafPages * fetched) indexStats.rowCount = .ok ratio := by
      rw [trueDivide, if_neg hne, hratio]
    have hceil : ceiling ops ratio = .ok c := by
      rw [ceiling, hc]
    refine ⟨max 1 c, bind_eq_ok_iff.mpr ⟨ratio, hdivide, bind_eq_ok_iff.mpr ⟨c, hceil, rfl⟩⟩, ?_⟩
    omega

/-- The third stage, for a walk over an index. -/
theorem indexScanCost_ok (hops : ops.Converts) {indexStats : IndexStats}
    (hshape : ShapeFits indexStats.leafPages indexStats.height) (hheight : fitsInt64 tableStats.height = true)
    {fetched : Int} (hfetched : fetched.natAbs ≤ estimateLimit) :
    ∃ cost, indexScanCost ops fetched indexStats tableStats = .ok cost := by
  obtain ⟨leafPages, hleafPages, hless⟩ := leafPagesTouched_ok hops hshape.1 hfetched
  obtain ⟨leaves, hleaves⟩ := timesInt_ok hops seqPageCost hless
  obtain ⟨lookup, hlookup⟩ := timesInt_ok hops randomPageCost (natAbs_le_of_fits hheight)
  obtain ⟨lookups, hlookups⟩ := timesInt_ok hops lookup (hfetched.trans estimateLimit_le)
  obtain ⟨rows, hrows⟩ := timesInt_ok hops cpuPerRow (hfetched.trans estimateLimit_le)
  obtain ⟨startup, hstartup⟩ := timesInt_ok hops randomPageCost (natAbs_le_of_fits hshape.2)
  exact ⟨_, bind_eq_ok_iff.mpr ⟨leafPages, hleafPages, bind_eq_ok_iff.mpr ⟨leaves, hleaves,
    bind_eq_ok_iff.mpr ⟨lookup, hlookup, bind_eq_ok_iff.mpr ⟨lookups, hlookups,
      bind_eq_ok_iff.mpr ⟨rows, hrows, bind_eq_ok_iff.mpr ⟨startup, hstartup, rfl⟩⟩⟩⟩⟩⟩⟩

/-! ## Candidates -/

/-- A seek reads one row at least, and no more rows survive than are read. -/
def Charged (path : CostedPath) : Prop :=
  path.estRows ≤ path.rowsFetched ∧ (path.seekTerms ≠ [] → 1 ≤ path.rowsFetched)

/-- The figures of a table and its indexes, where they read: no count is beyond `size`. -/
structure Moderate (stats : StatsSource) (size : Nat) (table : TableSchema) (indexes : List IndexSchema) :
    Prop where
  table : ∀ figures, stats.tableStats table.name = .ok figures →
    ShapeFits figures.pageCount figures.height ∧ figures.rowCount.natAbs ≤ size
  index : ∀ index ∈ indexes, ∀ figures, stats.indexStats index = .ok figures →
    ShapeFits figures.leafPages figures.height ∧ figures.rowsPerPrefix.length = index.columns.length ∧
      ∀ average ∈ figures.rowsPerPrefix, average.natAbs ≤ size

/-- A walk over an index, with terms on its columns. -/
structure OnIndex (index : IndexSchema) (path : AccessPath) : Prop where
  kind : path.kind = .indexScan
  indexed : path.index = some index
  columns : ∀ p ∈ path.seekTerms, p.val.column ∈ index.columns

theorem column_of_mem_seekTermsOf {predicates : List (Object Predicate)} {columns : List String}
    {p : Object Predicate} (hp : p ∈ seekTermsOf (onColumn predicates) columns) : p.val.column ∈ columns := by
  induction columns with
  | nil => cases hp
  | cons column columns ih =>
      have hhere : ∀ {q : Object Predicate}, q ∈ onColumn predicates column → q.val.column ∈ column :: columns := by
        intro q hq
        rw [(mem_onColumn.mp hq).2]
        exact List.mem_cons_self ..
      rw [seekTermsOf] at hp
      split at hp
      · cases hp
      · split at hp
        · rcases List.mem_append.mp hp with hp | hp
          · exact hhere (mem_equalities.mp hp).1
          · exact List.mem_cons_of_mem _ (ih hp)
        · rcases List.mem_append.mp hp with hp | hp
          · exact hhere (mem_equalities.mp hp).1
          · exact hhere (mem_inequalities.mp (List.mem_of_mem_take hp)).1

/-- An index gives at least one path. -/
theorem indexPaths_ok {casefold : String → String} {table : TableSchema} {predicates : List (Object Predicate)}
    (tableOrdinal : Nat) {index : IndexSchema}
    (hcolumns : ∀ c ∈ index.columns, ∃ i, table.columnIndex casefold c = .ok i) :
    ∃ paths, indexPaths casefold table predicates tableOrdinal index = .ok paths ∧ paths ≠ [] ∧
      ∀ path ∈ paths, OnIndex index path := by
  have hkeys : ∀ reverse, ∃ keys, index.columns.mapM (outputKey casefold table tableOrdinal reverse) = .ok keys := by
    intro reverse
    simp only [mapM_eq_ok_iff]
    apply exists_forall₂_iff.mpr
    intro c hc
    obtain ⟨i, hi⟩ := hcolumns c hc
    have hlt := TableSchema.columnIndex_lt hi
    refine ⟨⟨.column ⟨i, c, table.columns[i].dataType, tableOrdinal⟩, reverse⟩, ?_⟩
    rw [outputKey, hi]
    have hcolumn : table.columns[i]? = some table.columns[i] := List.getElem?_eq_getElem hlt
    simp [bind, Except.bind, hcolumn]
  have horder : ∀ reverse, ∃ path, indexOrderPath casefold index predicates table tableOrdinal reverse = .ok path ∧
      OnIndex index path := by
    intro reverse
    obtain ⟨keys, hkeys⟩ := hkeys reverse
    exact ⟨_, bind_eq_ok_iff.mpr ⟨keys, hkeys, rfl⟩, rfl, rfl, by simp⟩
  rw [indexPaths, matchIndexPrefix]
  have hlookup : (fun column => ((byColumn predicates).lookup column).getD []) = onColumn predicates :=
    funext fun column => lookup_byColumn predicates column
  simp only [hlookup]
  by_cases hterms : seekTermsOf (onColumn predicates) index.columns = []
  · rw [if_pos (List.isEmpty_iff.mpr hterms)]
    obtain ⟨forward, hforward, honForward⟩ := horder false
    obtain ⟨backward, hbackward, honBackward⟩ := horder true
    refine ⟨[forward, backward], bind_eq_ok_iff.mpr ⟨forward, hforward,
      bind_eq_ok_iff.mpr ⟨backward, hbackward, rfl⟩⟩, by simp, ?_⟩
    simp [honForward, honBackward]
  · rw [if_neg fun hnil => hterms (List.isEmpty_iff.mp hnil)]
    refine ⟨_, rfl, by simp, ?_⟩
    rw [List.forall_mem_singleton]
    exact ⟨rfl, rfl, fun p hp => column_of_mem_seekTermsOf hp⟩

theorem rowsFetched_index {index : IndexSchema} {path : AccessPath} (hpath : OnIndex index path)
    {figures : IndexStats} (hlength : figures.rowsPerPrefix.length = index.columns.length)
    (hsmall : ∀ average ∈ figures.rowsPerPrefix, average.natAbs ≤ size) (hone : 1 ≤ size)
    (hrows : tableStats.rowCount.natAbs ≤ size) :
    ∃ fetched, rowsFetched path (some figures) tableStats = .ok fetched ∧ fetched.natAbs ≤ size ∧
      (path.seekTerms ≠ [] → 1 ≤ fetched) := by
  rw [rowsFetched]
  by_cases hterms : path.seekTerms = []
  · rw [if_neg (by simp [hterms])]
    exact ⟨_, rfl, hrows, fun h => absurd hterms h⟩
  · rw [if_pos ⟨hpath.kind, hterms⟩]
    have hsub : (path.seekTerms.map fun p => p.val.column).dedup ⊆ index.columns := by
      intro c hc
      rw [List.mem_dedup] at hc
      obtain ⟨p, hp, rfl⟩ := List.mem_map.mp hc
      exact hpath.columns p hp
    have hle := (List.subperm_of_subset (List.nodup_dedup _) hsub).length_le
    have hpos : 0 < ((path.seekTerms.map fun p => p.val.column).dedup).length := by
      rw [List.length_pos_iff, ne_eq, List.dedup_eq_nil, List.map_eq_nil_iff]
      exact hterms
    have hlt : ((path.seekTerms.map fun p => p.val.column).dedup).length - 1 < figures.rowsPerPrefix.length := by
      omega
    simp only [List.getElem?_eq_getElem hlt]
    have haverage := hsmall _ (List.getElem_mem hlt)
    refine ⟨_, rfl, ?_, ?_⟩ <;> omega

/-- A path with its estimates in range. -/
structure InRange (size : Nat) (path : AccessPath) (costed : CostedPath) : Prop where
  path : costed.toAccessPath = path
  charged : Charged costed
  estRows : costed.estRows.natAbs ≤ size

theorem costPath_seqScan (hops : ops.Converts) (hsize : size ≤ estimateLimit)
    (hpages : fitsInt64 tableStats.pageCount = true) (hrows : tableStats.rowCount.natAbs ≤ size)
    {path : AccessPath} (hkind : path.kind = .seqScan) (hindex : path.index = none) (hterms : path.seekTerms = []) :
    ∃ costed, costPath ops stats tableStats path = .ok costed ∧ InRange size path costed := by
  have hfetched : rowsFetched path none tableStats = .ok tableStats.rowCount := by
    rw [rowsFetched, if_neg (by simp [hterms])]
  obtain ⟨estimated, hestimated, hpath, hrowsFetched, hle, hnat⟩ :=
    estimateRowCounts_ok hops hfetched ((hrows.trans hsize).trans estimateLimit_le)
  obtain ⟨cost, hcost⟩ := seqScanCost_ok hops hpages (hrows.trans hsize)
  have hpathCost : pathCost ops estimated none tableStats = .ok cost := by
    unfold pathCost
    rw [hpath]
    simp only [hkind]
    exact hcost
  have hassign : assignCost ops estimated none tableStats = .ok { estimated with cost := cost } :=
    bind_eq_ok_iff.mpr ⟨cost, hpathCost, rfl⟩
  refine ⟨{ estimated with cost := cost }, ?_, hpath, ⟨?_, ?_⟩, hnat.trans hrows⟩
  · have hstats : pathStats stats path = .ok none := by
      rw [pathStats, hindex]
    exact bind_eq_ok_iff.mpr ⟨none, hstats, bind_eq_ok_iff.mpr ⟨estimated, hestimated, hassign⟩⟩
  · rw [hrowsFetched]
    exact hle
  · intro hne
    rw [hpath] at hne
    exact absurd hterms hne

section Index

variable {index : IndexSchema} {path : AccessPath}

theorem costPath_eq (hpath : OnIndex index path) : costPath ops stats tableStats path =
    stats.indexStats index >>= fun figures => estimateRowCounts ops path (some figures) tableStats >>=
      fun estimated => assignCost ops estimated (some figures) tableStats := by
  have hstats : pathStats stats path = some <$> stats.indexStats index := by
    rw [pathStats, hpath.indexed]
  rw [costPath, hstats]
  cases stats.indexStats index <;> rfl

variable {table : TableSchema} {indexes : List IndexSchema}

theorem costPath_index_ok (hops : ops.Converts) (hone : 1 ≤ size) (hsize : size ≤ estimateLimit)
    (hmoderate : Moderate stats size table indexes) (htable : stats.tableStats table.name = .ok tableStats)
    (hindex : index ∈ indexes) (hpath : OnIndex index path) {figures : IndexStats}
    (hfigures : stats.indexStats index = .ok figures) :
    ∃ costed, costPath ops stats tableStats path = .ok costed ∧ InRange size path costed := by
  obtain ⟨hshape, hlength, hsmall⟩ := hmoderate.index index hindex figures hfigures
  obtain ⟨htshape, hrows⟩ := hmoderate.table tableStats htable
  obtain ⟨fetched, hfetched, hbound, hseek⟩ := rowsFetched_index hpath hlength hsmall hone hrows
  obtain ⟨estimated, hestimated, heq, hrowsFetched, hle, hnat⟩ :=
    estimateRowCounts_ok hops hfetched ((hbound.trans hsize).trans estimateLimit_le)
  obtain ⟨cost, hcost⟩ := indexScanCost_ok hops hshape htshape.2 (hbound.trans hsize)
  have hpathCost : pathCost ops estimated (some figures) tableStats = .ok cost := by
    unfold pathCost
    rw [heq, hrowsFetched]
    simp only [hpath.kind]
    exact hcost
  have hassign : assignCost ops estimated (some figures) tableStats = .ok { estimated with cost := cost } :=
    bind_eq_ok_iff.mpr ⟨cost, hpathCost, rfl⟩
  refine ⟨{ estimated with cost := cost }, ?_, heq, ⟨?_, ?_⟩, hnat.trans hbound⟩
  · rw [costPath_eq hpath]
    exact bind_eq_ok_iff.mpr ⟨figures, hfigures, bind_eq_ok_iff.mpr ⟨estimated, hestimated, hassign⟩⟩
  · rw [hrowsFetched]
    exact hle
  · intro hne
    rw [heq] at hne
    rw [hrowsFetched]
    exact hseek hne

/-- Costing a path raises what reading its index raises. -/
theorem costPath_sameErrors (hops : ops.Converts) (hone : 1 ≤ size) (hsize : size ≤ estimateLimit)
    (hmoderate : Moderate stats size table indexes) (htable : stats.tableStats table.name = .ok tableStats)
    (hindex : index ∈ indexes) (hpath : OnIndex index path) :
    SameErrors (costPath ops stats tableStats path) (stats.indexStats index) := by
  cases hfigures : stats.indexStats index with
  | ok figures =>
      obtain ⟨costed, hcosted, -⟩ := costPath_index_ok hops hone hsize hmoderate htable hindex hpath hfigures
      exact SameErrors.of_ok hcosted rfl
  | error e =>
      rw [costPath_eq hpath, hfigures]
      exact SameErrors.of_error e

end Index

/-! ## The choice -/

theorem cheapestFrom_mem {α : Type} (best : α × BitVec 64) (rest : List (α × BitVec 64)) :
    cheapestFrom best rest ∈ (best :: rest).map Prod.fst := by
  induction rest generalizing best with
  | nil => simp [cheapestFrom]
  | cons candidate rest ih =>
      rw [cheapestFrom]
      split
      · exact List.mem_cons_of_mem _ (ih candidate)
      · have hmem := ih best
        simp only [List.map_cons, List.mem_cons] at hmem ⊢
        tauto

theorem minBy_ok {α : Type} {key : α → Except DbError (BitVec 64)} {candidates : List α}
    (hne : candidates ≠ []) (hkey : ∀ candidate ∈ candidates, ∃ cost, key candidate = .ok cost) :
    ∃ candidate ∈ candidates, minBy key candidates = .ok candidate := by
  have hkeyed : ∀ candidate ∈ candidates, ∃ keyed : α × BitVec 64,
      (do let cost ← key candidate; .ok (candidate, cost) : Except DbError (α × BitVec 64)) = .ok keyed ∧
        keyed.1 = candidate := by
    intro candidate hmem
    obtain ⟨cost, hcost⟩ := hkey candidate hmem
    exact ⟨(candidate, cost), bind_eq_ok_iff.mpr ⟨cost, hcost, rfl⟩, rfl⟩
  obtain ⟨keyed, hpairs⟩ := exists_forall₂_iff.mpr hkeyed
  have hmap := mapM_eq_ok_iff.mpr (hpairs.imp fun _ _ h => h.1)
  have hfst : keyed.map Prod.fst = candidates := by
    have hall : List.Forall₂ (fun a b => a = b) candidates (keyed.map Prod.fst) :=
      List.forall₂_map_right_iff.mpr (hpairs.imp fun _ _ h => h.2.symm)
    rw [List.forall₂_eq_eq_eq] at hall
    exact hall.symm
  cases keyed with
  | nil => exact absurd hfst.symm hne
  | cons first rest =>
      refine ⟨cheapestFrom first rest, ?_, bind_eq_ok_iff.mpr ⟨first :: rest, hmap, rfl⟩⟩
      rw [← hfst]
      exact cheapestFrom_mem first rest

/-- One of the candidates is chosen, if its estimate converts. -/
theorem chooseBy_ok {α : Type} (hops : ops.Converts) {cost : α → PlanCost} {outputOrder : α → List SortKey}
    {estRows : α → Int} {candidates : List α} (hne : candidates ≠ [])
    (hrows : ∀ candidate ∈ candidates, (estRows candidate).natAbs ≤ estimateLimit) (orderBy : List SortKey) :
    ∃ candidate ∈ candidates, chooseBy ops cost outputOrder estRows candidates orderBy = .ok candidate := by
  unfold chooseBy
  split
  · apply minBy_ok hne
    intro candidate hmem
    have hsort : ∃ sort, sortCost ops (outputOrder candidate) (estRows candidate) orderBy = .ok sort := by
      rw [sortCost]
      split
      · exact ⟨0, rfl⟩
      · have htwo : 2 ^ 1 ≤ estimateLimit := Nat.pow_le_pow_right (by decide) (by decide)
        have hle := hrows candidate hmem
        obtain ⟨sort, hsort⟩ := @timesInt_ok ops hops cpuPerRow (max 2 (estRows candidate))
          (le_trans (by omega) estimateLimit_le)
        exact ⟨_, bind_eq_ok_iff.mpr ⟨sort, hsort, rfl⟩⟩
    obtain ⟨sort, hsort⟩ := hsort
    exact ⟨_, bind_eq_ok_iff.mpr ⟨sort, hsort, rfl⟩⟩
  · exact minBy_ok hne fun candidate _ => ⟨_, rfl⟩

/-! ## The paths of a table -/

/-- What planning reads of `quill_stat1`: the figures of a table, the figures of an index,
the first average of an index. -/
inductive StatRead where
  | tableFigures (name : String)
  | indexFigures (index : IndexSchema)
  | firstAverage (index : IndexSchema)
  deriving DecidableEq

/-- An average to divide by. -/
def zeroCheck (figures : IndexStats) : Except DbError Unit :=
  if figures.rowsPerPrefix.head? = some 0 then
    .error (.zeroDivision "integer division or modulo by zero")
  else .ok ()

/-- What a read can raise. -/
def StatRead.check (stats : StatsSource) : StatRead → Except DbError Unit
  | .tableFigures name => (fun _ => ()) <$> stats.tableStats name
  | .indexFigures index => (fun _ => ()) <$> stats.indexStats index
  | .firstAverage index => stats.indexStats index >>= zeroCheck

/-- Reads, one after the other. -/
def readAll (stats : StatsSource) (reads : List StatRead) : Except DbError Unit :=
  inTurn (reads.map (StatRead.check stats))

theorem readAll_cons (read : StatRead) (reads : List StatRead) :
    readAll stats (read :: reads) = read.check stats >>= fun _ => readAll stats reads := by
  rfl

theorem readAll_append (reads reads' : List StatRead) :
    readAll stats (reads ++ reads') = readAll stats reads >>= fun _ => readAll stats reads' := by
  rw [readAll, List.map_append, inTurn_append]
  rfl

theorem readAll_ok {reads : List StatRead} (h : ∀ read ∈ reads, read.check stats = .ok ()) :
    readAll stats reads = .ok () := by
  apply inTurn_ok
  simpa using h

theorem readAll_singleton (read : StatRead) : readAll stats [read] = read.check stats :=
  inTurn_replicate (read.check stats) 0

theorem readAll_flatMap {α : Type} (f : α → List StatRead) (xs : List α) :
    readAll stats (xs.flatMap f) = inTurn (xs.flatMap fun x => (f x).map (StatRead.check stats)) := by
  rw [readAll, List.map_flatMap]

theorem indexCheck_sameErrors (index : IndexSchema) :
    SameErrors (stats.indexStats index) (StatRead.check stats (.indexFigures index)) := by
  rw [StatRead.check]
  cases stats.indexStats index with
  | ok figures => exact SameErrors.of_ok rfl rfl
  | error e => exact SameErrors.of_error e

/-- Indexes of a table: each has a column, and each column is one of the table's. -/
def SoundIndexes (casefold : String → String) (table : TableSchema) (indexes : List IndexSchema) : Prop :=
  ∀ index ∈ indexes, index.columns ≠ [] ∧ ∀ c ∈ index.columns, ∃ i, table.columnIndex casefold c = .ok i

section Table

variable {casefold : String → String} {catalog : Catalog} {table : TableSchema} {indexes : List IndexSchema}
variable {predicates : List (Object Predicate)} {tableOrdinal : Nat}

/-- Costing the paths of the indexes raises what reading them raises. -/
theorem indexCosts (hops : ops.Converts) (hone : 1 ≤ size) (hsize : size ≤ estimateLimit)
    (hmoderate : Moderate stats size table indexes) (htable : stats.tableStats table.name = .ok tableStats)
    {walked : List IndexSchema} {pathss : List (List AccessPath)} (hwalked : ∀ index ∈ walked, index ∈ indexes)
    (hpaths : List.Forall₂ (fun index paths => paths ≠ [] ∧ ∀ path ∈ paths, OnIndex index path) walked pathss) :
    SameErrors (pathss.flatten.mapM (costPath ops stats tableStats)) (readAll stats (walked.map .indexFigures)) := by
  induction hpaths with
  | nil => exact SameErrors.of_ok rfl rfl
  | @cons index paths walked pathss hblock _ ih =>
      have hindex := hwalked index (List.mem_cons_self ..)
      have hpaths : SameErrors (paths.mapM (costPath ops stats tableStats))
          (StatRead.check stats (.indexFigures index)) := by
        apply SameErrors.mapM_check hblock.1
        intro path hpath
        exact (costPath_sameErrors hops hone hsize hmoderate htable hindex (hblock.2 path hpath)).trans
          (indexCheck_sameErrors index)
      rw [List.flatten_cons, List.mapM_append, List.map_cons, readAll_cons]
      apply hpaths.bind
      intro costed u _ _
      exact (ih fun i hi => hwalked i (List.mem_cons_of_mem _ hi)).bind_ok fun rest _ => ⟨costed ++ rest, rfl⟩

/-- What comes out is in range. -/
theorem indexCosts_inRange (hops : ops.Converts) (hone : 1 ≤ size) (hsize : size ≤ estimateLimit)
    (hmoderate : Moderate stats size table indexes) (htable : stats.tableStats table.name = .ok tableStats)
    {path : AccessPath} {index : IndexSchema} (hindex : index ∈ indexes) (hpath : OnIndex index path)
    {costed : CostedPath} (hcosted : costPath ops stats tableStats path = .ok costed) :
    InRange size path costed := by
  obtain ⟨figures, hfigures⟩ :=
    (costPath_sameErrors hops hone hsize hmoderate htable hindex hpath).ok hcosted
  obtain ⟨costed', hcosted', hrange⟩ := costPath_index_ok hops hone hsize hmoderate htable hindex hpath hfigures
  rw [hcosted] at hcosted'
  cases hcosted'
  exact hrange

/-- Planning one table raises what reading its indexes raises; what it considers is in
range. -/
theorem costedPaths_sound (hops : ops.Converts) (hone : 1 ≤ size) (hsize : size ≤ estimateLimit)
    (hmoderate : Moderate stats size table (catalog.indexesFor casefold table.name))
    (htable : stats.tableStats table.name = .ok tableStats)
    (hsound : SoundIndexes casefold table (catalog.indexesFor casefold table.name)) :
    SameErrors (costedPaths ops casefold catalog stats table predicates tableStats tableOrdinal)
        (readAll stats ((catalog.indexesFor casefold table.name).map .indexFigures)) ∧
      ∀ costed, costedPaths ops casefold catalog stats table predicates tableStats tableOrdinal = .ok costed →
        costed ≠ [] ∧ ∀ c ∈ costed, ∃ path, InRange size path c := by
  have hindexPaths : ∀ index ∈ catalog.indexesFor casefold table.name, ∃ paths,
      indexPaths casefold table predicates tableOrdinal index = .ok paths ∧ paths ≠ [] ∧
        ∀ path ∈ paths, OnIndex index path :=
    fun index hindex => indexPaths_ok tableOrdinal (hsound index hindex).2
  obtain ⟨pathss, hpathss⟩ := exists_forall₂_iff.mpr hindexPaths
  have henumerate : enumerateAccessPaths casefold table (catalog.indexesFor casefold table.name) predicates
      tableOrdinal = .ok ({ kind := .seqScan, index := none, seekTerms := [], residual := predicates } ::
        pathss.flatten) :=
    bind_eq_ok_iff.mpr ⟨pathss, mapM_eq_ok_iff.mpr (hpathss.imp fun _ _ h => h.1), rfl⟩
  obtain ⟨hshape, hrows⟩ := hmoderate.table tableStats htable
  obtain ⟨seq, hseq, hseqRange⟩ := @costPath_seqScan ops stats tableStats size hops hsize hshape.1 hrows
    { kind := .seqScan, index := none, seekTerms := [], residual := predicates } rfl rfl rfl
  have hblocks := hpathss.imp fun _ _ h => h.2
  have hcosts := indexCosts hops hone hsize hmoderate htable (fun index h => h) hblocks
  have hall : costedPaths ops casefold catalog stats table predicates tableStats tableOrdinal =
      pathss.flatten.mapM (costPath ops stats tableStats) >>= fun costed => .ok (seq :: costed) := by
    rw [costedPaths, henumerate, ok_bind, List.mapM_cons, hseq, ok_bind]
    rfl
  rw [hall]
  constructor
  · exact hcosts.bind_ok fun costed _ => ⟨seq :: costed, rfl⟩
  · intro costed h
    obtain ⟨rest, hrest, h⟩ := bind_eq_ok h
    cases h
    refine ⟨by simp, ?_⟩
    rw [List.forall_mem_cons]
    refine ⟨⟨_, hseqRange⟩, ?_⟩
    intro c hc
    obtain ⟨path, hpath, hcosted⟩ := exists_left (mapM_ok hrest) hc
    obtain ⟨paths, hpaths, hmem⟩ := List.mem_flatten.mp hpath
    obtain ⟨index, hindex, -, hon⟩ := exists_left hblocks hpaths
    exact ⟨path, indexCosts_inRange hops hone hsize hmoderate htable hindex (hon path hmem) hcosted⟩

end Table

/-! ## Join keys -/

/-- The first index that leads with a column. -/
def leadingIndex (casefold : String → String) (indexes : List IndexSchema) (column : String) : Option IndexSchema :=
  indexes.find? fun index => index.columns.head?.map casefold = some (casefold column)

/-- The average that the distinct values of a column derive from, if there is one. -/
def leadingReads (casefold : String → String) (catalog : Catalog) (table : TableSchema) (column : String) :
    List StatRead :=
  ((leadingIndex casefold (catalog.indexesFor casefold table.name) column).map StatRead.firstAverage).toList

theorem indexNdv_sound {figures : IndexStats} (hne : figures.rowsPerPrefix ≠ []) :
    SameErrors (indexNdv figures) (zeroCheck figures) ∧ ∀ ndv, indexNdv figures = .ok ndv → 1 ≤ ndv := by
  obtain ⟨average, rest, haverages⟩ := List.exists_cons_of_ne_nil hne
  by_cases hzero : average = 0
  · have hleft : indexNdv figures = .error (.zeroDivision "integer division or modulo by zero") := by
      simp [indexNdv, haverages, hzero]
    have hright : zeroCheck figures = .error (.zeroDivision "integer division or modulo by zero") := by
      simp [zeroCheck, haverages, hzero]
    rw [hleft, hright]
    exact ⟨SameErrors.of_error _, by simp⟩
  · have hleft : indexNdv figures = .ok (max 1 (figures.rowCount.fdiv average)) := by
      simp [indexNdv, haverages, hzero]
    have hright : zeroCheck figures = .ok () := by
      simp [zeroCheck, haverages, hzero]
    rw [hleft, hright]
    refine ⟨SameErrors.of_ok rfl rfl, ?_⟩
    intro ndv h
    cases h
    exact le_max_left ..

theorem leadingNdvOf_eq {casefold : String → String} {column : String} {indexes : List IndexSchema}
    (hsome : ∀ index ∈ indexes, index.columns ≠ []) :
    leadingNdvOf casefold stats column indexes =
      match leadingIndex casefold indexes column with
      | none => .ok none
      | some index => stats.indexStats index >>= fun figures => some <$> indexNdv figures := by
  induction indexes with
  | nil => rfl
  | cons index indexes ih =>
      obtain ⟨first, rest, hcolumns⟩ := List.exists_cons_of_ne_nil (hsome index (List.mem_cons_self ..))
      rw [leadingNdvOf, leadingIndex, List.find?_cons]
      simp only [hcolumns, List.getElem?_cons_zero, List.head?_cons, Option.map_some, Option.some.injEq]
      by_cases hlead : casefold first = casefold column
      · simp only [hlead, if_true, decide_true]
        cases stats.indexStats index with
        | error e => rfl
        | ok figures => cases indexNdv figures <;> rfl
      · simp only [hlead, if_false, decide_false]
        exact ih fun i hi => hsome i (List.mem_cons_of_mem _ hi)

section Keys

variable {casefold : String → String} {catalog : Catalog} {table : TableSchema}

/-- Deriving the distinct values of a column raises what reading its average raises. -/
theorem leadingNdv_sound (hmoderate : Moderate stats size table (catalog.indexesFor casefold table.name))
    (hsound : SoundIndexes casefold table (catalog.indexesFor casefold table.name)) (column : String) :
    SameErrors (leadingNdv casefold catalog stats table column)
        (readAll stats (leadingReads casefold catalog table column)) ∧
      ∀ ndv, leadingNdv casefold catalog stats table column = .ok ndv → ∀ n ∈ ndv, 1 ≤ n := by
  rw [leadingNdv, leadingNdvOf_eq fun index hindex => (hsound index hindex).1, leadingReads]
  cases hlead : leadingIndex casefold (catalog.indexesFor casefold table.name) column with
  | none =>
      refine ⟨SameErrors.of_ok rfl rfl, ?_⟩
      intro ndv h
      cases h
      simp
  | some index =>
      have hindex : index ∈ catalog.indexesFor casefold table.name := List.mem_of_find?_eq_some hlead
      have hne : ∀ figures, stats.indexStats index = .ok figures → figures.rowsPerPrefix ≠ [] := by
        intro figures hfigures
        obtain ⟨-, hlength, -⟩ := hmoderate.index index hindex figures hfigures
        have hcolumns := List.length_pos_iff.mpr (hsound index hindex).1
        exact List.length_pos_iff.mp (by omega)
      simp only [Option.map_some, Option.toList_some, readAll_singleton, StatRead.check]
      constructor
      · apply (SameErrors.refl _).bind
        intro figures figures' hfigures hfigures'
        rw [hfigures] at hfigures'
        cases hfigures'
        have hndv := (indexNdv_sound (hne figures hfigures)).1
        rw [← bind_pure_comp]
        exact hndv.bind_ok fun ndv _ => ⟨some ndv, rfl⟩
      · intro ndv h n hn
        obtain ⟨figures, hfigures, h⟩ := bind_eq_ok h
        rw [← bind_pure_comp] at h
        obtain ⟨ndv', hndv', h⟩ := bind_eq_ok h
        cases h
        cases hn
        exact (indexNdv_sound (hne figures hfigures)).2 _ hndv'

theorem one_le_assumedNdv {rows : Int} {ndv : Option Int} (h : ∀ n ∈ ndv, 1 ≤ n) : 1 ≤ assumedNdv rows ndv := by
  cases ndv with
  | none => exact le_max_left ..
  | some n => exact h n rfl

/-- An equijoin has no more rows than the product of its sides, and one at least. -/
theorem estimateEquijoinRows_le {left right : Int} {leftNdv rightNdv : Option Int}
    (hleft : ∀ n ∈ leftNdv, 1 ≤ n) :
    (estimateEquijoinRows left right leftNdv rightNdv).natAbs ≤ max 1 (left.natAbs * right.natAbs) := by
  have hone : 1 ≤ max (assumedNdv left leftNdv) (assumedNdv right rightNdv) :=
    (one_le_assumedNdv hleft).trans (le_max_left ..)
  have hdiv := Int.natAbs_ediv_le_natAbs (left * right) (max (assumedNdv left leftNdv) (assumedNdv right rightNdv))
  rw [Int.natAbs_mul] at hdiv
  rw [estimateEquijoinRows, Int.fdiv_eq_ediv_of_nonneg _ (by omega)]
  omega

/-- The averages that the join key of a step divides by. -/
def keyReads (casefold : String → String) (catalog : Catalog) (scopes : List TableScope) (table : TableSchema)
    (predicates : List (Object Predicate)) : List StatRead :=
  match equijoinOf predicates with
  | none => []
  | some (column, value) =>
      leadingReads casefold catalog table column ++
        scopes[value.tableOrdinal]?.toList.flatMap fun outer => leadingReads casefold catalog outer.table value.name

/-- A table that the planner can place. -/
structure SoundScope (casefold : String → String) (catalog : Catalog) (stats : StatsSource) (size : Nat)
    (scope : TableScope) : Prop where
  moderate : Moderate stats size scope.table (catalog.indexesFor casefold scope.table.name)
  sound : SoundIndexes casefold scope.table (catalog.indexesFor casefold scope.table.name)

theorem joinedRowEstimate_sound {scopes : List TableScope} {scope : TableScope} (hscope : scope ∈ scopes)
    (hsound : ∀ scope ∈ scopes, SoundScope casefold catalog stats size scope) {outerRows innerRows : Int}
    {predicates : List (Object Predicate)}
    (hkey : ∀ column value, equijoinOf predicates = some (column, value) → value.tableOrdinal < scopes.length) :
    SameErrors (joinedRowEstimate casefold catalog stats scopes outerRows scope.table innerRows predicates)
        (readAll stats (keyReads casefold catalog scopes scope.table predicates)) ∧
      ∀ rows, joinedRowEstimate casefold catalog stats scopes outerRows scope.table innerRows predicates = .ok rows →
        rows.natAbs ≤ max 1 (outerRows.natAbs * innerRows.natAbs) := by
  rw [joinedRowEstimate, keyReads]
  cases hkeys : equijoinOf predicates with
  | none =>
      refine ⟨SameErrors.of_ok rfl rfl, ?_⟩
      intro rows h
      cases h
      rw [← Int.natAbs_mul]
      omega
  | some key =>
      obtain ⟨column, value⟩ := key
      have hlt := hkey column value hkeys
      have houter : scopes[value.tableOrdinal]? = some scopes[value.tableOrdinal] := List.getElem?_eq_getElem hlt
      have hscopeAt : scopeAt scopes value.tableOrdinal = .ok scopes[value.tableOrdinal] := by
        rw [scopeAt, houter]
      have hinnerSound := hsound scope hscope
      have houterSound := hsound _ (List.getElem_mem hlt)
      obtain ⟨hinner, -⟩ := leadingNdv_sound hinnerSound.moderate hinnerSound.sound column
      obtain ⟨houterNdv, hpositive⟩ := leadingNdv_sound houterSound.moderate houterSound.sound value.name
      simp only [houter, Option.toList_some, List.flatMap_singleton, readAll_append]
      constructor
      · apply hinner.bind
        intro innerNdv u _ _
        rw [hscopeAt, ok_bind]
        exact houterNdv.bind_ok fun outerNdv _ => ⟨_, rfl⟩
      · intro rows h
        obtain ⟨innerNdv, -, h⟩ := bind_eq_ok h
        rw [hscopeAt, ok_bind] at h
        obtain ⟨outerNdv, hndv, h⟩ := bind_eq_ok h
        cases h
        exact estimateEquijoinRows_le (hpositive outerNdv hndv)

end Keys

/-! ## Steps -/

theorem value_referenced {expr : BoundExpression} {tableOrdinal : Nat} {p : Predicate} {c : BoundColumn}
    (h : classifyPredicate expr tableOrdinal = some p) (hvalue : p.value = .column c) :
    c.tableOrdinal ∈ referencedTables expr := by
  unfold classifyPredicate at h
  split at h
  · split at h
    · cases h
    · obtain ⟨column, -, rfl⟩ := Option.map_eq_some_iff.mp h
      cases hvalue
  · split at h
    · split at h
      · cases h
      · cases h
        cases hvalue
    · cases h
  · split at h
    · cases h
    · split at h
      · cases h
        obtain rfl := hvalue
        simp [referencedTables]
      · split at h
        · cases h
          obtain rfl := hvalue
          simp [referencedTables]
        · cases h
  · cases h

/-- The key of a step is a column of a table that is there. -/
theorem equijoinOf_available {conjuncts : List (Object BoundExpression)} {joins : List BoundJoin}
    {position tableOrdinal : Nat} {available used : List Nat} {column : String} {value : BoundColumn}
    (h : equijoinOf (stepPredicates joins conjuncts position available used tableOrdinal).1 = some (column, value)) :
    value.tableOrdinal ∈ tableOrdinal :: available := by
  obtain ⟨p, hp, hkey⟩ := List.exists_of_findSome?_eq_some h
  have hvalue : p.val.value = .column value := by
    split at hkey
    · rename_i hcolumn
      cases hkey
      exact hcolumn
    · cases hkey
  rw [stepPredicates] at hp
  split at hp
  · cases hp
  · rw [predicatesForStep] at hp
    obtain ⟨conjunct, hconjunct, hclassified⟩ := List.mem_filterMap.mp hp
    obtain ⟨predicate, hpredicate, rfl⟩ := Option.map_eq_some_iff.mp hclassified
    have husable := (List.mem_filter.mp hconjunct).2
    rw [Bool.and_eq_true] at husable
    have hall := List.all_eq_true.mp husable.2 _ (value_referenced hpredicate hvalue)
    simpa using hall

section Steps

variable {casefold : String → String} {catalog : Catalog}

/-- The steps of a join order: what each position places, and its predicates. -/
def stepsFrom (joins : List BoundJoin) (conjuncts : List (Object BoundExpression)) :
    Nat → List Nat → List Nat → List Nat → List (Nat × Nat × List (Object Predicate))
  | _, _, _, [] => []
  | position, available, used, tableOrdinal :: order =>
      let step := stepPredicates joins conjuncts position available used tableOrdinal
      (position, tableOrdinal, step.1) ::
        stepsFrom joins conjuncts (position + 1) (available ++ [tableOrdinal]) (used ++ step.2) order

/-- The figures of a table and its indexes. -/
def figureReads (casefold : String → String) (catalog : Catalog) (table : TableSchema) : List StatRead :=
  .tableFigures table.name :: (catalog.indexesFor casefold table.name).map .indexFigures

/-- What a step reads: the figures of its table, and behind the first step the averages
that its join key divides by. -/
def stepReads (casefold : String → String) (catalog : Catalog) (scopes : List TableScope)
    (step : Nat × Nat × List (Object Predicate)) : List StatRead :=
  match scopes[step.2.1]? with
  | none => []
  | some scope =>
      figureReads casefold catalog scope.table ++
        if step.1 = 0 then [] else keyReads casefold catalog scopes scope.table step.2.2

/-- The cheapest path of a table. -/
theorem cheapestPath_sound (hops : ops.Converts) (hone : 1 ≤ size) (hsize : size ≤ estimateLimit)
    {scope : TableScope} (hscope : SoundScope casefold catalog stats size scope)
    (htable : stats.tableStats scope.table.name = .ok tableStats) (predicates : List (Object Predicate))
    (tableOrdinal : Nat) :
    SameErrors (cheapestPath ops casefold catalog stats scope.table predicates tableStats tableOrdinal)
        (readAll stats ((catalog.indexesFor casefold scope.table.name).map .indexFigures)) ∧
      ∀ path, cheapestPath ops casefold catalog stats scope.table predicates tableStats tableOrdinal = .ok path →
        path.estRows.natAbs ≤ size := by
  obtain ⟨hcosted, hranges⟩ := @costedPaths_sound ops stats tableStats size casefold catalog scope.table predicates
    tableOrdinal hops hone hsize hscope.moderate htable hscope.sound
  have hchoose : ∀ costed,
      costedPaths ops casefold catalog stats scope.table predicates tableStats tableOrdinal = .ok costed →
        ∃ path ∈ costed, chooseAccessPath ops costed [] = .ok path ∧ path.estRows.natAbs ≤ size := by
    intro costed h
    obtain ⟨hne, hrange⟩ := hranges costed h
    have hsmall : ∀ c ∈ costed, c.estRows.natAbs ≤ size := by
      intro c hc
      obtain ⟨path, hpath⟩ := hrange c hc
      exact hpath.estRows
    obtain ⟨path, hmem, hpath⟩ := @chooseBy_ok ops CostedPath hops CostedPath.cost (fun path => path.outputOrder)
      (fun path => path.estRows) costed hne (fun c hc => (hsmall c hc).trans hsize) []
    exact ⟨path, hmem, hpath, hsmall path hmem⟩
  constructor
  · apply hcosted.bind_ok
    intro costed h
    obtain ⟨path, -, hpath, -⟩ := hchoose costed h
    exact ⟨path, hpath⟩
  · intro path h
    obtain ⟨costed, hcosted, h⟩ := bind_eq_ok h
    obtain ⟨path', -, hpath', hsmall⟩ := hchoose costed hcosted
    rw [hpath'] at h
    cases h
    exact hsmall

variable {scopes : List TableScope} {joins : List BoundJoin} {conjuncts : List (Object BoundExpression)}

theorem stepMatch_ok (hjoins : joins.length + 1 = scopes.length) {position : Nat} (hfirst : position ≠ 0)
    (hposition : position < scopes.length) (cross : List BoundExpression) :
    ∃ matched, stepMatch joins position cross = .ok matched := by
  rw [stepMatch]
  split
  · exact ⟨_, rfl⟩
  · have hlt : position - 1 < joins.length := by omega
    have hjoin : joinAt joins (position - 1) = .ok joins[position - 1] := by
      rw [joinAt, List.getElem?_eq_getElem hlt]
    exact ⟨_, bind_eq_ok_iff.mpr ⟨_, hjoin, rfl⟩⟩

/-- A later position: it raises what its join key raises. -/
theorem placeNext_sound (hops : ops.Converts)
    (hsound : ∀ scope ∈ scopes, SoundScope casefold catalog stats size scope)
    (hjoins : joins.length + 1 = scopes.length) {placed : Placed} {tableOrdinal : Nat}
    {step : List (Object Predicate) × List Nat} {path : CostedPath} {scope : TableScope} (hscope : scope ∈ scopes)
    (hfirst : placed.accessPaths ≠ []) (hposition : placed.accessPaths.length < scopes.length)
    (hrows : placed.estRows.natAbs ≤ estimateLimit) {rowCount : Int}
    (hkey : ∀ column value, equijoinOf step.1 = some (column, value) → value.tableOrdinal < scopes.length) :
    SameErrors (placeNext ops casefold catalog stats scopes joins placed tableOrdinal step path scope.table rowCount)
        (readAll stats (keyReads casefold catalog scopes scope.table step.1)) ∧
      ∀ placed', placeNext ops casefold catalog stats scopes joins placed tableOrdinal step path scope.table rowCount =
        .ok placed' → placed'.estRows.natAbs ≤ max 1 (placed.estRows.natAbs * rowCount.natAbs) ∧
          placed'.accessPaths.length = placed.accessPaths.length + 1 ∧
          placed'.available = placed.available ++ [tableOrdinal] ∧ placed'.used = placed.used ++ step.2 := by
  have hlength : placed.accessPaths.length ≠ 0 := fun h => hfirst (List.length_eq_zero_iff.mp h)
  obtain ⟨matched, hmatched⟩ := stepMatch_ok hjoins hlength hposition (crossTableResidual tableOrdinal path)
  obtain ⟨outerCost, houterCost⟩ := timesInt_ok hops path.cost.total (hrows.trans estimateLimit_le)
  obtain ⟨hestimate, hbound⟩ := @joinedRowEstimate_sound stats size casefold catalog scopes scope hscope hsound
    placed.estRows rowCount step.1 hkey
  rw [placeNext, hmatched, ok_bind, houterCost, ok_bind]
  constructor
  · exact hestimate.bind_ok fun rows _ => ⟨_, rfl⟩
  · intro placed' h
    obtain ⟨rows, hestimated, h⟩ := bind_eq_ok h
    cases h
    exact ⟨hbound rows hestimated, by simp, rfl, rfl⟩

/-- One step: it raises what its reads raise, and multiplies the estimate by a count at most. -/
theorem placeTable_sound (hops : ops.Converts) (hone : 1 ≤ size) (hsize : size ≤ estimateLimit)
    (hsound : ∀ scope ∈ scopes, SoundScope casefold catalog stats size scope)
    (hjoins : joins.length + 1 = scopes.length) {placed : Placed} {tableOrdinal : Nat}
    (htableOrdinal : tableOrdinal < scopes.length) (hposition : placed.accessPaths.length < scopes.length)
    (hrows : placed.estRows.natAbs ≤ estimateLimit) (havailable : ∀ t ∈ placed.available, t < scopes.length) :
    SameErrors (placeTable ops casefold catalog stats scopes joins conjuncts placed tableOrdinal)
        (readAll stats (stepReads casefold catalog scopes (placed.accessPaths.length, tableOrdinal,
          (stepPredicates joins conjuncts placed.accessPaths.length placed.available placed.used tableOrdinal).1))) ∧
      ∀ placed', placeTable ops casefold catalog stats scopes joins conjuncts placed tableOrdinal = .ok placed' →
        (placed.estRows.natAbs ≤ size ^ placed.accessPaths.length →
          placed'.estRows.natAbs ≤ size ^ (placed.accessPaths.length + 1)) ∧
          placed'.accessPaths.length = placed.accessPaths.length + 1 ∧
          placed'.available = placed.available ++ [tableOrdinal] ∧
          placed'.used = placed.used ++
            (stepPredicates joins conjuncts placed.accessPaths.length placed.available placed.used tableOrdinal).2 := by
  have hat : scopes[tableOrdinal]? = some scopes[tableOrdinal] := List.getElem?_eq_getElem htableOrdinal
  have hscopeAt : scopeAt scopes tableOrdinal = .ok scopes[tableOrdinal] := by
    rw [scopeAt, hat]
  have hscope : scopes[tableOrdinal] ∈ scopes := List.getElem_mem htableOrdinal
  have hkey : ∀ column value, equijoinOf (stepPredicates joins conjuncts placed.accessPaths.length
      placed.available placed.used tableOrdinal).1 = some (column, value) → value.tableOrdinal < scopes.length := by
    intro column value h
    rcases List.mem_cons.mp (equijoinOf_available h) with hvalue | hvalue
    · omega
    · exact havailable _ hvalue
  rw [placeTable, hscopeAt, ok_bind]
  generalize stepPredicates joins conjuncts placed.accessPaths.length placed.available placed.used tableOrdinal = step
    at hkey ⊢
  have hreads : stepReads casefold catalog scopes (placed.accessPaths.length, tableOrdinal, step.1) =
      figureReads casefold catalog scopes[tableOrdinal].table ++ if placed.accessPaths.length = 0 then []
        else keyReads casefold catalog scopes scopes[tableOrdinal].table step.1 := by
    simp only [stepReads, hat]
  rw [hreads, figureReads, List.cons_append, readAll_cons, readAll_append, StatRead.check]
  cases htable : stats.tableStats scopes[tableOrdinal].table.name with
  | error e => exact ⟨SameErrors.of_error e, fun placed' h => by cases h⟩
  | ok tableStats =>
      have hsoundScope := hsound _ hscope
      obtain ⟨hcheapest, hsmall⟩ := cheapestPath_sound hops hone hsize hsoundScope htable step.1 tableOrdinal
      have hrowCount := (hsoundScope.moderate.table tableStats htable).2
      rw [ok_bind]
      by_cases hfirst : placed.accessPaths = []
      · simp only [hfirst, if_true, List.length_nil]
        constructor
        · apply hcheapest.bind
          intro path u _ _
          exact SameErrors.of_ok rfl rfl
        · intro placed' h
          obtain ⟨path, hpath, h⟩ := bind_eq_ok h
          cases h
          refine ⟨fun _ => ?_, rfl, rfl, rfl⟩
          simpa [placeFirst] using hsmall path hpath
      · have hlength : placed.accessPaths.length ≠ 0 := fun h => hfirst (List.length_eq_zero_iff.mp h)
        simp only [hfirst, hlength, if_false]
        have hnext := fun path => @placeNext_sound ops stats size casefold catalog scopes joins hops
          hsound hjoins placed tableOrdinal step path scopes[tableOrdinal] hscope hfirst hposition hrows
          tableStats.rowCount hkey
        constructor
        · apply hcheapest.bind
          intro path u _ _
          exact (hnext path).1
        · intro placed' h
          obtain ⟨path, -, h⟩ := bind_eq_ok h
          obtain ⟨hbound, hplaced'⟩ := (hnext path).2 placed' h
          refine ⟨fun hpow => hbound.trans (max_le (Nat.one_le_pow _ size hone) ?_), hplaced'⟩
          rw [Nat.pow_succ]
          exact Nat.mul_le_mul hpow hrowCount

theorem available_concat {available : List Nat} {tableOrdinal count : Nat} (h : ∀ t ∈ available, t < count)
    (hlast : tableOrdinal < count) : ∀ t ∈ available ++ [tableOrdinal], t < count := by
  intro t ht
  rcases List.mem_append.mp ht with ht | ht
  · exact h t ht
  · rw [List.mem_singleton.mp ht]
    exact hlast

/-- No estimate that is formed along an order is beyond the range of the floats. -/
def EstimatesFit (ops : CostOps) (casefold : String → String) (catalog : Catalog) (stats : StatsSource)
    (scopes : List TableScope) (joins : List BoundJoin) (conjuncts : List (Object BoundExpression)) (placed : Placed)
    (order : List Nat) : Prop :=
  ∀ taken rest placed', order = taken ++ rest →
    taken.foldlM (placeTable ops casefold catalog stats scopes joins conjuncts) placed = .ok placed' →
      placed'.estRows.natAbs ≤ estimateLimit

theorem EstimatesFit.head {placed : Placed} {order : List Nat}
    (h : EstimatesFit ops casefold catalog stats scopes joins conjuncts placed order) :
    placed.estRows.natAbs ≤ estimateLimit :=
  h [] order placed rfl rfl

theorem EstimatesFit.tail {placed placed' : Placed} {tableOrdinal : Nat} {order : List Nat}
    (h : EstimatesFit ops casefold catalog stats scopes joins conjuncts placed (tableOrdinal :: order))
    (hstep : placeTable ops casefold catalog stats scopes joins conjuncts placed tableOrdinal = .ok placed') :
    EstimatesFit ops casefold catalog stats scopes joins conjuncts placed' order := by
  intro taken rest placed'' hsplit hrun
  refine h (tableOrdinal :: taken) rest placed'' (congrArg _ hsplit) ?_
  rw [List.foldlM_cons, hstep]
  exact hrun

/-- Counts whose power is in range are enough. -/
theorem estimatesFit_of_counts (hops : ops.Converts) (hone : 1 ≤ size)
    (hlimit : size ^ scopes.length ≤ estimateLimit)
    (hsound : ∀ scope ∈ scopes, SoundScope casefold catalog stats size scope)
    (hjoins : joins.length + 1 = scopes.length) {order : List Nat} (horder : ∀ t ∈ order, t < scopes.length)
    {placed : Placed} (hlength : placed.accessPaths.length + order.length ≤ scopes.length)
    (hrows : placed.estRows.natAbs ≤ size ^ placed.accessPaths.length)
    (havailable : ∀ t ∈ placed.available, t < scopes.length) :
    EstimatesFit ops casefold catalog stats scopes joins conjuncts placed order := by
  have hpow : ∀ {n}, n ≤ scopes.length → size ^ n ≤ estimateLimit :=
    fun hn => (Nat.pow_le_pow_right hone hn).trans hlimit
  induction order generalizing placed with
  | nil =>
      intro taken rest placed' hsplit hrun
      obtain ⟨rfl, -⟩ := List.append_eq_nil_iff.mp hsplit.symm
      cases hrun
      exact hrows.trans (hpow (by omega))
  | cons tableOrdinal order ih =>
      intro taken rest placed' hsplit hrun
      rw [List.length_cons] at hlength
      cases taken with
      | nil =>
          cases hrun
          exact hrows.trans (hpow (by omega))
      | cons first taken =>
          obtain ⟨rfl, hbehind⟩ := List.cons.inj hsplit
          have hhere := horder tableOrdinal (List.mem_cons_self ..)
          have hsize : size ≤ estimateLimit := (Nat.le_self_pow (by omega) size).trans hlimit
          rw [List.foldlM_cons] at hrun
          obtain ⟨placed₁, hplaced₁, hrun⟩ := bind_eq_ok hrun
          obtain ⟨hrows₁, hlength₁, havailable₁, -⟩ := (placeTable_sound hops hone hsize hsound hjoins hhere
            (by omega) (hrows.trans (hpow (by omega))) havailable).2 placed₁ hplaced₁
          refine ih (fun t ht => horder t (List.mem_cons_of_mem _ ht)) (by omega) ?_ ?_ taken rest placed' hbehind hrun
          · rw [hlength₁]
            exact hrows₁ hrows
          · rw [havailable₁]
            exact available_concat havailable hhere

/-- The loop over the positions. -/
theorem placeTables_sound (hops : ops.Converts) (hone : 1 ≤ size) (hsize : size ≤ estimateLimit)
    (hsound : ∀ scope ∈ scopes, SoundScope casefold catalog stats size scope)
    (hjoins : joins.length + 1 = scopes.length) {order : List Nat} (horder : ∀ t ∈ order, t < scopes.length)
    {placed : Placed} (hlength : placed.accessPaths.length + order.length ≤ scopes.length)
    (hestimates : EstimatesFit ops casefold catalog stats scopes joins conjuncts placed order)
    (havailable : ∀ t ∈ placed.available, t < scopes.length) :
    SameErrors (order.foldlM (placeTable ops casefold catalog stats scopes joins conjuncts) placed)
        (readAll stats ((stepsFrom joins conjuncts placed.accessPaths.length placed.available placed.used
          order).flatMap (stepReads casefold catalog scopes))) ∧
      ∀ placed', order.foldlM (placeTable ops casefold catalog stats scopes joins conjuncts) placed = .ok placed' →
        placed'.accessPaths.length = placed.accessPaths.length + order.length := by
  induction order generalizing placed with
  | nil =>
      refine ⟨SameErrors.of_ok rfl rfl, ?_⟩
      intro placed' h
      cases h
      rfl
  | cons tableOrdinal order ih =>
      rw [List.length_cons] at hlength
      have hhere := horder tableOrdinal (List.mem_cons_self ..)
      have hrest : ∀ t ∈ order, t < scopes.length := fun t ht => horder t (List.mem_cons_of_mem _ ht)
      obtain ⟨hstep, hnext⟩ := @placeTable_sound ops stats size casefold catalog scopes joins conjuncts hops hone
        hsize hsound hjoins placed tableOrdinal hhere (by omega) hestimates.head havailable
      have htail := fun placed' (hplaced' : placeTable ops casefold catalog stats scopes joins conjuncts placed
          tableOrdinal = .ok placed') =>
        have hafter := (hnext placed' hplaced').2
        ih hrest (by omega) (hestimates.tail hplaced') (hafter.2.1 ▸ available_concat havailable hhere)
      rw [List.foldlM_cons, stepsFrom, List.flatMap_cons, readAll_append]
      constructor
      · apply hstep.bind
        intro placed' u hplaced' _
        obtain ⟨-, hlength', havailable', hused'⟩ := hnext placed' hplaced'
        have hsame := (htail placed' hplaced').1
        rwa [hlength', havailable', hused'] at hsame
      · intro placed' h
        obtain ⟨placed₁, hplaced₁, h⟩ := bind_eq_ok h
        obtain ⟨-, hlength₁, -, -⟩ := hnext placed₁ hplaced₁
        have hlength' := (htail placed₁ hplaced₁).2 placed' h
        rw [List.length_cons]
        omega

/-! ## Orders -/

theorem picks_perm {α : Type} {xs : List α} {p : α × List α} (hp : p ∈ picks xs) : (p.1 :: p.2).Perm xs := by
  induction xs generalizing p with
  | nil => cases hp
  | cons x xs ih =>
      rcases List.mem_cons.mp hp with rfl | hp
      · exact List.Perm.refl _
      · obtain ⟨q, hq, rfl⟩ := List.mem_map.mp hp
        exact (List.Perm.swap x q.1 q.2).trans ((ih hq).cons x)

theorem permutationsOf_perm {α : Type} {n : Nat} {xs ys : List α} (hlength : xs.length = n)
    (hys : ys ∈ permutationsOf n xs) : ys.Perm xs := by
  induction n generalizing xs ys with
  | zero =>
      rw [permutationsOf, List.mem_singleton] at hys
      rw [hys, List.length_eq_zero_iff.mp hlength]
  | succ n ih =>
      rw [permutationsOf, List.mem_flatMap] at hys
      obtain ⟨p, hp, hys⟩ := hys
      obtain ⟨rest, hrest, rfl⟩ := List.mem_map.mp hys
      have hperm := picks_perm hp
      have hlen := hperm.length_eq
      rw [List.length_cons] at hlen
      exact ((ih (by omega) hrest).cons p.1).trans hperm

/-- The order in which the tables are written is one of them, the first one. -/
theorem permutationsOf_ne_nil {α : Type} {n : Nat} {xs : List α} (hlength : xs.length = n) :
    permutationsOf n xs ≠ [] := by
  induction n generalizing xs with
  | zero => simp [permutationsOf]
  | succ n ih =>
      cases xs with
      | nil => cases hlength
      | cons x xs =>
          rw [List.length_cons] at hlength
          obtain ⟨order, orders, horders⟩ := List.exists_cons_of_ne_nil (@ih xs (by omega))
          simp [permutationsOf, picks, horders]

theorem joinOrders_ne_nil (scopes : List TableScope) (joins : List BoundJoin) : joinOrders scopes joins ≠ [] := by
  rw [joinOrders]
  split
  · exact permutationsOf_ne_nil List.length_range
  · simp

theorem joinOrders_perm {order : List Nat} (h : order ∈ joinOrders scopes joins) :
    order.Perm (List.range scopes.length) := by
  rw [joinOrders] at h
  split at h
  · exact permutationsOf_perm List.length_range h
  · rw [List.mem_singleton.mp h]

/-! ## Plans -/

/-- What is read for a join order, in turn. -/
def orderReads (casefold : String → String) (catalog : Catalog) (scopes : List TableScope) (joins : List BoundJoin)
    (condition : Option BoundExpression) (order : List Nat) : List StatRead :=
  (stepsFrom joins (conjunctObjects joins condition) 0 [] (preconsumed joins condition) order).flatMap
    (stepReads casefold catalog scopes)

/-- What planning a join reads, in turn: the query and the schema decide it. -/
def planReads (casefold : String → String) (catalog : Catalog) (scopes : List TableScope) (joins : List BoundJoin)
    (condition : Option BoundExpression) : List StatRead :=
  (joinOrders scopes joins).flatMap (orderReads casefold catalog scopes joins condition)

/-- Where the loop over the positions starts. -/
def unplaced (joins : List BoundJoin) (condition : Option BoundExpression) : Placed :=
  ⟨preconsumed joins condition, [], [], [.inner], [none], 1, 0, 0⟩

/-- No estimate that planning a join forms is beyond the range of the floats. -/
def EstimatesWithin (ops : CostOps) (casefold : String → String) (catalog : Catalog) (stats : StatsSource)
    (scopes : List TableScope) (joins : List BoundJoin) (condition : Option BoundExpression) : Prop :=
  ∀ order ∈ joinOrders scopes joins, EstimatesFit ops casefold catalog stats scopes joins
    (conjunctObjects joins condition) (unplaced joins condition) order

theorem mem_joinOrders {order : List Nat} (h : order ∈ joinOrders scopes joins) :
    order.length = scopes.length ∧ ∀ t ∈ order, t < scopes.length := by
  have hperm := joinOrders_perm h
  refine ⟨by rw [hperm.length_eq, List.length_range], fun t ht => ?_⟩
  exact List.mem_range.mp (hperm.mem_iff.mp ht)

theorem estimatesWithin_of_counts (hops : ops.Converts) (hone : 1 ≤ size)
    (hlimit : size ^ scopes.length ≤ estimateLimit)
    (hsound : ∀ scope ∈ scopes, SoundScope casefold catalog stats size scope)
    (hjoins : joins.length + 1 = scopes.length) (condition : Option BoundExpression) :
    EstimatesWithin ops casefold catalog stats scopes joins condition := by
  intro order horder
  obtain ⟨hlength, hrange⟩ := mem_joinOrders horder
  exact estimatesFit_of_counts hops hone hlimit hsound hjoins hrange (by simp [unplaced, hlength])
    (by simp [unplaced]) (by simp [unplaced])

theorem buildCandidate_sound (hops : ops.Converts) (hone : 1 ≤ size) (hsize : size ≤ estimateLimit)
    (hsound : ∀ scope ∈ scopes, SoundScope casefold catalog stats size scope)
    (hjoins : joins.length + 1 = scopes.length) {condition : Option BoundExpression}
    (hestimates : EstimatesWithin ops casefold catalog stats scopes joins condition) {order : List Nat}
    (horder : order ∈ joinOrders scopes joins) :
    SameErrors (buildCandidate ops casefold catalog stats scopes joins (conjunctObjects joins condition)
          (preconsumed joins condition) order)
        (readAll stats (orderReads casefold catalog scopes joins condition order)) ∧
      ∀ candidate, buildCandidate ops casefold catalog stats scopes joins (conjunctObjects joins condition)
          (preconsumed joins condition) order = .ok candidate → candidate.estRows.natAbs ≤ estimateLimit := by
  obtain ⟨hlength, hrange⟩ := mem_joinOrders horder
  obtain ⟨hplace, hplaced⟩ := placeTables_sound hops hone hsize hsound hjoins hrange
    (by simp [unplaced, hlength]) (hestimates order horder) (by simp [unplaced])
  have hdriving : ∀ placed, order.foldlM (placeTable ops casefold catalog stats scopes joins
      (conjunctObjects joins condition)) (unplaced joins condition) = .ok placed →
        ∃ driving rest, placed.accessPaths = driving :: rest := by
    intro placed h
    have hlen := hplaced placed h
    rw [hlength] at hlen
    exact List.exists_cons_of_length_pos (by omega)
  rw [buildCandidate, orderReads]
  constructor
  · apply hplace.bind_ok
    intro placed h
    obtain ⟨driving, rest, hpaths⟩ := hdriving placed h
    simp only [hpaths]
    exact ⟨_, rfl⟩
  · intro candidate h
    obtain ⟨placed, hp, h⟩ := bind_eq_ok h
    obtain ⟨driving, rest, hpaths⟩ := hdriving placed hp
    simp only [hpaths] at h
    cases h
    exact hestimates order horder order [] placed (List.append_nil order).symm hp

/-- Planning a join raises what its reads raise in turn. -/
theorem planJoin_sameErrors (hops : ops.Converts) (hone : 1 ≤ size) (hsize : size ≤ estimateLimit)
    (hsound : ∀ scope ∈ scopes, SoundScope casefold catalog stats size scope)
    (hjoins : joins.length + 1 = scopes.length) {condition : Option BoundExpression}
    (hestimates : EstimatesWithin ops casefold catalog stats scopes joins condition) (orderBy : List SortKey) :
    SameErrors (planJoin ops casefold catalog stats scopes joins condition orderBy)
      (readAll stats (planReads casefold catalog scopes joins condition)) := by
  have hbuild := fun order horder => @buildCandidate_sound ops stats size casefold catalog scopes joins hops hone
    hsize hsound hjoins condition hestimates order horder
  have hmany := SameErrors.mapM fun order horder => (hbuild order horder).1
  rw [planReads, readAll_flatMap]
  apply hmany.bind_ok
  intro candidates hcandidates
  have hpairs := mapM_ok hcandidates
  have hne : candidates ≠ [] := by
    intro hnil
    have hlen := hpairs.length_eq
    rw [hnil, List.length_nil, List.length_eq_zero_iff] at hlen
    exact joinOrders_ne_nil scopes joins hlen
  have hsmall : ∀ candidate ∈ candidates, candidate.estRows.natAbs ≤ estimateLimit := by
    intro candidate hmem
    obtain ⟨order, horder, hcandidate⟩ := exists_left hpairs hmem
    exact (hbuild order horder).2 candidate hcandidate
  obtain ⟨candidate, -, hchosen⟩ := @chooseBy_ok ops PlanCandidate hops PlanCandidate.cost PlanCandidate.outputOrder
    PlanCandidate.estRows candidates hne hsmall orderBy
  exact ⟨candidate, hchosen⟩

/-- Choosing the path of one table raises what reading its figures raises in turn. -/
theorem singleTablePath_sameErrors (hops : ops.Converts) (hone : 1 ≤ size) (hlimit : size ≤ estimateLimit)
    {scope : TableScope} (hscope : SoundScope casefold catalog stats size scope)
    (condition : Option BoundExpression) (orderBy : List SortKey) :
    SameErrors (singleTablePath ops casefold catalog stats scope.table condition orderBy)
      (readAll stats (figureReads casefold catalog scope.table)) := by
  rw [singleTablePath, figureReads, readAll_cons, StatRead.check]
  cases htable : stats.tableStats scope.table.name with
  | error e => exact SameErrors.of_error e
  | ok tableStats =>
      obtain ⟨hcosted, hranges⟩ := @costedPaths_sound ops stats tableStats size casefold catalog scope.table
        (classifiedPredicates (extractConjuncts condition) 0) 0 hops hone hlimit hscope.moderate htable hscope.sound
      rw [ok_bind]
      apply hcosted.bind_ok
      intro costed h
      obtain ⟨hne, hrange⟩ := hranges costed h
      have hsmall : ∀ c ∈ costed, c.estRows.natAbs ≤ estimateLimit := by
        intro c hc
        obtain ⟨path, hpath⟩ := hrange c hc
        exact hpath.estRows.trans hlimit
      obtain ⟨path, -, hpath⟩ := @chooseBy_ok ops CostedPath hops CostedPath.cost (fun path => path.outputOrder)
        (fun path => path.estRows) costed hne hsmall orderBy
      exact ⟨path, hpath⟩

end Steps

end Paths

end Planner

end QuillDb
