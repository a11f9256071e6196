/-
  Exec/Explain.lean --- which plans EXPLAIN can print.

  Source: `IndexScan.explain`, `_seek_value` and `_literal_sql` of
  `quilldb/exec/operators.py`, `Connection.execute` of `quilldb/api/connection.py`.

  EXPLAIN evaluates a seek value without a row outside.  What evaluates so is a constant,
  the same over every row; a column of an outer table is not.
-/
import QuillDb.Exec.Pulls
import QuillDb.Plan.AnyStatistics

set_option autoImplicit false

namespace QuillDb

open Fallible

/-! ## Constants -/

section Constants

variable {ops : FloatOps}

/-- What evaluates without a row has this value over every row. -/
theorem evaluate_of_nil {e : BoundExpression} {value : Value} (h : evaluate ops [] e = .ok value)
    (row : List Value) : evaluate ops row e = .ok value := by
  induction e generalizing value with
  | column c => simp [evaluate] at h
  | literal v => exact h
  | isNull operand negated ih =>
      obtain ⟨v, hv, h⟩ := bind_eq_ok h
      exact bind_eq_ok_iff.mpr ⟨v, ih hv, h⟩
  | unaryOp operator operand ih =>
      obtain ⟨v, hv, h⟩ := bind_eq_ok h
      exact bind_eq_ok_iff.mpr ⟨v, ih hv, h⟩
  | binaryOp left operator right ihLeft ihRight =>
      by_cases hand : operator = .and
      · subst hand
        obtain ⟨l, hl, h⟩ := bind_eq_ok h
        refine bind_eq_ok_iff.mpr ⟨l, ihLeft hl, ?_⟩
        simp only at h ⊢
        split at h
        · rename_i hfalse
          rw [if_pos hfalse]
          exact h
        · rename_i hfalse
          rw [if_neg hfalse]
          obtain ⟨r, hr, h⟩ := bind_eq_ok h
          exact bind_eq_ok_iff.mpr ⟨r, ihRight hr, h⟩
      · by_cases hor : operator = .or
        · subst hor
          obtain ⟨l, hl, h⟩ := bind_eq_ok h
          refine bind_eq_ok_iff.mpr ⟨l, ihLeft hl, ?_⟩
          simp only at h ⊢
          split at h
          · rename_i htrue
            rw [if_pos htrue]
            exact h
          · rename_i htrue
            rw [if_neg htrue]
            obtain ⟨r, hr, h⟩ := bind_eq_ok h
            exact bind_eq_ok_iff.mpr ⟨r, ihRight hr, h⟩
        · rw [evaluate_binary hand hor] at h ⊢
          obtain ⟨l, hl, h⟩ := bind_eq_ok h
          obtain ⟨r, hr, h⟩ := bind_eq_ok h
          exact bind_eq_ok_iff.mpr ⟨l, ihLeft hl, bind_eq_ok_iff.mpr ⟨r, ihRight hr, h⟩⟩

end Constants

/-- No more digits than Python prints. -/
def Prints (n : Int) : Prop := n.natAbs < 10 ^ PyText.intMaxStrDigits

def Value.Prints : Value → Prop
  | .int n => QuillDb.Prints n
  | _ => True

/-- The value of a seek term is a constant, and prints. -/
def ConstantSeek (ops : FloatOps) (p : Object Predicate) : Prop :=
  ∃ value : Value, value.Prints ∧ ∀ outer, seekValue ops outer p = .ok value

/-! ## Lines -/

section Lines

variable {rendering : Rendering} {ops : FloatOps}

theorem pyStr_ok_iff {n : Int} : (∃ text, pyStr n = .ok text) ↔ Prints n := by
  rw [pyStr, Prints]
  split <;> simp_all

theorem literalSql_ok_iff {value : Value} : (∃ text, literalSql rendering value = .ok text) ↔ value.Prints := by
  cases value with
  | int n => exact pyStr_ok_iff
  | null => simp [literalSql, Value.Prints]
  | real bits => simp [literalSql, Value.Prints]
  | text s => simp [literalSql, Value.Prints]
  | blob bytes => simp [literalSql, Value.Prints]

/-- A seek term prints exactly when it has a constant that does. -/
theorem termSql_ok_iff {p : Object Predicate} : (∃ text, termSql rendering ops p = .ok text) ↔ ConstantSeek ops p := by
  constructor
  · rintro ⟨text, h⟩
    obtain ⟨value, hvalue, h⟩ := bind_eq_ok h
    obtain ⟨literal, hliteral, -⟩ := bind_eq_ok h
    exact ⟨value, literalSql_ok_iff.mp ⟨literal, hliteral⟩, evaluate_of_nil hvalue⟩
  · rintro ⟨value, hprints, hvalue⟩
    obtain ⟨literal, hliteral⟩ := literalSql_ok_iff.mpr hprints
    exact ⟨_, bind_eq_ok_iff.mpr ⟨value, hvalue [], bind_eq_ok_iff.mpr ⟨literal, hliteral, rfl⟩⟩⟩

theorem seekSql_ok_iff {terms : List (Object Predicate)} :
    (∃ text, seekSql rendering ops terms = .ok text) ↔ ∀ p ∈ terms, ConstantSeek ops p := by
  rw [seekSql]
  split
  · rename_i hnil
    simp [hnil]
  · have hterms : (∃ texts, terms.mapM (termSql rendering ops) = .ok texts) ↔ ∀ p ∈ terms, ConstantSeek ops p := by
      simp only [mapM_eq_ok_iff, exists_forall₂_iff, termSql_ok_iff]
    rw [← hterms]
    constructor
    · rintro ⟨text, h⟩
      obtain ⟨texts, htexts, -⟩ := bind_eq_ok h
      exact ⟨texts, htexts⟩
    · rintro ⟨texts, htexts⟩
      exact ⟨_, bind_eq_ok_iff.mpr ⟨texts, htexts, rfl⟩⟩

/-- The line of an index scan. -/
theorem indexScanLabel_ok_iff {path : CostedPath} :
    (∃ label, indexScanLabel rendering ops true path = .ok label) ↔
      (∀ p ∈ path.seekTerms, ConstantSeek ops p) ∧ Prints path.estRows := by
  rw [indexScanLabel, if_neg (by simp), ← @seekSql_ok_iff rendering, ← pyStr_ok_iff]
  constructor
  · rintro ⟨label, h⟩
    obtain ⟨seek, hseek, h⟩ := bind_eq_ok h
    obtain ⟨estRows, hestRows, -⟩ := bind_eq_ok h
    exact ⟨⟨seek, hseek⟩, estRows, hestRows⟩
  · rintro ⟨⟨seek, hseek⟩, estRows, hestRows⟩
    exact ⟨_, bind_eq_ok_iff.mpr ⟨seek, hseek, bind_eq_ok_iff.mpr ⟨estRows, hestRows, rfl⟩⟩⟩

theorem limitPart_ok_iff {word : String} {count : Option Nat} :
    (∃ text, limitPart word count = .ok text) ↔ ∀ n ∈ count, Prints n := by
  cases count with
  | none => simp [limitPart]
  | some n =>
      simp only [limitPart, Option.mem_def, Option.some.injEq, forall_eq', ← pyStr_ok_iff]
      cases pyStr n <;> simp [Functor.map, Except.map]

/-- The counts of a LIMIT and an OFFSET that are there. -/
def limitCounts (limit : Option Nat) (offset : Nat) : List Nat :=
  limit.toList ++ if offset = 0 then [] else [offset]

theorem limitLabel_ok_iff {limit : Option Nat} {offset : Nat} :
    (∃ label, limitLabel limit offset = .ok label) ↔ ∀ n ∈ limitCounts limit offset, Prints n := by
  have hcounts : (∀ n ∈ limitCounts limit offset, Prints n) ↔ (∀ n ∈ limit, Prints n) ∧
      ∀ n ∈ (if offset = 0 then none else some offset), Prints (n : Nat) := by
    rw [limitCounts]
    split <;> simp [or_imp, forall_and]
  rw [hcounts, ← @limitPart_ok_iff " ", ← @limitPart_ok_iff " OFFSET "]
  constructor
  · rintro ⟨label, h⟩
    obtain ⟨taken, htaken, h⟩ := bind_eq_ok h
    obtain ⟨skipped, hskipped, -⟩ := bind_eq_ok h
    exact ⟨⟨taken, htaken⟩, skipped, hskipped⟩
  · rintro ⟨⟨taken, htaken⟩, skipped, hskipped⟩
    exact ⟨_, bind_eq_ok_iff.mpr ⟨taken, htaken, bind_eq_ok_iff.mpr ⟨skipped, hskipped, rfl⟩⟩⟩

end Lines

/-! ## Trees -/

namespace Operator

/-- The index scans of a tree. -/
def indexScans : Operator → List CostedPath
  | .seqScan _ => []
  | .indexScan _ path => [path]
  | .filter child _ | .project child _ | .distinct child | .sort child _ | .limit child _ _ => child.indexScans
  | .nestedLoopJoin outer inner _ _ _ => outer.indexScans ++ inner.indexScans

/-- The counts of its LIMITs. -/
def limits : Operator → List Nat
  | .seqScan _ | .indexScan _ _ => []
  | .filter child _ | .project child _ | .distinct child | .sort child _ => child.limits
  | .limit child count offset => limitCounts count offset ++ child.limits
  | .nestedLoopJoin outer inner _ _ _ => outer.limits ++ inner.limits

/-- Every line of the tree prints. -/
def Printable (ops : FloatOps) (operator : Operator) : Prop :=
  (∀ path ∈ operator.indexScans, (∀ p ∈ path.seekTerms, ConstantSeek ops p) ∧ Prints path.estRows) ∧
    ∀ n ∈ operator.limits, Prints n

section Explain

variable {rendering : Rendering} {ops : FloatOps}

/-- A line above the text of a tree. -/
theorem below_ok_iff {r : Except DbError String} {line : String → String} :
    (∃ text, (r >>= fun below => (.ok (line below) : Except DbError String)) = .ok text) ↔ ∃ text, r = .ok text := by
  cases r with
  | ok below => simp [bind, Except.bind]
  | error e => simp [bind, Except.bind]

/-- EXPLAIN prints a tree exactly when it prints each of its lines. -/
theorem explain_ok_iff (operator : Operator) (depth : Nat) :
    (∃ text, operator.explain rendering ops true depth = .ok text) ↔ operator.Printable ops := by
  induction operator generalizing depth with
  | seqScan table => simp [explain, Printable, indexScans, limits]
  | indexScan table path =>
      simp only [explain, below_ok_iff, Printable, indexScans, limits, List.forall_mem_singleton, List.not_mem_nil,
        false_implies, implies_true, and_true]
      exact indexScanLabel_ok_iff
  | filter child _ ih | project child _ ih | distinct child ih | sort child _ ih =>
      simp only [explain, below_ok_iff]
      exact ih (depth + 1)
  | limit child count offset ih =>
      have hlabel := @limitLabel_ok_iff count offset
      have hsplit : (Operator.limit child count offset).Printable ops ↔
          (∀ n ∈ limitCounts count offset, Prints n) ∧ child.Printable ops := by
        simp only [Printable, indexScans, limits, List.forall_mem_append]
        tauto
      rw [hsplit, ← hlabel, ← ih (depth + 1)]
      constructor
      · rintro ⟨text, h⟩
        obtain ⟨label, hlabel, h⟩ := bind_eq_ok h
        obtain ⟨below, hbelow, -⟩ := bind_eq_ok h
        exact ⟨⟨label, hlabel⟩, below, hbelow⟩
      · rintro ⟨⟨label, hlabel⟩, below, hbelow⟩
        exact ⟨_, bind_eq_ok_iff.mpr ⟨label, hlabel, bind_eq_ok_iff.mpr ⟨below, hbelow, rfl⟩⟩⟩
  | nestedLoopJoin outer inner on_ innerWidth joinType ihOuter ihInner =>
      have hsplit : (Operator.nestedLoopJoin outer inner on_ innerWidth joinType).Printable ops ↔
          outer.Printable ops ∧ inner.Printable ops := by
        simp only [Printable, indexScans, limits, List.forall_mem_append]
        tauto
      rw [hsplit, ← ihOuter (depth + 1), ← ihInner (depth + 1)]
      constructor
      · rintro ⟨text, h⟩
        obtain ⟨above, habove, h⟩ := bind_eq_ok h
        obtain ⟨below, hbelow, -⟩ := bind_eq_ok h
        exact ⟨⟨above, habove⟩, below, hbelow⟩
      · rintro ⟨⟨above, habove⟩, below, hbelow⟩
        exact ⟨_, bind_eq_ok_iff.mpr ⟨above, habove, bind_eq_ok_iff.mpr ⟨below, hbelow, rfl⟩⟩⟩

end Explain

/-! ## What is in a plan -/

/-- The scan of a path is in the tree where the path walks an index. -/
theorem indexScans_scan (table : TableSchema) (path : CostedPath) :
    (scan table path).indexScans = [path].filter (fun path => path.kind = .indexScan) ∧
      (scan table path).limits = [] := by
  unfold scan
  split <;> rename_i hkind <;> simp [indexScans, limits, hkind]

theorem indexScans_filtered (child : Operator) (predicate : Option BoundExpression) :
    (child.filtered predicate).indexScans = child.indexScans ∧ (child.filtered predicate).limits = child.limits := by
  cases predicate <;> exact ⟨rfl, rfl⟩

theorem indexScans_applyOrderLimit (source : Operator) (visibleCount : Nat) (orderBy : List BoundOrderKey)
    (hiddenOrderBy : List BoundExpression) (limit : Option Nat) (offset : Nat) (skipSort : Bool) :
    (source.applyOrderLimit visibleCount orderBy hiddenOrderBy limit offset skipSort).indexScans =
        source.indexScans ∧
      (source.applyOrderLimit visibleCount orderBy hiddenOrderBy limit offset skipSort).limits =
        limitCounts limit offset ++ source.limits := by
  have hsorted : ∀ c : Prop, [Decidable c] → (if c then Operator.sort source orderBy else source).indexScans =
      source.indexScans ∧ (if c then Operator.sort source orderBy else source).limits = source.limits := by
    intro c _
    split <;> exact ⟨rfl, rfl⟩
  have hstripped : ∀ (c : Prop) (child : Operator), [Decidable c] →
      (if c then stripHiddenColumns child visibleCount else child).indexScans = child.indexScans ∧
        (if c then stripHiddenColumns child visibleCount else child).limits = child.limits := by
    intro c child _
    split <;> exact ⟨rfl, rfl⟩
  rw [applyOrderLimit]
  split
  · simp only [indexScans, limits, (hstripped _ _).1, (hstripped _ _).2, (hsorted _).1, (hsorted _).2]
    exact ⟨trivial, trivial⟩
  · rename_i hnone
    rw [not_or, not_not, Bool.not_eq_true, Option.isSome_eq_false_iff, Option.isNone_iff_eq_none] at hnone
    simp only [(hstripped _ _).1, (hstripped _ _).2, (hsorted _).1, (hsorted _).2, hnone, limitCounts]
    simp

end Operator

/-! ## Estimates print -/

/-- An integer that a float takes has few digits. -/
def CostOps.Bounded (ops : CostOps) : Prop := ∀ n bits, ops.ofInt n = some bits → n.natAbs < floatLimit

theorem two_pow_mul_le {a b c : Nat} (h : a + b ≤ c) : 2 ^ a * 2 ^ b ≤ 10 ^ c := by
  rw [← Nat.pow_add]
  exact (Nat.pow_le_pow_left (by decide) _).trans (Nat.pow_le_pow_right (by decide) h)

theorem floatLimit_le : floatLimit ≤ 10 ^ PyText.intMaxStrDigits := by
  rw [floatLimit]
  exact (Nat.mul_le_mul_right _ (Nat.sub_le ..)).trans (two_pow_mul_le (by decide))

namespace Planner

section Costed

variable {ops : CostOps} {stats : StatsSource} {tableStats : TableStats}

/-- The rows that a path reads went through a float, and no more of them survive. -/
def Converted (ops : CostOps) (path : CostedPath) : Prop :=
  ∃ bits, ops.ofInt path.rowsFetched = some bits ∧ path.estRows.natAbs ≤ path.rowsFetched.natAbs

theorem Converted.prints (hops : ops.Bounded) {path : CostedPath} (h : Converted ops path) : Prints path.estRows := by
  obtain ⟨bits, hbits, hle⟩ := h
  exact (hle.trans_lt (hops _ _ hbits)).trans_le floatLimit_le

theorem converted_of_costPath {path : AccessPath} {costed : CostedPath}
    (h : costPath ops stats tableStats path = .ok costed) : Converted ops costed := by
  obtain ⟨indexStats, -, h⟩ := bind_eq_ok h
  obtain ⟨estimated, hestimated, h⟩ := bind_eq_ok h
  obtain ⟨cost, -, h⟩ := bind_eq_ok h
  cases h
  obtain ⟨fetched, -, hestimated⟩ := bind_eq_ok hestimated
  obtain ⟨bits, hbits, hestimated⟩ := bind_eq_ok hestimated
  obtain ⟨surviving, -, hestimated⟩ := bind_eq_ok hestimated
  cases hestimated
  have hof : ops.ofInt fetched = some bits := by
    rw [floatOfInt] at hbits
    split at hbits
    · rename_i hsome
      cases hbits
      exact hsome
    · cases hbits
  refine ⟨bits, hof, ?_⟩
  simp only
  omega

theorem mem_of_minBy {α : Type} {key : α → Except DbError (BitVec 64)} {candidates : List α} {candidate : α}
    (h : minBy key candidates = .ok candidate) : candidate ∈ candidates := by
  obtain ⟨keyed, hkeyed, h⟩ := bind_eq_ok h
  have hfst : ∀ p ∈ keyed, p.1 ∈ candidates := by
    intro p hp
    obtain ⟨c, hc, hpair⟩ := exists_left (mapM_ok hkeyed) hp
    obtain ⟨cost, -, hpair⟩ := bind_eq_ok hpair
    cases hpair
    exact hc
  cases keyed with
  | nil => cases h
  | cons first rest =>
      cases h
      obtain ⟨p, hp, heq⟩ := List.mem_map.mp (cheapestFrom_mem first rest)
      rw [← heq]
      exact hfst p hp

theorem mem_of_chooseBy {α : Type} {cost : α → PlanCost} {outputOrder : α → List SortKey} {estRows : α → Int}
    {candidates : List α} {orderBy : List SortKey} {candidate : α}
    (h : chooseBy ops cost outputOrder estRows candidates orderBy = .ok candidate) : candidate ∈ candidates := by
  unfold chooseBy at h
  split at h
  · exact mem_of_minBy h
  · exact mem_of_minBy h

variable {casefold : String → String} {catalog : Catalog} {table : TableSchema}

theorem converted_of_costedPaths {predicates : List (Object Predicate)} {tableOrdinal : Nat}
    {costed : List CostedPath}
    (h : costedPaths ops casefold catalog stats table predicates tableStats tableOrdinal = .ok costed) :
    ∀ path ∈ costed, Converted ops path := by
  intro path hpath
  obtain ⟨candidates, -, h⟩ := bind_eq_ok h
  obtain ⟨candidate, -, hcosted⟩ := exists_left (mapM_ok h) hpath
  exact converted_of_costPath hcosted

theorem converted_of_singleTablePath {condition : Option BoundExpression} {orderBy : List SortKey}
    {path : CostedPath} (h : singleTablePath ops casefold catalog stats table condition orderBy = .ok path) :
    Converted ops path := by
  obtain ⟨figures, -, h⟩ := bind_eq_ok h
  obtain ⟨costed, hcosted, h⟩ := bind_eq_ok h
  exact converted_of_costedPaths hcosted path (mem_of_chooseBy h)

theorem converted_of_cheapestPath {predicates : List (Object Predicate)} {tableOrdinal : Nat} {path : CostedPath}
    (h : cheapestPath ops casefold catalog stats table predicates tableStats tableOrdinal = .ok path) :
    Converted ops path := by
  obtain ⟨costed, hcosted, h⟩ := bind_eq_ok h
  exact converted_of_costedPaths hcosted path (mem_of_chooseBy h)

variable {scopes : List TableScope} {joins : List BoundJoin} {conjuncts : List (Object BoundExpression)}

/-- One step keeps it. -/
theorem converted_of_placeTable {placed placed' : Placed} {tableOrdinal : Nat}
    (hplaced : ∀ path ∈ placed.accessPaths, Converted ops path)
    (h : placeTable ops casefold catalog stats scopes joins conjuncts placed tableOrdinal = .ok placed') :
    ∀ path ∈ placed'.accessPaths, Converted ops path := by
  obtain ⟨scope, -, h⟩ := bind_eq_ok h
  obtain ⟨figures, -, h⟩ := bind_eq_ok h
  obtain ⟨path, hpath, h⟩ := bind_eq_ok h
  have hconverted := converted_of_cheapestPath hpath
  split at h
  · cases h
    rw [placeFirst, List.forall_mem_singleton]
    exact hconverted
  · obtain ⟨matched, -, h⟩ := bind_eq_ok h
    obtain ⟨outerCost, -, h⟩ := bind_eq_ok h
    obtain ⟨rows, -, h⟩ := bind_eq_ok h
    cases h
    rw [List.forall_mem_append, List.forall_mem_singleton]
    exact ⟨hplaced, hconverted⟩

theorem converted_of_placeTables {order : List Nat} {placed placed' : Placed}
    (hplaced : ∀ path ∈ placed.accessPaths, Converted ops path)
    (h : order.foldlM (placeTable ops casefold catalog stats scopes joins conjuncts) placed = .ok placed') :
    ∀ path ∈ placed'.accessPaths, Converted ops path := by
  induction order generalizing placed with
  | nil =>
      cases h
      exact hplaced
  | cons tableOrdinal order ih =>
      obtain ⟨placed₁, hplaced₁, h⟩ := bind_eq_ok h
      exact ih (converted_of_placeTable hplaced hplaced₁) h

/-- Every path of a chosen plan. -/
theorem converted_of_planJoin {condition : Option BoundExpression} {orderBy : List SortKey}
    {candidate : PlanCandidate}
    (h : planJoin ops casefold catalog stats scopes joins condition orderBy = .ok candidate) :
    ∀ path ∈ candidate.accessPaths, Converted ops path := by
  obtain ⟨candidates, hcandidates, h⟩ := bind_eq_ok h
  obtain ⟨order, -, hbuilt⟩ := exists_left (mapM_ok hcandidates) (mem_of_chooseBy h)
  obtain ⟨placed, hplaced, hbuilt⟩ := bind_eq_ok hbuilt
  have hpaths := converted_of_placeTables (by simp) hplaced
  split at hbuilt
  · cases hbuilt
  · cases hbuilt
    exact hpaths

end Costed

end Planner

/-! ## Plans -/

/-- What EXPLAIN takes. -/
inductive BoundExplain where
  | select (statement : BoundSelect)
  | joinSelect (statement : BoundJoinSelect)

/-- The counts of LIMIT and OFFSET that are there. -/
def BoundExplain.limits : BoundExplain → List Nat
  | .select statement => limitCounts statement.limit statement.offset
  | .joinSelect statement => limitCounts statement.limit statement.offset

section Plans

variable (ops : CostOps) (casefold : String → String) (catalog : Catalog) (stats : Planner.StatsSource)

/-- `build_operator`, of a SELECT. -/
def buildOperator : BoundExplain → Except DbError Operator
  | .select statement => buildSelect ops casefold catalog stats statement
  | .joinSelect statement => buildJoin ops casefold catalog stats statement

/-- The paths that the planner chooses. -/
def plannedPaths : BoundExplain → Except DbError (List CostedPath)
  | .select statement => do
      let sortKeys ← orderBySortKeys statement.expressions statement.hiddenOrderBy statement.orderBy
      let path ← Planner.singleTablePath ops casefold catalog stats statement.table statement.where_ sortKeys
      .ok [path]
  | .joinSelect statement => do
      let candidate ← Planner.planJoin ops casefold catalog stats statement.scopes statement.joins statement.where_
        statement.orderBy
      .ok (candidate.steps.map PlanStep.path)

/-- The seeks of a plan have constants, which print. -/
def ConstantSeeks (ops : FloatOps) (paths : List CostedPath) : Prop :=
  ∀ path ∈ paths, path.kind = .indexScan → ∀ p ∈ path.seekTerms, ConstantSeek ops p

end Plans

/-- The index scans of a tree are those among the paths, and its LIMITs have these counts. -/
structure Operator.Scans (operator : Operator) (paths : List CostedPath) (counts : List Nat) : Prop where
  indexScans : operator.indexScans = paths.filter fun path => path.kind = .indexScan
  limits : operator.limits = counts

/-- The same of the tree so far; at the start there is none. -/
def Assembled.Scans (assembled : Assembled) (paths : List CostedPath) : Prop :=
  (assembled.source = none ∧ paths = []) ∨ ∃ source, assembled.source = some source ∧ source.Scans paths []

section Built

variable {ops : CostOps} {casefold : String → String} {catalog : Catalog} {stats : Planner.StatsSource}

theorem Operator.Scans.filtered {operator : Operator} {paths : List CostedPath} {counts : List Nat}
    (h : operator.Scans paths counts) (predicate : Option BoundExpression) :
    (operator.filtered predicate).Scans paths counts := by
  obtain ⟨hscans, hlimits⟩ := Operator.indexScans_filtered operator predicate
  exact ⟨hscans.trans h.indexScans, hlimits.trans h.limits⟩

theorem Operator.Scans.applyOrderLimit {operator : Operator} {paths : List CostedPath} (h : operator.Scans paths [])
    (visibleCount : Nat) (orderBy : List BoundOrderKey) (hiddenOrderBy : List BoundExpression) (limit : Option Nat)
    (offset : Nat) (skipSort : Bool) :
    (operator.applyOrderLimit visibleCount orderBy hiddenOrderBy limit offset skipSort).Scans paths
      (limitCounts limit offset) := by
  obtain ⟨hscans, hlimits⟩ := Operator.indexScans_applyOrderLimit operator visibleCount orderBy hiddenOrderBy limit
    offset skipSort
  refine ⟨hscans.trans h.indexScans, hlimits.trans ?_⟩
  rw [h.limits, List.append_nil]

theorem scan_scans (table : TableSchema) (path : CostedPath) : (Operator.scan table path).Scans [path] [] := by
  obtain ⟨hscans, hlimits⟩ := Operator.indexScans_scan table path
  exact ⟨hscans, hlimits⟩

theorem buildSelect_scans {statement : BoundSelect} {operator : Operator}
    (h : buildSelect ops casefold catalog stats statement = .ok operator) :
    ∃ paths, plannedPaths ops casefold catalog stats (.select statement) = .ok paths ∧
      operator.Scans paths (limitCounts statement.limit statement.offset) ∧
        ∀ path ∈ paths, Planner.Converted ops path := by
  obtain ⟨sortKeys, hsortKeys, h⟩ := bind_eq_ok h
  obtain ⟨⟨source, path⟩, hsource, h⟩ := bind_eq_ok h
  obtain ⟨skip, -, h⟩ := bind_eq_ok h
  obtain ⟨path₁, hpath, hsource⟩ := bind_eq_ok hsource
  cases hsource
  cases h
  refine ⟨[path], bind_eq_ok_iff.mpr ⟨sortKeys, hsortKeys, bind_eq_ok_iff.mpr ⟨path, hpath, rfl⟩⟩, ?_, ?_⟩
  · apply Operator.Scans.applyOrderLimit
    have hscan := (scan_scans statement.table path).filtered
      (residualFilterExpression (nonSargable statement.where_) path.residual)
    split
    · exact ⟨hscan.indexScans, hscan.limits⟩
    · exact ⟨hscan.indexScans, hscan.limits⟩
  · rw [List.forall_mem_singleton]
    exact Planner.converted_of_singleTablePath hpath

theorem buildScan_scans {scope : TableScope} {step : PlanStep} {scan : Operator}
    (h : buildScan scope step = .ok scan) : scan.Scans [step.path] [] := by
  obtain ⟨ownFilter, -, h⟩ := bind_eq_ok h
  cases h
  exact (scan_scans scope.table step.path).filtered ownFilter

/-- One position adds its path. -/
theorem assemble_scans {scopes : List TableScope} {assembled assembled' : Assembled} {step : PlanStep}
    {paths : List CostedPath} (hscans : assembled.Scans paths) (h : assemble scopes assembled step = .ok assembled') :
    assembled'.Scans (paths ++ [step.path]) := by
  obtain ⟨scope, -, h⟩ := bind_eq_ok h
  obtain ⟨scan, hscan, h⟩ := bind_eq_ok h
  obtain ⟨source, hsource, h⟩ := bind_eq_ok h
  cases h
  have hinner := buildScan_scans hscan
  refine .inr ⟨source, rfl, ?_⟩
  rcases hscans with ⟨hnone, rfl⟩ | ⟨outer, hsome, houter⟩
  · rw [hnone] at hsource
    cases hsource
    exact hinner
  · rw [hsome] at hsource
    obtain ⟨resolvedMatch, -, hsource⟩ := bind_eq_ok hsource
    cases hsource
    constructor
    · rw [Operator.indexScans, houter.indexScans, hinner.indexScans, List.filter_append]
    · rw [Operator.limits, houter.limits, hinner.limits, List.append_nil]

/-- The loop over the positions. -/
theorem assembleAll_scans {scopes : List TableScope} {steps : List PlanStep} {assembled assembled' : Assembled}
    {paths : List CostedPath} (hscans : assembled.Scans paths)
    (h : steps.foldlM (assemble scopes) assembled = .ok assembled') :
    assembled'.Scans (paths ++ steps.map PlanStep.path) := by
  induction steps generalizing assembled paths with
  | nil =>
      cases h
      simpa using hscans
  | cons step steps ih =>
      obtain ⟨assembled₁, hassembled₁, h⟩ := bind_eq_ok h
      have hrest := ih (assemble_scans hscans hassembled₁) h
      rwa [List.append_assoc] at hrest

theorem buildPlan_scans {statement : BoundJoinSelect} {candidate : PlanCandidate} {operator : Operator}
    (h : buildPlan ops statement candidate = .ok operator) :
    operator.Scans (candidate.steps.map PlanStep.path) (limitCounts statement.limit statement.offset) := by
  obtain ⟨assembled, hassembled, h⟩ := bind_eq_ok h
  have hscans := @assembleAll_scans statement.scopes candidate.steps ⟨none, [], 0⟩ assembled [] (.inl ⟨rfl, rfl⟩)
    hassembled
  rcases hscans with ⟨hnone, -⟩ | ⟨source, hsome, hsource⟩
  · rw [hnone] at h
    cases h
  · rw [hsome] at h
    obtain ⟨residual, -, h⟩ := bind_eq_ok h
    obtain ⟨expressions, -, h⟩ := bind_eq_ok h
    obtain ⟨⟨orderBy, hiddenOrderBy⟩, -, h⟩ := bind_eq_ok h
    obtain ⟨skip, -, h⟩ := bind_eq_ok h
    cases h
    apply Operator.Scans.applyOrderLimit
    have hfiltered := hsource.filtered residual
    exact ⟨hfiltered.indexScans, hfiltered.limits⟩

theorem steps_path_mem {candidate : PlanCandidate} {path : CostedPath}
    (h : path ∈ candidate.steps.map PlanStep.path) : path ∈ candidate.accessPaths := by
  simp only [PlanCandidate.steps, List.map_map, List.mem_map] at h
  obtain ⟨p, hp, rfl⟩ := h
  exact (List.of_mem_zip (List.of_mem_zip hp).2).1

/-- The tree of a statement walks the indexes that were planned. -/
theorem buildOperator_scans {statement : BoundExplain} {operator : Operator}
    (h : buildOperator ops casefold catalog stats statement = .ok operator) :
    ∃ paths, plannedPaths ops casefold catalog stats statement = .ok paths ∧
      operator.Scans paths statement.limits ∧ ∀ path ∈ paths, Planner.Converted ops path := by
  cases statement with
  | select statement => exact buildSelect_scans h
  | joinSelect statement =>
      obtain ⟨candidate, hcandidate, h⟩ := bind_eq_ok h
      refine ⟨candidate.steps.map PlanStep.path, bind_eq_ok_iff.mpr ⟨candidate, hcandidate, rfl⟩, buildPlan_scans h, ?_⟩
      intro path hpath
      exact Planner.converted_of_planJoin hcandidate path (steps_path_mem hpath)

/-- EXPLAIN of a planned SELECT succeeds exactly when the seeks have constants and every
integer prints; among the statements that run without an error, too. -/
theorem explain_any_plan (hops : ops.Bounded) (rendering : Rendering) {statement : BoundExplain} {operator : Operator}
    (h : buildOperator ops casefold catalog stats statement = .ok operator) :
    ∃ paths, plannedPaths ops casefold catalog stats statement = .ok paths ∧
      ((∃ text, operator.explain rendering ops.toFloatOps true 0 = .ok text) ↔
        ConstantSeeks ops.toFloatOps paths ∧ ∀ n ∈ statement.limits, Prints n) ∧
      ∀ s sameRow, (operator.Runs ops.toFloatOps s sameRow →
          ∃ text, operator.explain rendering ops.toFloatOps true 0 = .ok text) ↔
        (operator.Runs ops.toFloatOps s sameRow →
          ConstantSeeks ops.toFloatOps paths ∧ ∀ n ∈ statement.limits, Prints n) := by
  obtain ⟨paths, hpaths, hscans, hconverted⟩ := buildOperator_scans h
  have hexplain : (∃ text, operator.explain rendering ops.toFloatOps true 0 = .ok text) ↔
      ConstantSeeks ops.toFloatOps paths ∧ ∀ n ∈ statement.limits, Prints n := by
    rw [Operator.explain_ok_iff, Operator.Printable, hscans.limits, hscans.indexScans]
    apply and_congr_left'
    simp only [List.mem_filter, decide_eq_true_eq, ConstantSeeks, and_imp]
    constructor
    · intro hlines path hpath hkind
      exact (hlines path hpath hkind).1
    · intro hseeks path hpath hkind
      exact ⟨hseeks path hpath hkind, (hconverted path hpath).prints hops⟩
  exact ⟨paths, hpaths, hexplain, fun s sameRow => imp_congr_right fun _ => hexplain⟩

end Built

/-! ## A seek on a column of an outer table -/

section Shop

open Planner

/-- `SELECT u.id, o.user_id FROM u JOIN o ON o.user_id = u.id`. -/
def ordersQuery : BoundExplain :=
  .joinSelect ⟨shopScopes, ordersOfUsers, [.column ⟨0, "id", .integer, 0⟩, .column ⟨0, "user_id", .integer, 1⟩], none,
    [], none, 0⟩

/-- `SELECT user_id FROM o WHERE user_id = 7`. -/
def ordersOfSeven : BoundExplain :=
  .select ⟨ordersTable, [.column ⟨0, "user_id", .integer, 0⟩],
    some (.binaryOp (.column ⟨0, "user_id", .integer, 0⟩) .eq (.literal (.int 7))), false, [], [], none, 0⟩

/-- A row with the value 1 in each table, and its entry in the index. -/
def shopPages : PageStore where
  pageCount := 5
  freelistTrunk := 0
  freelistCount := 0
  pages id :=
    if id = 5 then .body (.indexLeaf [⟨3, [3, 9, 9], 0⟩]) else .body (.tableLeaf [⟨1, 2, [2, 9], 0⟩])

def plainRendering : Rendering := ⟨fun _ => "", fun _ => "", fun _ => ""⟩

/-- The tree of a statement about the shop, without statistics. -/
def shopTree (statement : BoundExplain) : Except DbError Operator :=
  buildOperator roundingFloats lowerText.casefold shop (statisticsCatalog lowerText shop []) statement

theorem ordersQuery_tree : (shopTree ordersQuery >>= fun operator =>
    operator.explain plainRendering roundingFloats.toFloatOps false 0) =
      .ok "Project\n└─ NestedLoopJoin\n   └─ SeqScan u\n   └─ IndexScan o_user" := by
  decide +kernel

theorem ordersQuery_raises : (shopTree ordersQuery >>= fun operator =>
    operator.explain plainRendering roundingFloats.toFloatOps true 0) =
      .error (.columnNotFound "column id is at index 0 but the row has only 0 values") := by
  decide +kernel

/-- The plan seeks on a column of the outer table: it runs, and EXPLAIN of it raises. -/
theorem explain_raises_on_outer_column :
    ∃ operator, shopTree ordersQuery = .ok operator ∧
      operator.explain plainRendering roundingFloats.toFloatOps false 0 =
        .ok "Project\n└─ NestedLoopJoin\n   └─ SeqScan u\n   └─ IndexScan o_user" ∧
      operator.pulls roundingFloats.toFloatOps shopPages (· = ·) [] = [.ok [.int 1, .int 1]] ∧
      operator.Runs roundingFloats.toFloatOps shopPages (· = ·) ∧
      operator.explain plainRendering roundingFloats.toFloatOps true 0 =
        .error (.columnNotFound "column id is at index 0 but the row has only 0 values") := by
  have hpulls : (shopTree ordersQuery >>= fun operator =>
      .ok (operator.pulls roundingFloats.toFloatOps shopPages (· = ·) [])) = .ok [.ok [.int 1, .int 1]] := by
    decide +kernel
  have hverbose := ordersQuery_raises
  obtain ⟨operator, hoperator, hterse⟩ := bind_eq_ok ordersQuery_tree
  rw [hoperator, ok_bind] at hpulls hverbose
  have hrows := Except.ok.inj hpulls
  refine ⟨operator, hoperator, hterse, hrows, ?_, hverbose⟩
  rw [Operator.Runs, hrows, List.forall_mem_singleton]
  exact ⟨_, rfl⟩

theorem roundingFloats_bounded : roundingFloats.Bounded := by
  intro n bits h
  exact (roundingFloats_ofInt.mp h).1

/-- A seek to a constant is explained, one to a column of the outer table is not. -/
theorem explain_any_plan_orders :
    (∃ paths, plannedPaths roundingFloats lowerText.casefold shop (statisticsCatalog lowerText shop [])
      ordersOfSeven = .ok paths ∧ ConstantSeeks roundingFloats.toFloatOps paths) ∧
    ∃ paths, plannedPaths roundingFloats lowerText.casefold shop (statisticsCatalog lowerText shop [])
      ordersQuery = .ok paths ∧ ¬ ConstantSeeks roundingFloats.toFloatOps paths := by
  have hverbose : (shopTree ordersOfSeven >>= fun operator =>
      operator.explain plainRendering roundingFloats.toFloatOps true 0) =
        .ok "Project\n└─ IndexScan o_user (user_id = 7) est_rows=10 startup= cost=" := by
    decide +kernel
  obtain ⟨operator, hoperator, htext⟩ := bind_eq_ok hverbose
  obtain ⟨paths, hpaths, hexplain, -⟩ := explain_any_plan roundingFloats_bounded plainRendering hoperator
  have hraises := ordersQuery_raises
  obtain ⟨joined, hjoined, -⟩ := bind_eq_ok ordersQuery_tree
  rw [hjoined, ok_bind] at hraises
  obtain ⟨joinPaths, hjoinPaths, hjoinExplain, -⟩ :=
    explain_any_plan roundingFloats_bounded plainRendering hjoined
  refine ⟨⟨paths, hpaths, (hexplain.mp ⟨_, htext⟩).1⟩, joinPaths, hjoinPaths, fun hseeks => ?_⟩
  obtain ⟨text, htext⟩ := hjoinExplain.mpr ⟨hseeks, nofun⟩
  rw [hraises] at htext
  cases htext

end Shop

end QuillDb
