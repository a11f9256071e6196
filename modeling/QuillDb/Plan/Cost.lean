/-
  Plan/Cost.lean --- row estimates and costs of access paths.

  Source: `index_ndv`, `_assumed_ndv`, `estimate_equijoin_rows` and `estimate_row_counts` of
  `quilldb/plan/statistics.py`; `assign_cost` of `quilldb/plan/cost.py`.

  Counts are integers and costs are floats.  Every integer that meets a float is
  converted first, and Python raises where the integer is too large for one.
-/
import QuillDb.Plan.Planner
import QuillDb.Plan.Stat1

set_option autoImplicit false

namespace QuillDb

open Fallible

/-- The float arithmetic of the cost model. -/
structure CostOps extends FloatOps where
  /-- `(1 / 3) ** n` -/
  third : Nat → BitVec 64
  /-- `math.ceil(x)` -/
  ceil : BitVec 64 → Option Int
  /-- `math.log2(n)` of an integer from 2 on -/
  log2 : Int → BitVec 64

/-- `PlanCost`. -/
structure PlanCost where
  startup : BitVec 64
  total : BitVec 64
  deriving DecidableEq

/-- `AccessPath` after the second stage. -/
structure EstimatedPath extends AccessPath where
  rowsFetched : Int
  estRows : Int
  deriving DecidableEq

/-- `AccessPath` after the third stage. -/
structure CostedPath extends EstimatedPath where
  cost : PlanCost
  deriving DecidableEq

namespace Planner

/-! ## Distinct values -/

/-- `index_ndv`. -/
def indexNdv (stats : IndexStats) : Except DbError Int :=
  match stats.rowsPerPrefix[0]? with
  | none => .error (.indexError "tuple index out of range")
  | some average =>
      if average = 0 then .error (.zeroDivision "integer division or modulo by zero")
      else .ok (max 1 (stats.rowCount.fdiv average))

/-- `_assumed_ndv`. -/
def assumedNdv (rows : Int) : Option Int → Int
  | some ndv => ndv
  | none => max 1 (rows.fdiv defaultRowsPerValue)

/-- `estimate_equijoin_rows`. -/
def estimateEquijoinRows (leftRows rightRows : Int) (leftNdv rightNdv : Option Int) : Int :=
  let maxNdv := max (assumedNdv leftRows leftNdv) (assumedNdv rightRows rightNdv)
  max 1 ((leftRows * rightRows).fdiv maxNdv)

/-! ## Rows -/

section Estimates

variable (ops : CostOps)

/-- The rows that an access path reads. -/
def rowsFetched (path : AccessPath) (stats : Option IndexStats) (tableStats : TableStats) : Except DbError Int :=
  if path.kind = .indexScan ∧ path.seekTerms ≠ [] then
    match stats with
    | none => .ok 1
    | some stats =>
        let columns := (path.seekTerms.map fun p => p.val.column).dedup
        match stats.rowsPerPrefix[columns.length - 1]? with
        | none => .error (.indexError "tuple index out of range")
        | some average => .ok (max 1 average)
  else .ok tableStats.rowCount

/-- `estimate_row_counts`. -/
def estimateRowCounts (path : AccessPath) (stats : Option IndexStats) (tableStats : TableStats) :
    Except DbError EstimatedPath := do
  let rowsFetched ← rowsFetched path stats tableStats
  let fetched ← floatOfInt ops.toFloatOps rowsFetched
  let surviving ← toInt ops.toFloatOps (.real (ops.mul fetched (ops.third path.residual.length)))
  .ok { path with rowsFetched := rowsFetched, estRows := min rowsFetched (max 1 surviving) }

/-! ## Costs -/

/-- `SEQ_PAGE_COST`, `1.0`. -/
def seqPageCost : BitVec 64 := 0x3FF0000000000000

/-- `RANDOM_PAGE_COST`, `4.0`. -/
def randomPageCost : BitVec 64 := 0x4010000000000000

/-- `CPU_PER_ROW`, `0.01`. -/
def cpuPerRow : BitVec 64 := 0x3F847AE147AE147B

/-- A float times an integer. -/
def timesInt (x : BitVec 64) (n : Int) : Except DbError (BitVec 64) :=
  ops.mul x <$> floatOfInt ops.toFloatOps n

/-- `n / m`. -/
def trueDivide (n m : Int) : Except DbError (BitVec 64) :=
  if m = 0 then .error (.zeroDivision "division by zero")
  else
    match ops.intDiv n m with
    | some bits => .ok bits
    | none => .error (.overflowError "integer division result too large for a float")

/-- `math.ceil(x)`. -/
def ceiling (x : BitVec 64) : Except DbError Int :=
  match ops.ceil x with
  | some n => .ok n
  | none =>
      if realNumber x = .nan then .error (.valueError "cannot convert float NaN to integer")
      else .error (.overflowError "cannot convert float infinity to integer")

/-- `leaf_pages_touched`. -/
def leafPagesTouched (rowsFetched : Int) (stats : IndexStats) : Except DbError Int :=
  if stats.rowCount = 0 then .ok 1
  else do
    let ratio ← trueDivide ops (stats.leafPages * rowsFetched) stats.rowCount
    let pages ← ceiling ops ratio
    .ok (max 1 pages)

/-- `assign_cost`: the cost of a walk over the table. -/
def seqScanCost (tableStats : TableStats) : Except DbError PlanCost := do
  let pages ← timesInt ops seqPageCost tableStats.pageCount
  let rows ← timesInt ops cpuPerRow tableStats.rowCount
  .ok ⟨0, ops.add 0 (ops.add pages rows)⟩

/-- `assign_cost`: the cost of a walk over an index. -/
def indexScanCost (rowsFetched : Int) (stats : IndexStats) (tableStats : TableStats) : Except DbError PlanCost := do
  let leafPages ← leafPagesTouched ops rowsFetched stats
  let leaves ← timesInt ops seqPageCost (leafPages - 1)
  let lookup ← timesInt ops randomPageCost tableStats.height
  let lookups ← timesInt ops lookup rowsFetched
  let rows ← timesInt ops cpuPerRow rowsFetched
  let startup ← timesInt ops randomPageCost stats.height
  .ok ⟨startup, ops.add startup (ops.add (ops.add leaves lookups) rows)⟩

/-- The cost of a path. -/
def pathCost (path : EstimatedPath) (stats : Option IndexStats) (tableStats : TableStats) : Except DbError PlanCost :=
  match path.kind, stats with
  | .seqScan, _ => seqScanCost ops tableStats
  | .indexScan, some stats => indexScanCost ops path.rowsFetched stats tableStats
  | .indexScan, none => .error (.assertionError "index_scan requires stats")

/-- `assign_cost`. -/
def assignCost (path : EstimatedPath) (stats : Option IndexStats) (tableStats : TableStats) :
    Except DbError CostedPath := do
  let cost ← pathCost ops path stats tableStats
  .ok { path with cost := cost }

end Estimates

end Planner

end QuillDb
