/-
  Exec/Operators.lean --- the operator tree of a SELECT, and its text.

  Source: `build_operator`, `_build_single_table_source`, `_build_join_operator`,
  `_apply_order_limit` and every `explain` of `quilldb/exec/operators.py`,
  `quilldb/exec/join.py` and `quilldb/exec/sort.py`; `resolve_layout` of
  `quilldb/sql/binder.py`.

  Pages, locks and the plan cache are left out; a statement with aggregates is not in
  here, and EXPLAIN does not take one.
-/
import QuillDb.Exec.IndexScan
import QuillDb.Plan.Search

set_option autoImplicit false

namespace QuillDb

open Fallible

/-! ## Statements -/

/-- `BoundOrderKey`: a position in the row that is sorted. -/
structure BoundOrderKey where
  index : Nat
  descending : Bool
  deriving DecidableEq

structure BoundSelect where
  table : TableSchema
  expressions : List BoundExpression
  where_ : Option BoundExpression
  distinct : Bool
  orderBy : List BoundOrderKey
  hiddenOrderBy : List BoundExpression
  limit : Option Nat
  offset : Nat

/-- `BoundJoinSelect`; a `JoinOrderKey` has the fields of a `SortKey`. -/
structure BoundJoinSelect where
  scopes : List TableScope
  joins : List BoundJoin
  expressions : List BoundExpression
  where_ : Option BoundExpression
  orderBy : List SortKey
  limit : Option Nat
  offset : Nat

/-! ## Operators -/

/-- The operators of a SELECT. -/
inductive Operator where
  | seqScan (table : TableSchema)
  | indexScan (table : TableSchema) (path : CostedPath)
  | filter (child : Operator) (predicate : BoundExpression)
  | project (child : Operator) (expressions : List BoundExpression)
  | distinct (child : Operator)
  | sort (child : Operator) (keys : List BoundOrderKey)
  | limit (child : Operator) (count : Option Nat) (offset : Nat)
  | nestedLoopJoin (outer inner : Operator) (on_ : Option BoundExpression) (innerWidth : Nat) (joinType : JoinType)
  deriving DecidableEq

namespace Operator

/-- The scan of a path. -/
def scan (table : TableSchema) (path : CostedPath) : Operator :=
  match path.kind with
  | .indexScan => .indexScan table path
  | .seqScan => .seqScan table

/-- A filter, if something is left to check. -/
def filtered (child : Operator) : Option BoundExpression → Operator
  | none => child
  | some predicate => .filter child predicate

/-- `_strip_hidden_columns`. -/
def stripHiddenColumns (source : Operator) (visibleCount : Nat) : Operator :=
  .project source ((List.range visibleCount).map fun i => .column ⟨i, "", .integer, 0⟩)

/-- `_apply_order_limit`. -/
def applyOrderLimit (source : Operator) (visibleCount : Nat) (orderBy : List BoundOrderKey)
    (hiddenOrderBy : List BoundExpression) (limit : Option Nat) (offset : Nat) (skipSort : Bool) : Operator :=
  let sorted := if orderBy ≠ [] ∧ skipSort = false then .sort source orderBy else source
  let stripped := if hiddenOrderBy ≠ [] then stripHiddenColumns sorted visibleCount else sorted
  if limit.isSome ∨ offset ≠ 0 then .limit stripped limit offset else stripped

end Operator

/-! ## One table -/

/-- `_order_by_sort_keys`. -/
def orderBySortKeys (expressions hiddenOrderBy : List BoundExpression) (orderBy : List BoundOrderKey) :
    Except DbError (List SortKey) :=
  orderBy.mapM fun key =>
    match (expressions ++ hiddenOrderBy)[key.index]? with
    | some expression => .ok ⟨expression, key.descending⟩
    | none => .error (.indexError "tuple index out of range")

/-- The conjuncts that `_extract_predicates` finds no predicate for. -/
def nonSargable (condition : Option BoundExpression) : List BoundExpression :=
  (extractConjuncts condition).filter fun conjunct => (classifyPredicate conjunct 0).isNone

/-- `_residual_filter_expression`. -/
def residualFilterExpression (nonSargable : List BoundExpression) (residual : List (Object Predicate)) :
    Option BoundExpression :=
  andAll (nonSargable ++ residual.map fun p => p.val.source)

section Build

variable (ops : CostOps) (casefold : String → String) (catalog : Catalog) (stats : Planner.StatsSource)

/-- Whether the rows come in the order that is asked for. -/
def skipSort (outputOrder : List SortKey) (estRows : Int) (sortKeys : List SortKey) : Except DbError Bool :=
  if sortKeys = [] ∨ outputOrder = [] then .ok false
  else do
    let cost ← Planner.sortCost ops outputOrder estRows sortKeys
    .ok (realNumber cost = .finite 0)

/-- `_build_single_table_source`. -/
def buildSingleTableSource (table : TableSchema) (condition : Option BoundExpression) (orderBy : List SortKey) :
    Except DbError (Operator × CostedPath) := do
  let path ← Planner.singleTablePath ops casefold catalog stats table condition orderBy
  .ok ((Operator.scan table path).filtered (residualFilterExpression (nonSargable condition) path.residual), path)

/-- `build_operator`, of a SELECT from one table. -/
def buildSelect (statement : BoundSelect) : Except DbError Operator := do
  let sortKeys ← orderBySortKeys statement.expressions statement.hiddenOrderBy statement.orderBy
  let (source, path) ← buildSingleTableSource ops casefold catalog stats statement.table statement.where_ sortKeys
  let projected := Operator.project source (statement.expressions ++ statement.hiddenOrderBy)
  let deduplicated := if statement.distinct then Operator.distinct projected else projected
  let skip ← skipSort ops path.outputOrder path.estRows sortKeys
  .ok (deduplicated.applyOrderLimit statement.expressions.length statement.orderBy statement.hiddenOrderBy
    statement.limit statement.offset skip)

/-! ## Several tables -/

/-- `resolve_layout`; the table of a resolved column is the default one. -/
def resolveLayout (offsets : Dict Nat Nat) : BoundExpression → Except DbError BoundExpression
  | .column c =>
      match offsets.lookup c.tableOrdinal with
      | some offset => .ok (.column ⟨offset + c.index, c.name, c.dataType, 0⟩)
      | none => .error (.keyError (toString c.tableOrdinal))
  | .literal value => .ok (.literal value)
  | .unaryOp operator operand => do
      let operand ← resolveLayout offsets operand
      .ok (.unaryOp operator operand)
  | .binaryOp left operator right => do
      let left ← resolveLayout offsets left
      let right ← resolveLayout offsets right
      .ok (.binaryOp left operator right)
  | .isNull operand negated => do
      let operand ← resolveLayout offsets operand
      .ok (.isNull operand negated)

/-- `resolve_layout` of an expression that may be missing. -/
def resolveMaybe (offsets : Dict Nat Nat) : Option BoundExpression → Except DbError (Option BoundExpression)
  | none => .ok none
  | some expression => some <$> resolveLayout offsets expression

/-- The tree over the tables so far, and where the columns of each start. -/
structure Assembled where
  source : Option Operator
  offsets : Dict Nat Nat
  offset : Nat

/-- A position of a plan: the table, its path, and how it is joined. -/
structure PlanStep where
  tableOrdinal : Nat
  path : CostedPath
  match_ : Option BoundExpression
  joinType : JoinType

/-- The positions of a plan; its lists have one length. -/
def PlanCandidate.steps (candidate : PlanCandidate) : List PlanStep :=
  (candidate.order.zip (candidate.accessPaths.zip (candidate.matchExpressions.zip candidate.joinTypes))).map fun p =>
    ⟨p.1, p.2.1, p.2.2.1, p.2.2.2⟩

/-- The scan of a position, behind the filter on its own columns. -/
def buildScan (scope : TableScope) (step : PlanStep) : Except DbError Operator := do
  let ownResidual := (step.path.residual.map fun p => p.val.source).filter (referencesOnly step.tableOrdinal)
  let ownFilter ← resolveMaybe [(step.tableOrdinal, 0)] (andAll ownResidual)
  .ok ((Operator.scan scope.table step.path).filtered ownFilter)

/-- A scan behind the tables before it. -/
def joinOnto (scan : Operator) (offsets : Dict Nat Nat) (innerWidth : Nat) (step : PlanStep) :
    Option Operator → Except DbError Operator
  | none => .ok scan
  | some outer => do
      let resolvedMatch ← resolveMaybe offsets step.match_
      .ok (.nestedLoopJoin outer scan resolvedMatch innerWidth step.joinType)

/-- One turn of the loop of `_build_join_operator`. -/
def assemble (scopes : List TableScope) (assembled : Assembled) (step : PlanStep) : Except DbError Assembled := do
  let scope ← Planner.scopeAt scopes step.tableOrdinal
  let scan ← buildScan scope step
  let offsets := assembled.offsets.put step.tableOrdinal assembled.offset
  let source ← joinOnto scan offsets scope.table.columns.length step assembled.source
  .ok ⟨some source, offsets, assembled.offset + scope.table.columns.length⟩

/-- Python's `==` of bound expressions. -/
def BoundExpression.pyEq : BoundExpression → BoundExpression → Bool
  | .column c, .column d => c = d
  | .literal a, .literal b => a = b || a.pyEq b
  | .unaryOp operator operand, .unaryOp operator' operand' => operator = operator' && operand.pyEq operand'
  | .binaryOp left operator right, .binaryOp left' operator' right' =>
      left.pyEq left' && operator = operator' && right.pyEq right'
  | .isNull operand negated, .isNull operand' negated' => operand.pyEq operand' && negated = negated'
  | _, _ => false

/-- The loop of `_resolve_join_order_by`: the keys, and the columns added behind the selected
ones. -/
def resolveJoinOrderBy (expressions : List BoundExpression) (offsets : Dict Nat Nat) (items : List SortKey) :
    Except DbError (List BoundOrderKey × List BoundExpression) :=
  items.foldlM (fun (keys, hidden) item => do
    let resolved ← resolveLayout offsets item.expression
    match expressions.findIdx? fun expression => expression.pyEq resolved with
    | some position => .ok (keys ++ [⟨position, item.descending⟩], hidden)
    | none => .ok (keys ++ [⟨expressions.length + hidden.length, item.descending⟩], hidden ++ [resolved])) ([], [])

/-- The tree of a plan for a joined SELECT. -/
def buildPlan (statement : BoundJoinSelect) (candidate : PlanCandidate) : Except DbError Operator := do
  let assembled ← candidate.steps.foldlM (assemble statement.scopes) ⟨none, [], 0⟩
  match assembled.source with
  | none => .error (.assertionError "a join always has at least two tables, so at least one iteration ran")
  | some source => do
      let residual ← resolveMaybe assembled.offsets candidate.residual
      let expressions ← statement.expressions.mapM (resolveLayout assembled.offsets)
      let (orderBy, hiddenOrderBy) ← resolveJoinOrderBy expressions assembled.offsets statement.orderBy
      let projected := Operator.project (source.filtered residual) (expressions ++ hiddenOrderBy)
      let skip ← skipSort ops candidate.outputOrder candidate.estRows statement.orderBy
      .ok (projected.applyOrderLimit expressions.length orderBy hiddenOrderBy statement.limit statement.offset skip)

/-- `_build_join_operator`. -/
def buildJoin (statement : BoundJoinSelect) : Except DbError Operator := do
  let candidate ← Planner.planJoin ops casefold catalog stats statement.scopes statement.joins statement.where_
    statement.orderBy
  buildPlan ops statement candidate

end Build

/-! ## EXPLAIN -/

/-- How Python prints what is kept as bits. -/
structure Rendering where
  /-- `str(x)` of a float -/
  float : BitVec 64 → String
  /-- `f"{x:.2f}"` -/
  fixed : BitVec 64 → String
  /-- `str(x)` of bytes -/
  bytes : Bytes → String

/-- `str(n)`, up to the digits that Python converts. -/
def pyStr (n : Int) : Except DbError String :=
  if n.natAbs < 10 ^ PyText.intMaxStrDigits then .ok (toString n)
  else .error (.valueError "Exceeds the limit (4300 digits) for integer string conversion")

/-- `_explain_line`. -/
def explainLine (depth : Nat) (label : String) : String :=
  if depth = 0 then label else String.join (List.replicate (depth - 1) "   ") ++ "└─ " ++ label

def SeekOperator.symbol : SeekOperator → String
  | .eq => "="
  | .lt => "<"
  | .le => "<="
  | .gt => ">"
  | .ge => ">="
  | .is => "IS"
  | .like => "LIKE"

section Explain

variable (rendering : Rendering) (ops : FloatOps)

/-- `_literal_sql`. -/
def literalSql : Value → Except DbError String
  | .null => .ok "NULL"
  | .text s => .ok ("'" ++ s.replace "'" "''" ++ "'")
  | .int n => pyStr n
  | .real bits => .ok (rendering.float bits)
  | .blob bytes => .ok (rendering.bytes bytes)

/-- A seek term, with the value it has without a row outside. -/
def termSql (p : Object Predicate) : Except DbError String := do
  let value ← seekValue ops [] p
  let literal ← literalSql rendering value
  .ok s!"{p.val.column} {p.val.operator.symbol} {literal}"

/-- What `IndexScan.explain` says of the seek terms. -/
def seekSql (terms : List (Object Predicate)) : Except DbError String :=
  if terms = [] then .ok ""
  else do
    let texts ← terms.mapM (termSql rendering ops)
    .ok (" (" ++ " AND ".intercalate texts ++ ")")

/-- The line of `IndexScan.explain`. -/
def indexScanLabel (verbose : Bool) (path : CostedPath) : Except DbError String :=
  let indexName := (path.index.map IndexSchema.name).getD "?"
  let label := s!"IndexScan {indexName}" ++ if path.reverse then " REVERSE" else ""
  if verbose = false then .ok label
  else do
    let seek ← seekSql rendering ops path.seekTerms
    let estRows ← pyStr path.estRows
    .ok (label ++ seek ++ s!" est_rows={estRows}" ++
      s!" startup={rendering.fixed path.cost.startup} cost={rendering.fixed path.cost.total}")

/-- A part of the line of `Limit.explain`. -/
def limitPart (word : String) : Option Nat → Except DbError String
  | none => .ok ""
  | some n => (word ++ ·) <$> pyStr n

/-- The line of `Limit.explain`. -/
def limitLabel (limit : Option Nat) (offset : Nat) : Except DbError String := do
  let taken ← limitPart " " limit
  let skipped ← limitPart " OFFSET " (if offset = 0 then none else some offset)
  .ok ("Limit" ++ taken ++ skipped)

def orderKeySql (key : BoundOrderKey) : String := toString key.index ++ if key.descending then " DESC" else " ASC"

/-- `explain`. -/
def Operator.explain (verbose : Bool) : Nat → Operator → Except DbError String
  | depth, .seqScan table => .ok (explainLine depth s!"SeqScan {table.name}")
  | depth, .indexScan _ path => do
      let label ← indexScanLabel rendering ops verbose path
      .ok (explainLine depth label)
  | depth, .filter child _ => do
      let below ← child.explain verbose (depth + 1)
      .ok (explainLine depth "Filter" ++ "\n" ++ below)
  | depth, .project child _ => do
      let below ← child.explain verbose (depth + 1)
      .ok (explainLine depth "Project" ++ "\n" ++ below)
  | depth, .distinct child => do
      let below ← child.explain verbose (depth + 1)
      .ok (explainLine depth "Distinct" ++ "\n" ++ below)
  | depth, .sort child keys => do
      let below ← child.explain verbose (depth + 1)
      .ok (explainLine depth ("Sort (" ++ ", ".intercalate (keys.map orderKeySql) ++ ")") ++ "\n" ++ below)
  | depth, .limit child count offset => do
      let label ← limitLabel count offset
      let below ← child.explain verbose (depth + 1)
      .ok (explainLine depth label ++ "\n" ++ below)
  | depth, .nestedLoopJoin outer inner _ _ joinType => do
      let label := if joinType = .inner then "NestedLoopJoin" else "NestedLoopJoin (LEFT)"
      let outer ← outer.explain verbose (depth + 1)
      let inner ← inner.explain verbose (depth + 1)
      .ok (explainLine depth label ++ "\n" ++ outer ++ "\n" ++ inner)

end Explain

end QuillDb
