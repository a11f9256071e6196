/-
  Plan/Search.lean --- the cheapest access path and the cheapest join order.

  Source: `quilldb/plan/search.py`; `_extract_predicates` and the choice of a path in
  `_build_single_table_source` of `quilldb/exec/operators.py`.

  A conjunct and a predicate are Python objects, told apart by where they stand.  Orders
  come as `itertools.permutations` gives them, since `min` keeps the first of the cheapest.
-/
import QuillDb.Plan.Cost
import QuillDb.Sql.Scopes

set_option autoImplicit false

namespace QuillDb

open Fallible

/-! ## Joined tables -/

/-- `BoundJoin.join_type`. -/
inductive JoinType where
  | inner
  | left
  deriving DecidableEq, Repr

/-- `BoundJoin`. -/
structure BoundJoin where
  joinType : JoinType
  tableOrdinal : Nat
  on_ : Option BoundExpression
  deriving DecidableEq

/-- `referenced_tables`, with repetitions. -/
def referencedTables : BoundExpression → List Nat
  | .column c => [c.tableOrdinal]
  | .literal _ => []
  | .unaryOp _ operand => referencedTables operand
  | .binaryOp left _ right => referencedTables left ++ referencedTables right
  | .isNull operand _ => referencedTables operand

/-- `referenced_tables(expr) == {table_ordinal}`. -/
def referencesOnly (tableOrdinal : Nat) (expr : BoundExpression) : Bool :=
  tableOrdinal ∈ referencedTables expr && (referencedTables expr).all (· = tableOrdinal)

/-- `_and_all`. -/
def andAll : List BoundExpression → Option BoundExpression
  | [] => none
  | expression :: rest => some (rest.foldl (fun result e => .binaryOp result .and e) expression)

/-- `PlanCandidate`. -/
structure PlanCandidate where
  order : List Nat
  accessPaths : List CostedPath
  joinTypes : List JoinType
  matchExpressions : List (Option BoundExpression)
  residual : Option BoundExpression
  estRows : Int
  cost : PlanCost
  outputOrder : List SortKey
  deriving DecidableEq

namespace Planner

/-! ## The cheapest -/

/-- `min(candidates, key=key)`, from keys that are there: the first of the least. -/
def cheapestFrom {α : Type} (best : α × BitVec 64) : List (α × BitVec 64) → α
  | [] => best.1
  | candidate :: rest =>
      if (realNumber candidate.2).lt (realNumber best.2) then cheapestFrom candidate rest
      else cheapestFrom best rest

/-- `min(candidates, key=key)`. -/
def minBy {α : Type} (key : α → Except DbError (BitVec 64)) (candidates : List α) : Except DbError α := do
  let keyed ← candidates.mapM fun candidate => do
    let cost ← key candidate
    .ok (candidate, cost)
  match keyed with
  | [] => .error (.valueError "min() iterable argument is empty")
  | first :: rest => .ok (cheapestFrom first rest)

section Search

variable (ops : CostOps)

/-- `sort_cost`, of what a candidate gives. -/
def sortCost (outputOrder : List SortKey) (estRows : Int) (orderBy : List SortKey) :
    Except DbError (BitVec 64) :=
  if outputOrder.take orderBy.length = orderBy then .ok 0
  else do
    let rows := max 2 estRows
    let cost ← timesInt ops cpuPerRow rows
    .ok (ops.mul cost (ops.log2 rows))

/-- `total_cost_with_ordering`. -/
def totalCostWithOrdering (total : BitVec 64) (outputOrder : List SortKey) (estRows : Int)
    (orderBy : List SortKey) : Except DbError (BitVec 64) := do
  let sort ← sortCost ops outputOrder estRows orderBy
  .ok (ops.add total sort)

/-- The ranking of `choose_access_path` and `choose_join_plan`. -/
def chooseBy {α : Type} (cost : α → PlanCost) (outputOrder : α → List SortKey) (estRows : α → Int)
    (candidates : List α) (orderBy : List SortKey) : Except DbError α :=
  if orderBy ≠ [] ∧ (candidates.any fun candidate => outputOrder candidate ≠ []) then
    minBy (fun candidate => totalCostWithOrdering ops (cost candidate).total (outputOrder candidate)
      (estRows candidate) orderBy) candidates
  else minBy (fun candidate => .ok (cost candidate).total) candidates

/-- `choose_access_path`. -/
def chooseAccessPath (candidates : List CostedPath) (orderBy : List SortKey) : Except DbError CostedPath :=
  chooseBy ops CostedPath.cost (fun path => path.outputOrder) (fun path => path.estRows) candidates orderBy

/-- `choose_join_plan`. -/
def chooseJoinPlan (candidates : List PlanCandidate) (orderBy : List SortKey) : Except DbError PlanCandidate :=
  chooseBy ops PlanCandidate.cost PlanCandidate.outputOrder PlanCandidate.estRows candidates orderBy

/-! ## One table -/

variable (casefold : String → String) (catalog : Catalog) (stats : StatsSource)

/-- The figures of the index of a path. -/
def pathStats (path : AccessPath) : Except DbError (Option IndexStats) :=
  match path.index with
  | none => .ok none
  | some index => some <$> stats.indexStats index

/-- Stages 2 and 3 for one path. -/
def costPath (tableStats : TableStats) (path : AccessPath) : Except DbError CostedPath := do
  let indexStats ← pathStats stats path
  let path ← estimateRowCounts ops path indexStats tableStats
  assignCost ops path indexStats tableStats

/-- Every legal path of a table, with its estimates. -/
def costedPaths (table : TableSchema) (predicates : List (Object Predicate)) (tableStats : TableStats)
    (tableOrdinal : Nat) : Except DbError (List CostedPath) := do
  let candidates ← enumerateAccessPaths casefold table (catalog.indexesFor casefold table.name) predicates
    tableOrdinal
  candidates.mapM (costPath ops stats tableStats)

/-- `_cheapest_path`. -/
def cheapestPath (table : TableSchema) (predicates : List (Object Predicate)) (tableStats : TableStats)
    (tableOrdinal : Nat) : Except DbError CostedPath := do
  let costed ← costedPaths ops casefold catalog stats table predicates tableStats tableOrdinal
  chooseAccessPath ops costed []

/-- The path of `_build_single_table_source`. -/
def singleTablePath (table : TableSchema) (condition : Option BoundExpression) (orderBy : List SortKey) :
    Except DbError CostedPath := do
  let tableStats ← stats.tableStats table.name
  let costed ← costedPaths ops casefold catalog stats table
    (classifiedPredicates (extractConjuncts condition) 0) tableStats 0
  chooseAccessPath ops costed orderBy

/-! ## Several tables -/

/-- `_leading_ndv`, over the indexes of the table. -/
def leadingNdvOf (column : String) : List IndexSchema → Except DbError (Option Int)
  | [] => .ok none
  | index :: indexes =>
      match index.columns[0]? with
      | none => .error (.indexError "tuple index out of range")
      | some first =>
          if casefold first = casefold column then do
            let indexStats ← stats.indexStats index
            let ndv ← indexNdv indexStats
            .ok (some ndv)
          else leadingNdvOf column indexes

/-- `_leading_ndv`. -/
def leadingNdv (table : TableSchema) (column : String) : Except DbError (Option Int) :=
  leadingNdvOf casefold stats column (catalog.indexesFor casefold table.name)

/-- The join key of a step: the first equality with a column. -/
def equijoinOf (stepPredicates : List (Object Predicate)) : Option (String × BoundColumn) :=
  stepPredicates.findSome? fun p =>
    match p.val.operator, p.val.value with
    | .eq, .column c => some (p.val.column, c)
    | _, _ => none

/-- `scopes[i]`. -/
def scopeAt (scopes : List TableScope) (ordinal : Nat) : Except DbError TableScope :=
  match scopes[ordinal]? with
  | some scope => .ok scope
  | none => .error (.indexError "list index out of range")

/-- `_joined_row_estimate`. -/
def joinedRowEstimate (scopes : List TableScope) (outerRows : Int) (innerTable : TableSchema)
    (innerRowCount : Int) (stepPredicates : List (Object Predicate)) : Except DbError Int :=
  match equijoinOf stepPredicates with
  | none => .ok (max 1 (outerRows * innerRowCount))
  | some (column, value) => do
      let innerNdv ← leadingNdv casefold catalog stats innerTable column
      let outer ← scopeAt scopes value.tableOrdinal
      let outerNdv ← leadingNdv casefold catalog stats outer.table value.name
      .ok (estimateEquijoinRows outerRows innerRowCount outerNdv innerNdv)

/-- `_predicates_for_step`: each conjunct that is used becomes a new predicate. -/
def predicatesForStep (conjuncts : List (Object BoundExpression)) (tableOrdinal : Nat) (available used : List Nat)
    (allowCrossTable : Bool) : List (Object Predicate) × List Nat :=
  let usable := conjuncts.filter fun conjunct =>
    conjunct.id ∉ used && tableOrdinal ∈ referencedTables conjunct.val &&
      (allowCrossTable || referencesOnly tableOrdinal conjunct.val) &&
      (referencedTables conjunct.val).all fun t => t ∈ tableOrdinal :: available
  let classified := usable.filterMap fun conjunct =>
    (classifyPredicate conjunct.val tableOrdinal).map fun predicate => (⟨conjunct.id, predicate⟩ : Object Predicate)
  (classified, classified.map Object.id)

/-- The candidate so far. -/
structure Placed where
  used : List Nat
  available : List Nat
  accessPaths : List CostedPath
  joinTypes : List JoinType
  matchExpressions : List (Option BoundExpression)
  estRows : Int
  startup : BitVec 64
  total : BitVec 64

variable (scopes : List TableScope) (joins : List BoundJoin) (conjuncts : List (Object BoundExpression))

/-- Every join is an inner one. -/
def allInner (joins : List BoundJoin) : Bool := joins.all fun join => join.joinType = .inner

/-- `joins[i]`. -/
def joinAt (joins : List BoundJoin) (i : Nat) : Except DbError BoundJoin :=
  match joins[i]? with
  | some join => .ok join
  | none => .error (.indexError "list index out of range")

/-- The table at this position is the nullable side of a join. -/
def isNullable (joins : List BoundJoin) (position : Nat) : Bool :=
  position ≠ 0 && (joins[position - 1]?.map BoundJoin.joinType) = some .left

/-- The predicates that a path leaves and that name another table. -/
def crossTableResidual (tableOrdinal : Nat) (path : CostedPath) : List BoundExpression :=
  (path.residual.map fun p => p.val.source).filter fun source => !referencesOnly tableOrdinal source

/-- What a step matches on, and how it joins. -/
def stepMatch (position : Nat) (cross : List BoundExpression) :
    Except DbError (Option BoundExpression × JoinType) :=
  if allInner joins then .ok (andAll cross, .inner)
  else do
    let join ← joinAt joins (position - 1)
    .ok (andAll (join.on_.toList ++ cross), join.joinType)

/-- The predicates of a step, and the conjuncts that it uses. -/
def stepPredicates (position : Nat) (available used : List Nat) (tableOrdinal : Nat) :
    List (Object Predicate) × List Nat :=
  if isNullable joins position then ([], [])
  else predicatesForStep conjuncts tableOrdinal available used (allInner joins)

/-- The first position: the driving table. -/
def placeFirst (placed : Placed) (tableOrdinal : Nat) (newlyUsed : List Nat) (path : CostedPath) : Placed :=
  { placed with
    used := placed.used ++ newlyUsed
    available := placed.available ++ [tableOrdinal]
    accessPaths := [path]
    estRows := path.estRows
    startup := path.cost.startup
    total := path.cost.total }

/-- A later position: the table is joined to those before. -/
def placeNext (placed : Placed) (tableOrdinal : Nat) (step : List (Object Predicate) × List Nat) (path : CostedPath)
    (table : TableSchema) (rowCount : Int) : Except DbError Placed := do
  let matched ← stepMatch joins placed.accessPaths.length (crossTableResidual tableOrdinal path)
  let outerCost ← timesInt ops path.cost.total placed.estRows
  let estRows ← joinedRowEstimate casefold catalog stats scopes placed.estRows table rowCount step.1
  .ok { placed with
    used := placed.used ++ step.2
    available := placed.available ++ [tableOrdinal]
    accessPaths := placed.accessPaths ++ [path]
    joinTypes := placed.joinTypes ++ [matched.2]
    matchExpressions := placed.matchExpressions ++ [matched.1]
    estRows := estRows
    total := ops.add placed.total outerCost }

/-- One turn of the loop of `_build_candidate`. -/
def placeTable (placed : Placed) (tableOrdinal : Nat) : Except DbError Placed := do
  let scope ← scopeAt scopes tableOrdinal
  let tableStats ← stats.tableStats scope.table.name
  let step := stepPredicates joins conjuncts placed.accessPaths.length placed.available placed.used tableOrdinal
  let path ← cheapestPath ops casefold catalog stats scope.table step.1 tableStats tableOrdinal
  if placed.accessPaths = [] then .ok (placeFirst placed tableOrdinal step.2 path)
  else
    placeNext ops casefold catalog stats scopes joins placed tableOrdinal step path scope.table
      tableStats.rowCount

/-- `_build_candidate`. -/
def buildCandidate (preconsumed order : List Nat) : Except DbError PlanCandidate := do
  let placed ← order.foldlM (placeTable ops casefold catalog stats scopes joins conjuncts)
    ⟨preconsumed, [], [], [.inner], [none], 1, 0, 0⟩
  match placed.accessPaths with
  | [] => .error (.indexError "list index out of range")
  | driving :: _ => .ok {
      order := order
      accessPaths := placed.accessPaths
      joinTypes := placed.joinTypes
      matchExpressions := placed.matchExpressions
      residual := andAll ((conjuncts.filter fun conjunct => conjunct.id ∉ placed.used).map Object.val)
      estRows := placed.estRows
      cost := ⟨placed.startup, placed.total⟩
      outputOrder := driving.outputOrder }

/-- Each element of a list with the others. -/
def picks {α : Type} : List α → List (α × List α)
  | [] => []
  | x :: xs => (x, xs) :: (picks xs).map fun p => (p.1, x :: p.2)

/-- `itertools.permutations`, of a list of this length. -/
def permutationsOf {α : Type} : Nat → List α → List (List α)
  | 0, _ => [[]]
  | n + 1, xs => (picks xs).flatMap fun p => (permutationsOf n p.2).map (p.1 :: ·)

/-- The join orders that are legal. -/
def joinOrders (scopes : List TableScope) (joins : List BoundJoin) : List (List Nat) :=
  if allInner joins then permutationsOf scopes.length (List.range scopes.length)
  else [List.range scopes.length]

/-- The conjuncts of WHERE. -/
def whereConjuncts (condition : Option BoundExpression) : List BoundExpression := extractConjuncts condition

/-- The conjuncts of every ON. -/
def onConjuncts (joins : List BoundJoin) : List BoundExpression := joins.flatMap fun join => extractConjuncts join.on_

/-- All conjuncts, as objects. -/
def conjunctObjects (joins : List BoundJoin) (condition : Option BoundExpression) : List (Object BoundExpression) :=
  (whereConjuncts condition ++ onConjuncts joins).zipIdx.map fun p => ⟨p.2, p.1⟩

/-- `preconsumed`: with a LEFT JOIN, the conjuncts of every ON. -/
def preconsumed (joins : List BoundJoin) (condition : Option BoundExpression) : List Nat :=
  if allInner joins then []
  else List.range' (whereConjuncts condition).length (onConjuncts joins).length

/-- `enumerate_join_plans`. -/
def enumerateJoinPlans (condition : Option BoundExpression) : Except DbError (List PlanCandidate) :=
  (joinOrders scopes joins).mapM
    (buildCandidate ops casefold catalog stats scopes joins (conjunctObjects joins condition)
      (preconsumed joins condition))

/-- `enumerate_join_plans` and `choose_join_plan`. -/
def planJoin (condition : Option BoundExpression) (orderBy : List SortKey) : Except DbError PlanCandidate := do
  let candidates ← enumerateJoinPlans ops casefold catalog stats scopes joins condition
  chooseJoinPlan ops candidates orderBy

end Search

end Planner

end QuillDb
