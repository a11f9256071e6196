/-
  Exec/Select.lean --- a SELECT from one table answers what it asks.

  Source: `build_operator` and `_build_single_table_source` of `quilldb/exec/operators.py`,
  the SELECT branch of `execute` in `quilldb/api/connection.py`, `quilldb/plan/cache.py`.

  The answer is said of the rows of the table alone: those that WHERE is TRUE of, the
  expressions for each, DISTINCT, ORDER BY, LIMIT.  Indexes, statistics, costs and the plan
  cache decide how it is found, and are not in what it is.
-/
import QuillDb.Exec.Explain
import QuillDb.Exec.InStepRuns
import QuillDb.Exec.Rows
import QuillDb.Exec.Sources
import QuillDb.Plan.Platform
import QuillDb.Sql.BindSelect

set_option autoImplicit false

namespace QuillDb

open Prog PageStore Fallible Sorting

/-! ## The source -/

section Source

variable (ops : CostOps) (casefold : String → String) (catalog : Catalog) (stats : Planner.StatsSource)

/-- A path that is not costed: its estimate is zero, and nothing reads its cost. -/
def AccessPath.uncosted (path : AccessPath) : CostedPath := { path with rowsFetched := 0, estRows := 0, cost := ⟨0, 0⟩ }

/-- The path of `_build_single_table_source`: rebuilt from a cached shape, or the cheapest. -/
def selectPath (table : TableSchema) (condition : Option BoundExpression) (orderBy : List SortKey) :
    Option PlanShape → Except PlanError CostedPath
  | some shape => AccessPath.uncosted <$> rebuildAccessPath casefold shape table
      (catalog.indexesFor casefold table.name) (classifiedPredicates (extractConjuncts condition) 0) 0
  | none => (Planner.singleTablePath ops casefold catalog stats table condition orderBy).mapError .raised

/-- The tree over a path. -/
def selectOperator (statement : BoundSelect) (path : CostedPath) (skip : Bool) : Operator :=
  let projected := Operator.project (sourceOf statement.table statement.where_ path)
    (statement.expressions ++ statement.hiddenOrderBy)
  let deduplicated := if statement.distinct then Operator.distinct projected else projected
  deduplicated.applyOrderLimit statement.expressions.length statement.orderBy statement.hiddenOrderBy
    statement.limit statement.offset skip

/-- `build_operator`, with `cached_shape` and `on_planned`. -/
def buildSelectOperator (statement : BoundSelect) (cachedShape : Option PlanShape)
    (onPlanned : PlanShape → PlanCache → PlanCache) : Prog PlanError PlanCache Operator := do
  let sortKeys ← lift
    ((orderBySortKeys statement.expressions statement.hiddenOrderBy statement.orderBy).mapError .raised)
  let path ← lift (selectPath ops casefold catalog stats statement.table statement.where_ sortKeys cachedShape)
  (if cachedShape = none then update (onPlanned (accessPathShape path.toAccessPath)) else pure () :
    Prog PlanError PlanCache Unit)
  let skip ← lift ((skipSort ops path.outputOrder path.estRows sortKeys).mapError .raised)
  return selectOperator statement path skip

/-- What `execute` does with a bound SELECT: it asks the plan cache, and tells it. -/
def planSelect (sql : String) (schemaCookie : Nat) (statement : BoundSelect) : Prog PlanError PlanCache Operator := do
  let cache ← state
  buildSelectOperator ops casefold catalog stats statement (cache.get sql schemaCookie) fun shape cache =>
    cache.put sql schemaCookie shape

end Source

/-! ## What it is for -/

/-- An answer to a SELECT from rows: those that WHERE is TRUE of, in some order, the
expressions for each, no repetitions if it is DISTINCT, in the order of ORDER BY, and of
these the columns of the select list and the rows that LIMIT and OFFSET leave. -/
def IsAnswer (ops : FloatOps) (sameRow : List Value → List Value → Bool) (statement : BoundSelect)
    (rows answer : List (List Value)) : Prop :=
  ∃ chosen produced kept sorted : List (List Value), chosen.Perm (rows.filter (whereTrue ops statement.where_)) ∧
    List.Forall₂ (fun row out => (statement.expressions ++ statement.hiddenOrderBy).mapM (evaluate ops row) = .ok out)
      chosen produced ∧
    (if statement.distinct then Deduplicated sameRow produced kept else kept = produced) ∧
    sorted.Perm kept ∧ sorted.Pairwise (fun a b => compareRows a b statement.orderBy ≠ .gt) ∧
    answer = limited statement.limit statement.offset (sorted.map (·.take statement.expressions.length))

/-- The statement raises on no row, sorts by no NaN, and sorts no more rows than are held in
memory. -/
structure Answerable (ops : FloatOps) (statement : BoundSelect) (rows : List (List Value)) : Prop where
  condition : Evaluable ops statement.where_ rows
  produced : ∀ row ∈ rows, whereTrue ops statement.where_ row = true → ∃ out,
    (statement.expressions ++ statement.hiddenOrderBy).mapM (evaluate ops row) = .ok out ∧
      Sortable statement.orderBy out
  held : statement.orderBy ≠ [] → rows.length ≤ maxSortRows

/-! ## The order of a walk -/

section Order

variable {ops : FloatOps} {expressions : List BoundExpression} {orderBy : List BoundOrderKey} {sortKeys : List SortKey}
  {positions : List Nat} {reverse : Bool}

/-- Each key is the expression at its position. -/
theorem orderBySortKeys_ok {hidden : List BoundExpression}
    (h : orderBySortKeys expressions hidden orderBy = .ok sortKeys) :
    List.Forall₂ (fun key sortKey => (expressions ++ hidden)[key.index]? = some sortKey.expression ∧
      sortKey.descending = key.descending) orderBy sortKeys := by
  refine (mapM_ok h).imp fun key sortKey hkey => ?_
  split at hkey
  · rename_i expression hexpression
    cases hkey
    exact ⟨hexpression, rfl⟩
  · cases hkey

/-- The column of an answer at the position of a key. -/
theorem getD_of_mapM {row out : List Value} {i j : Nat} {name : String} {dataType : DataType} {ordinal : Nat}
    (hout : expressions.mapM (evaluate ops row) = .ok out)
    (hexpression : expressions[j]? = some (.column ⟨i, name, dataType, ordinal⟩)) :
    out.getD j .null = row.getD i .null := by
  have haligned := List.forall₂_iff_get.mp (mapM_ok hout)
  obtain ⟨hlt, hget⟩ := List.getElem?_eq_some_iff.mp hexpression
  have hvalue := haligned.2 j hlt (haligned.1 ▸ hlt)
  rw [List.get_eq_getElem, hget, evaluate] at hvalue
  simp only at hvalue
  split at hvalue
  · rename_i value hvalue'
    have hlt' : j < out.length := haligned.1 ▸ hlt
    rw [List.getD_eq_getElem?_getD, List.getD_eq_getElem?_getD, hvalue', List.getElem?_eq_getElem hlt']
    exact (Except.ok.inj hvalue).symm
  · cases hvalue

/-- Answers compare as the rows do by the columns that are sorted by. -/
theorem compareRows_of_mapM {a b outa outb : List Value} (ha : expressions.mapM (evaluate ops a) = .ok outa)
    (hb : expressions.mapM (evaluate ops b) = .ok outb)
    (hkeys : List.Forall₂ (fun key sortKey => expressions[key.index]? = some sortKey.expression ∧
      sortKey.descending = key.descending) orderBy sortKeys)
    (hpositions : List.Forall₂ (SortKey.At reverse) sortKeys positions) :
    compareRows outa outb orderBy = compareRows a b (walkKeys positions reverse) := by
  induction hkeys generalizing positions with
  | nil =>
      cases hpositions
      rfl
  | @cons key sortKey orderBy sortKeys hkey _ ih =>
      cases hpositions with
      | @cons _ i _ positions hat hpositions =>
          obtain ⟨name, dataType, rfl⟩ := hat
          obtain ⟨hexpression, hdescending⟩ := hkey
          have hcons : walkKeys (i :: positions) reverse = ⟨i, reverse⟩ :: walkKeys positions reverse := rfl
          rw [hcons, compareRows, compareRows, ih hpositions, getD_of_mapM ha hexpression, getD_of_mapM hb hexpression,
            ← hdescending]

end Order

/-! ## The answer -/

section Answer

variable {ops : FloatOps} {casefold : String → String} {catalog : Catalog} {header : PageContent}
  {content : Content} {s : PageStore} {sameRow : List Value → List Value → Bool} {e : String × TableSchema}
  {statement : BoundSelect} {path : CostedPath} {skip : Bool} {sortKeys : List SortKey}

/-- The rows that a projection makes of others. -/
theorem project_pulls {operator : Operator} {es : List BoundExpression} {rows produced : List (List Value)}
    (hpulls : operator.pulls ops s sameRow [] = rows.map .ok)
    (hproduced : List.Forall₂ (fun row out => es.mapM (evaluate ops row) = .ok out) rows produced) :
    (Operator.project operator es).pulls ops s sameRow [] = produced.map .ok := by
  rw [Operator.pulls, hpulls, List.map_map]
  clear hpulls
  induction hproduced with
  | nil => rfl
  | cons hrow _ ih => rw [List.map_cons, List.map_cons, ih, Function.comp_apply, ok_bind, hrow]

/-- Without DISTINCT every row is kept, with it the first of those that are the same. -/
theorem distinct_pulls {operator : Operator} {produced : List (List Value)} (distinct : Bool)
    (hpulls : operator.pulls ops s sameRow [] = produced.map .ok) : ∃ kept,
      (if distinct then Operator.distinct operator else operator).pulls ops s sameRow [] = kept.map .ok ∧
      (if distinct then Deduplicated sameRow produced kept else kept = produced) ∧ kept.Sublist produced := by
  cases distinct with
  | false => exact ⟨produced, by simpa using hpulls, by simp, List.Sublist.refl _⟩
  | true =>
      refine ⟨distinctFrom sameRow [] produced, ?_, ?_, distinctFrom_sublist sameRow [] produced⟩
      · simp only [if_true]
        rw [Operator.pulls, hpulls, distinctPulls_ok]
      · simpa using deduplicated_distinctFrom sameRow produced

/-- A walk in the order of ORDER BY makes answers in this order. -/
theorem Chosen.produced_sorted {condition : Option BoundExpression} {rows chosen : List (Int × List Value)}
    {path : AccessPath} {es : List BoundExpression} {orderBy : List BoundOrderKey} {produced : List (List Value)}
    (h : Chosen ops condition rows path chosen)
    (hkeys : List.Forall₂ (fun key sortKey => es[key.index]? = some sortKey.expression ∧
      sortKey.descending = key.descending) orderBy sortKeys)
    (hproduced : List.Forall₂ (fun row out => es.mapM (evaluate ops row) = .ok out) (chosen.map Prod.snd) produced)
    (hskip : path.outputOrder.take sortKeys.length = sortKeys) :
    produced.Pairwise fun a b => compareRows a b orderBy ≠ .gt := by
  obtain ⟨positions, hpositions, hsorted⟩ := h.sorted
  have hfirst : List.Forall₂ (SortKey.At path.reverse) sortKeys (positions.take sortKeys.length) := by
    have htake := List.forall₂_take sortKeys.length hpositions
    rwa [hskip] at htake
  have haligned := List.forall₂_iff_get.mp (List.forall₂_map_left_iff.mp hproduced)
  refine List.pairwise_iff_get.mpr fun i j hij => ?_
  have hlen := haligned.1
  have ha := haligned.2 i (by omega) i.isLt
  have hb := haligned.2 j (by omega) j.isLt
  have hle := List.pairwise_iff_get.mp hsorted ⟨i, by omega⟩ ⟨j, by omega⟩ hij
  have hsplit : walkKeys positions path.reverse = walkKeys (positions.take sortKeys.length) path.reverse ++
      walkKeys (positions.drop sortKeys.length) path.reverse := by
    rw [walkKeys, walkKeys, walkKeys, ← List.map_append, List.take_append_drop]
  rw [hsplit] at hle
  have hcompare := compareRows_of_mapM ha hb hkeys hfirst
  exact hcompare ▸ compareRows_prefix hle

/-- A SELECT over any path that the planner could choose answers what it asks. -/
theorem Stores.select (hs : Stores header catalog.slots content s) (h : InStep casefold catalog content)
    (he : e ∈ catalog.tables) (htable : statement.table = e.2)
    (hpath : Enumerated casefold e.2 (catalog.indexesFor casefold e.2.name)
      (classifiedPredicates (extractConjuncts statement.where_) 0) 0 path.toAccessPath)
    (hof : ∀ c ∈ extractConjuncts statement.where_, c.Of casefold e.2)
    (hanswerable : Answerable ops statement ((content.rows e.2.rootPage).map Prod.snd))
    (hserves : ∀ index ∈ catalog.indexesFor casefold e.2.name, index.Serves ops casefold e.2
      ((content.rows e.2.rootPage).map Prod.snd) (classifiedPredicates (extractConjuncts statement.where_) 0))
    (hkeys : orderBySortKeys statement.expressions statement.hiddenOrderBy statement.orderBy = .ok sortKeys)
    (hskip : skip = true → path.outputOrder.take sortKeys.length = sortKeys) :
    ∃ answer, (selectOperator statement path skip).pulls ops s sameRow [] = answer.map .ok ∧
      IsAnswer ops sameRow statement ((content.rows e.2.rootPage).map Prod.snd) answer := by
  obtain ⟨chosen, hsource, hchosen⟩ := hs.source sameRow h he hpath hof hanswerable.condition hserves
  have hperm : (chosen.map Prod.snd).Perm
      (((content.rows e.2.rootPage).map Prod.snd).filter (whereTrue ops statement.where_)) := by
    rw [List.filter_map]
    exact hchosen.perm.map Prod.snd
  -- the expressions for each
  have houts : ∀ row ∈ chosen.map Prod.snd, ∃ out,
      (statement.expressions ++ statement.hiddenOrderBy).mapM (evaluate ops row) = .ok out ∧
        Sortable statement.orderBy out := by
    intro row hrow
    obtain ⟨hmem, htrue⟩ := List.mem_filter.mp (hperm.mem_iff.mp hrow)
    exact hanswerable.produced row hmem htrue
  obtain ⟨produced, houts⟩ := exists_forall₂_iff.mpr houts
  have hproduced := houts.imp fun _ _ h => h.1
  have hprojected : (Operator.project (sourceOf statement.table statement.where_ path)
      (statement.expressions ++ statement.hiddenOrderBy)).pulls ops s sameRow [] = produced.map .ok := by
    apply project_pulls _ hproduced
    rw [htable, hsource, List.map_map]
    rfl
  obtain ⟨kept, hkept, hdistinct, hsub⟩ := distinct_pulls statement.distinct hprojected
  have hout : ∀ out ∈ kept, out.length = statement.expressions.length + statement.hiddenOrderBy.length ∧
      Sortable statement.orderBy out := by
    intro out hmem
    obtain ⟨row, -, hout, hsortable⟩ := exists_left houts (hsub.subset hmem)
    exact ⟨by rw [← (mapM_ok hout).length_eq, List.length_append], hsortable⟩
  have hheld : statement.orderBy ≠ [] → kept.length ≤ maxSortRows := by
    intro hne
    calc kept.length ≤ produced.length := hsub.length_le
      _ = (chosen.map Prod.snd).length := hproduced.length_eq.symm
      _ ≤ ((content.rows e.2.rootPage).map Prod.snd).length := by
        rw [hperm.length_eq]
        exact List.length_filter_le _ _
      _ ≤ maxSortRows := hanswerable.held hne
  have hsorted : skip = true → kept.Pairwise fun a b => compareRows a b statement.orderBy ≠ .gt := by
    intro htrue
    exact (hchosen.produced_sorted (orderBySortKeys_ok hkeys) hproduced (hskip htrue)).sublist hsub
  obtain ⟨sorted, hsort, hpairwise, hpulls⟩ := applyOrderLimit_pulls statement.limit statement.offset hkept
    (fun out h => (hout out h).1) (fun out h => (hout out h).2) hheld hsorted
  exact ⟨_, hpulls, chosen.map Prod.snd, produced, kept, sorted, hperm, hproduced, hdistinct, hsort, hpairwise, rfl⟩

end Answer

/-! ## Plans -/

section Plans

variable {ops : CostOps} {casefold : String → String} {catalog : Catalog} {stats : Planner.StatsSource}
  {table : TableSchema} {condition : Option BoundExpression} {sortKeys : List SortKey} {path : CostedPath}

/-- Estimates and costs do not change a path. -/
theorem toAccessPath_of_costPath {tableStats : Planner.TableStats} {path : AccessPath} {costed : CostedPath}
    (h : Planner.costPath ops stats tableStats path = .ok costed) : costed.toAccessPath = path := by
  obtain ⟨indexStats, -, h⟩ := bind_eq_ok h
  obtain ⟨estimated, hestimated, h⟩ := bind_eq_ok h
  obtain ⟨cost, -, h⟩ := bind_eq_ok h
  cases h
  obtain ⟨rowsFetched, -, hestimated⟩ := bind_eq_ok hestimated
  obtain ⟨fetched, -, hestimated⟩ := bind_eq_ok hestimated
  obtain ⟨surviving, -, hestimated⟩ := bind_eq_ok hestimated
  cases hestimated
  rfl

/-- The path of a plan is one that could be chosen, from the cache or not. -/
theorem enumerated_of_selectPath {cachedShape : Option PlanShape}
    (h : selectPath ops casefold catalog stats table condition sortKeys cachedShape = .ok path) :
    Enumerated casefold table (catalog.indexesFor casefold table.name)
      (classifiedPredicates (extractConjuncts condition) 0) 0 path.toAccessPath := by
  cases cachedShape with
  | some shape =>
      cases hrebuild : rebuildAccessPath casefold shape table (catalog.indexesFor casefold table.name)
          (classifiedPredicates (extractConjuncts condition) 0) 0 with
      | error e =>
          rw [selectPath, hrebuild] at h
          cases h
      | ok rebuilt =>
          rw [selectPath, hrebuild] at h
          cases h
          exact enumerated_of_rebuild hrebuild
  | none =>
      cases hchosen : Planner.singleTablePath ops casefold catalog stats table condition sortKeys with
      | error e =>
          rw [selectPath, hchosen] at h
          cases h
      | ok chosen =>
          rw [selectPath, hchosen] at h
          cases h
          obtain ⟨tableStats, -, hchosen⟩ := bind_eq_ok hchosen
          obtain ⟨costed, hcosted, hchosen⟩ := bind_eq_ok hchosen
          obtain ⟨candidates, hcandidates, hcosted⟩ := bind_eq_ok hcosted
          obtain ⟨candidate, hmem, hcost⟩ := exists_left (mapM_ok hcosted) (Planner.mem_of_chooseBy hchosen)
          rw [toAccessPath_of_costPath hcost]
          exact enumerated_of_mem hcandidates candidate hmem

/-- A sort is left out only where the path has the order. -/
theorem order_of_skipSort (hsort : ops.SortCosts) {outputOrder : List SortKey} {estRows : Int}
    (h : skipSort ops outputOrder estRows sortKeys = .ok true) : outputOrder.take sortKeys.length = sortKeys := by
  rw [skipSort] at h
  split at h
  · cases h
  · obtain ⟨cost, hcost, h⟩ := bind_eq_ok h
    have hzero : realNumber cost = .finite 0 := by simpa using Except.ok.inj h
    exact order_of_sortCost hsort hcost hzero

/-- What a plan is made of. -/
theorem planSelect_parts {sql : String} {schemaCookie : Nat} {statement : BoundSelect} {cache cache' : PlanCache}
    {operator : Operator}
    (h : planSelect ops casefold catalog stats sql schemaCookie statement cache = (.ok operator, cache')) :
    ∃ sortKeys path skip, operator = selectOperator statement path skip ∧
      orderBySortKeys statement.expressions statement.hiddenOrderBy statement.orderBy = .ok sortKeys ∧
      selectPath ops casefold catalog stats statement.table statement.where_ sortKeys (cache.get sql schemaCookie) =
        .ok path ∧
      skipSort ops path.outputOrder path.estRows sortKeys = .ok skip := by
  have hmapError : ∀ {α : Type} {r : Except DbError α} {a : α}, r.mapError PlanError.raised = .ok a → r = .ok a := by
    intro α r a hr
    cases r with
    | ok b =>
        cases hr
        rfl
    | error e => cases hr
  obtain ⟨_, _, hstate, h⟩ := exists_of_bind_ok h
  cases hstate
  rw [buildSelectOperator] at h
  obtain ⟨sortKeys, hkeys, h⟩ := of_lift_bind_ok h
  obtain ⟨path, hpath, h⟩ := of_lift_bind_ok h
  obtain ⟨_, _, -, h⟩ := exists_of_bind_ok h
  obtain ⟨skip, hskip, h⟩ := of_lift_bind_ok h
  cases h
  exact ⟨sortKeys, path, skip, rfl, hmapError hkeys, hpath, hmapError hskip⟩

/-- The path of a plan could be chosen, and sorts for itself where nothing else does. -/
theorem planSelect_ok {sql : String} {schemaCookie : Nat} {statement : BoundSelect} {cache cache' : PlanCache}
    {operator : Operator} (hsort : ops.SortCosts)
    (h : planSelect ops casefold catalog stats sql schemaCookie statement cache = (.ok operator, cache')) :
    ∃ path skip sortKeys, operator = selectOperator statement path skip ∧
      Enumerated casefold statement.table (catalog.indexesFor casefold statement.table.name)
        (classifiedPredicates (extractConjuncts statement.where_) 0) 0 path.toAccessPath ∧
      orderBySortKeys statement.expressions statement.hiddenOrderBy statement.orderBy = .ok sortKeys ∧
      (skip = true → path.outputOrder.take sortKeys.length = sortKeys) := by
  obtain ⟨sortKeys, path, skip, hoperator, hkeys, hpath, hskip⟩ := planSelect_parts h
  refine ⟨path, skip, sortKeys, hoperator, enumerated_of_selectPath hpath, hkeys, ?_⟩
  rintro rfl
  exact order_of_skipSort hsort hskip

end Plans

/-! ## Bound statements -/

section Bound

variable {casefold : String → String} {parameters : List Value} {table : TableSchema}

/-- The columns of a bound expression are columns of the table. -/
theorem expression_of (e : Ast.Expression) {bound : BoundExpression} {consumed consumed' : List Nat}
    (h : Binder.expression casefold parameters table e consumed = (.ok bound, consumed')) :
    bound.Of casefold table := by
  cases e with
  | literal value =>
      cases h
      trivial
  | parameter index =>
      obtain ⟨value, _, -, h⟩ := exists_of_bind_ok h
      cases h
      trivial
  | column name qualifier =>
      obtain ⟨index, hindex, h⟩ := of_lift_bind_ok h
      cases hcolumn : table.columns[index]? with
      | none =>
          simp only [hcolumn] at h
          cases h
      | some column =>
          simp only [hcolumn] at h
          cases h
          -- the name of the column that was found finds it too
          have hfold : casefold column.name = casefold name := by
            unfold TableSchema.columnIndex at hindex
            split at hindex
            · rename_i i hfind
              cases hindex
              obtain ⟨hlt, hname, -⟩ := List.findIdx?_eq_some_iff_getElem.mp hfind
              rw [List.getElem?_eq_getElem hlt] at hcolumn
              cases hcolumn
              simpa using hname
            · cases hindex
          refine ⟨rfl, ?_⟩
          unfold TableSchema.columnIndex at hindex ⊢
          rw [hfold]
          split at hindex
          · exact hindex
          · cases hindex
  | unaryOp operator operand =>
      obtain ⟨_, _, hoperand, h⟩ := exists_of_bind_ok h
      cases h
      have hof := expression_of operand hoperand
      exact hof
  | isNull operand negated =>
      obtain ⟨_, _, hoperand, h⟩ := exists_of_bind_ok h
      cases h
      have hof := expression_of operand hoperand
      exact hof
  | binaryOp left operator right =>
      obtain ⟨_, _, hleft, h⟩ := exists_of_bind_ok h
      obtain ⟨_, _, hright, h⟩ := exists_of_bind_ok h
      cases h
      exact ⟨expression_of left hleft, expression_of right hright⟩
  | functionCall name args star => cases h

/-- A bound SELECT is over a table of the catalog, and its WHERE names the columns of it. -/
theorem bindSelect_ok {getTable : String → Except DbError TableSchema} {statement : Ast.Select} {bound : BoundSelect}
    (h : Binder.bind parameters (Binder.bindSelect casefold getTable parameters statement) = .ok bound) :
    getTable statement.table.name = .ok bound.table ∧
      ∀ c ∈ extractConjuncts bound.where_, c.Of casefold bound.table := by
  rw [Binder.bind] at h
  split at h
  · cases h
  · rename_i found consumed hbind
    split at h
    · cases h
    · cases h
      obtain ⟨table, htable, hbind⟩ := of_lift_bind_ok hbind
      obtain ⟨produced, _, -, hbind⟩ := exists_of_bind_ok hbind
      obtain ⟨condition, _, hcondition, hbind⟩ := exists_of_bind_ok hbind
      obtain ⟨keys, _, -, hbind⟩ := exists_of_bind_ok hbind
      obtain ⟨_, _, -, hbind⟩ := exists_of_bind_ok hbind
      obtain ⟨limit, _, -, hbind⟩ := exists_of_bind_ok hbind
      obtain ⟨offset, _, -, hbind⟩ := exists_of_bind_ok hbind
      cases hbind
      refine ⟨htable, ?_⟩
      cases hclause : statement.condition with
      | none =>
          rw [hclause] at hcondition
          cases hcondition
          exact fun c hc => absurd hc List.not_mem_nil
      | some e =>
          rw [hclause] at hcondition
          obtain ⟨clause, _, hclause, hcondition⟩ := exists_of_bind_ok hcondition
          cases hcondition
          exact (expression_of _ hclause).conjunct

end Bound

/-! ## Runs -/

section Runs

variable {casefold : String → String} {floats : FloatOps} {ops : CostOps}
  {listEq sameRow : List Value → List Value → Bool} {db db' : Database} {mutations : List Mutation}

/-- After every run of statements, a SELECT from one table answers what it asks of the rows
that a walk over the table finds, whatever the statistics say and whatever is in the plan
cache. -/
theorem select_answers (hdb : IndexesInStep casefold db)
    (hrun : Executes casefold floats listEq (Mutation.Clean casefold floats) db mutations db')
    (hsmall : db'.store.pageCount < 2 ^ 32) (hsort : ops.SortCosts) {parameters : List Value} {statement : Ast.Select}
    {bound : BoundSelect}
    (hbind : Binder.bind parameters (Binder.bindSelect casefold (db'.catalog.getTable casefold) parameters statement) =
      .ok bound)
    {stats : Planner.StatsSource} {sql : String} {schemaCookie : Nat} {cache cache' : PlanCache} {operator : Operator}
    (hplan : planSelect ops casefold db'.catalog stats sql schemaCookie bound cache = (.ok operator, cache'))
    {rows : List (List Value)} (hrows : seqScanPulls db'.store bound.table = rows.map .ok)
    (hanswerable : Answerable ops.toFloatOps bound rows)
    (hserves : ∀ index ∈ db'.catalog.indexesFor casefold bound.table.name, index.Serves ops.toFloatOps casefold
      bound.table rows (classifiedPredicates (extractConjuncts bound.where_) 0)) :
    ∃ answer, operator.pulls ops.toFloatOps db'.store sameRow [] = answer.map .ok ∧
      IsAnswer ops.toFloatOps sameRow bound rows answer := by
  obtain ⟨header, content, hs, hstep⟩ := hrun.induct hsmall hdb fun mutation db hdb hclean =>
    Mutation.run_inStep hdb hclean
  obtain ⟨htable, hof⟩ := bindSelect_ok hbind
  obtain ⟨e, he, heq⟩ := mem_tables htable
  obtain ⟨path, skip, sortKeys, rfl, hpath, hkeys, hskip⟩ := planSelect_ok hsort hplan
  rw [← heq] at hpath hof hserves hrows
  have hcontent : rows = (content.rows e.2.rootPage).map Prod.snd := by
    have hscan := hrows.symm.trans (hs.seqScan (table_mem_slots he))
    rw [← Function.comp_def, ← List.map_map] at hscan
    exact List.map_injective_iff.mpr (fun _ _ h => Except.ok.inj h) hscan
  rw [hcontent] at hanswerable hserves ⊢
  exact hs.select hstep he heq.symm hpath hof hanswerable hserves hkeys hskip

end Runs

/-! ## A table with several rows -/

/-- `SELECT DISTINCT a FROM t WHERE a >= ? AND a < 9 ORDER BY a DESC LIMIT 1`. -/
def fiveUp : Ast.Select where
  expressions := some [.column "a" none]
  table := ⟨"t", none⟩
  condition := some (.binaryOp (.binaryOp (.column "a" none) .ge (.parameter 0)) .and
    (.binaryOp (.column "a" none) .lt (.literal (.int 9))))
  distinct := true
  orderBy := [⟨.column "a" none, true⟩]
  limit := some (.literal (.int 1))
  offset := none

def pairsTable : TableSchema := ⟨"t", [⟨"a", .integer⟩, ⟨"b", .text⟩], 3, "CREATE TABLE t (a INTEGER, b TEXT)"⟩

def pairsByA : IndexSchema := ⟨"i", "t", ["a"], true, 4, "CREATE UNIQUE INDEX i ON t (a)"⟩

def pairsByB : IndexSchema := ⟨"j", "t", ["b"], false, 5, "CREATE INDEX j ON t (b)"⟩

def pairsColumn : BoundExpression := .column ⟨0, "a", .integer, 0⟩

/-- The statement with 5 for its parameter. -/
def fiveUpBound : BoundSelect where
  table := pairsTable
  expressions := [pairsColumn]
  where_ := some (.binaryOp (.binaryOp pairsColumn .ge (.literal (.int 5))) .and
    (.binaryOp pairsColumn .lt (.literal (.int 9))))
  distinct := true
  orderBy := [⟨0, true⟩]
  hiddenOrderBy := []
  limit := some 1
  offset := 0

/-- Statistics of a table with many rows. -/
def manyRows : Planner.StatsSource := ⟨fun _ => .ok ⟨1000, 100, 2⟩, fun _ => .ok ⟨1000, [1], 2, 30⟩⟩

/-- The rows that `severalRows` leaves. -/
def pairs : List (List Value) :=
  [[.int 5, .text "x"], [.int 7, .text "y"], [.int 1, .text "x"], [.int 2, .text "x"]]

theorem not_isNan_int (n : Int) : ¬ (Value.int n).isNan := fun h => Number.noConfusion (Option.some.inj h)

theorem pairs_int : ∀ row ∈ pairs, ∃ n b, row = [.int n, .text b] := by
  simp only [pairs, List.forall_mem_cons]
  exact ⟨⟨_, _, rfl⟩, ⟨_, _, rfl⟩, ⟨_, _, rfl⟩, ⟨_, _, rfl⟩, fun row hrow => absurd hrow List.not_mem_nil⟩

theorem fiveUp_answerable (ops : FloatOps) : Answerable ops fiveUpBound pairs := by
  constructor
  · constructor
    · intro row hrow
      obtain ⟨n, b, rfl⟩ := pairs_int row hrow
      have hconjuncts : extractConjuncts fiveUpBound.where_ =
          [.binaryOp pairsColumn .ge (.literal (.int 5)), .binaryOp pairsColumn .lt (.literal (.int 9))] := rfl
      rw [hconjuncts, List.forall_mem_cons, List.forall_mem_singleton]
      exact ⟨⟨_, rfl⟩, _, rfl⟩
    · have hpredicates : (classifiedPredicates (extractConjuncts fiveUpBound.where_) 0).map (fun p => p.val.value) =
          [.literal (.int 5), .literal (.int 9)] := by decide
      have hvalues : ∀ e ∈ (classifiedPredicates (extractConjuncts fiveUpBound.where_) 0).map fun p => p.val.value,
          ∃ v, evaluate ops [] e = .ok v := by
        rw [hpredicates, List.forall_mem_cons, List.forall_mem_singleton]
        exact ⟨⟨_, rfl⟩, _, rfl⟩
      exact fun p hp => hvalues _ (List.mem_map_of_mem hp)
  · intro row hrow _
    obtain ⟨n, b, rfl⟩ := pairs_int row hrow
    refine ⟨[.int n], rfl, ?_⟩
    have hkeys : fiveUpBound.orderBy = [⟨0, true⟩] := rfl
    rw [Sortable, hkeys, List.forall_mem_singleton]
    exact not_isNan_int n
  · intro _
    decide

theorem pairsByA_serves (ops : FloatOps) : pairsByA.Serves ops id pairsTable pairs
    (classifiedPredicates (extractConjuncts fiveUpBound.where_) 0) := by
  generalize hpredicates : classifiedPredicates (extractConjuncts fiveUpBound.where_) 0 = predicates
  have hpinned : pinnedColumns predicates pairsByA.columns = [] := by
    rw [← hpredicates]
    decide
  constructor
  · constructor
    · rw [hpinned]
      exact List.nodup_nil
    · rw [hpinned]
      exact fun c hc => absurd hc List.not_mem_nil
    · intro c rest hstop
      have hwalk : pairsByA.columns.dropWhile (passes predicates) = ["a"] := by
        rw [← hpredicates]
        decide
      cases hwalk.symm.trans hstop
      rw [← hpredicates]
      decide
  · intro ranges hranges p hp i hi row hrow hslips
    have hvalues : (inequalities (seekTermsOf (onColumn predicates) pairsByA.columns)).map (fun p => p.val.value) =
        [.literal (.int 5), .literal (.int 9)] := by
      rw [← hpredicates]
      decide
    -- neither the row nor a bound holds a NaN or NULL
    have hints : ∀ t ∈ ranges, ¬ t.value.isNan := by
      intro t ht
      obtain ⟨q, hq, hqt⟩ := exists_left hranges ht
      have hmem := List.mem_map_of_mem (f := fun p : Object Predicate => p.val.value) hq
      rw [hvalues] at hmem
      have hvalue := hqt.2
      rw [seekValue] at hvalue
      rcases List.mem_cons.mp hmem with heq | hmem
      · rw [heq, evaluate] at hvalue
        exact Except.ok.inj hvalue ▸ not_isNan_int 5
      · rw [List.mem_singleton.mp hmem, evaluate] at hvalue
        exact Except.ok.inj hvalue ▸ not_isNan_int 9
    have hcolumn : pairsTable.columnIndex id p.val.column = .ok 0 := by
      have hcolumns : ∀ q ∈ inequalities (seekTermsOf (onColumn predicates) pairsByA.columns),
          q.val.column = "a" := by
        rw [← hpredicates]
        decide
      rw [hcolumns p hp]
      rfl
    cases hi.symm.trans hcolumn
    obtain ⟨n, b, rfl⟩ := pairs_int row hrow
    cases hslips with
    | null hc => cases hc
    | nan t hc => exact not_isNan_int n hc
    | number t _ _ ht hbound => exact hints t ht hbound

/-- No term is about the column of the other index. -/
theorem pairsByB_serves (ops : FloatOps) : pairsByB.Serves ops id pairsTable pairs
    (classifiedPredicates (extractConjuncts fiveUpBound.where_) 0) := by
  generalize hpredicates : classifiedPredicates (extractConjuncts fiveUpBound.where_) 0 = predicates
  have hpinned : pinnedColumns predicates pairsByB.columns = [] := by
    rw [← hpredicates]
    decide
  have hterms : inequalities (seekTermsOf (onColumn predicates) pairsByB.columns) = [] := by
    rw [← hpredicates]
    decide
  constructor
  · constructor
    · rw [hpinned]
      exact List.nodup_nil
    · rw [hpinned]
      exact fun c hc => absurd hc List.not_mem_nil
    · intro c rest hstop
      have hwalk : pairsByB.columns.dropWhile (passes predicates) = ["b"] := by
        rw [← hpredicates]
        decide
      cases hwalk.symm.trans hstop
      rw [← hpredicates]
      decide
  · intro ranges _ p hp
    rw [hterms] at hp
    cases hp

theorem severalRows_table : severalRowsDatabase.catalog.getTable id "t" = .ok pairsTable := by decide +kernel

theorem severalRows_indexes : severalRowsDatabase.catalog.indexesFor id "t" = [pairsByA, pairsByB] := by
  decide +kernel

theorem severalRows_pulls : seqScanPulls severalRowsDatabase.store pairsTable = pairs.map .ok := by decide +kernel

/-- The index finds the answer. -/
theorem select_answers_severalRows : ∃ operator cache,
    planSelect roundingFloats id severalRowsDatabase.catalog manyRows "SELECT" 5 fiveUpBound {} =
      (.ok operator, cache) ∧
    cache.get "SELECT" 5 = some ⟨.indexScan, some "i", false⟩ ∧
    ∃ answer, operator.pulls roundingFloats.toFloatOps severalRowsDatabase.store tupleEq [] = answer.map .ok ∧
      IsAnswer roundingFloats.toFloatOps tupleEq fiveUpBound pairs answer := by
  have hplanned : (planSelect roundingFloats id severalRowsDatabase.catalog manyRows "SELECT" 5 fiveUpBound {}).1.isOk ∧
      (planSelect roundingFloats id severalRowsDatabase.catalog manyRows "SELECT" 5 fiveUpBound {}).2.get "SELECT" 5 =
        some ⟨.indexScan, some "i", false⟩ := by decide +kernel
  have hbind : Binder.bind [.int 5] (Binder.bindSelect id (severalRowsDatabase.catalog.getTable id) [.int 5] fiveUp) =
      .ok fiveUpBound := by
    have hget : severalRowsDatabase.catalog.getTable id fiveUp.table.name = .ok pairsTable := severalRows_table
    rw [Binder.bind, Binder.bindSelect, hget]
    rfl
  have hserves : ∀ index ∈ severalRowsDatabase.catalog.indexesFor id "t", index.Serves roundingFloats.toFloatOps id
      pairsTable pairs (classifiedPredicates (extractConjuncts fiveUpBound.where_) 0) := by
    rw [severalRows_indexes, List.forall_mem_cons, List.forall_mem_singleton]
    exact ⟨pairsByA_serves _, pairsByB_serves _⟩
  cases hplan : planSelect roundingFloats id severalRowsDatabase.catalog manyRows "SELECT" 5 fiveUpBound {} with
  | mk result cache =>
      rw [hplan] at hplanned
      cases result with
      | error e => cases hplanned.1
      | ok operator =>
          refine ⟨operator, cache, rfl, hplanned.2, ?_⟩
          exact select_answers (newDatabase_inStep id) severalRows_clean severalRows_small roundingFloats_sortCosts
            hbind hplan severalRows_pulls (fiveUp_answerable _) hserves

end QuillDb
