/-
  Exec/Cached.lean --- the plan cache is not seen.

  Source: `quilldb/plan/cache.py`, the SELECT branch of `execute` and `_end_txn` in
  `quilldb/api/connection.py`, `rebuild_access_path` of `quilldb/plan/planner.py`.

  What is cached is a shape: the name of an index and a direction, under the text and the
  schema cookie.  Every change of the schema or of the statistics bumps the cookie, so a shape
  that is found leads to the path that planning afresh would choose.  A rollback gives the
  cookies of its changes back: behind one of them nothing may have been planned.  Not among
  the events is a statement that writes `quill_stat1` itself, which bumps no cookie.
-/
import QuillDb.Exec.Analyzed
import QuillDb.Exec.Rebound
import QuillDb.Exec.Select
import QuillDb.Lib.Spans

set_option autoImplicit false

namespace QuillDb

open Prog Fallible

/-! ## A path and its shape -/

section Shape

variable {casefold : String → String} {table : TableSchema} {indexes : List IndexSchema}
  {predicates : List (Object Predicate)} {tableOrdinal : Nat} {path : AccessPath}

/-- Where no two indexes share a name, a path that could be chosen is the one that is rebuilt
from its shape. -/
theorem rebuild_shape (hnodup : (indexes.map fun index => some index.name).Nodup)
    (h : Enumerated casefold table indexes predicates tableOrdinal path) :
    rebuildAccessPath casefold (accessPathShape path) table indexes predicates tableOrdinal = .ok path := by
  have hfind : ∀ index ∈ indexes,
      indexes.find? (fun other => decide (some other.name = some index.name)) = some index :=
    fun index hindex => Spans.find?_of_mem hnodup hindex
  cases h with
  | seqScan => rfl
  | seek index hindex hterms =>
      unfold rebuildAccessPath accessPathShape
      dsimp only [Option.map_some]
      rw [hfind index hindex]
      dsimp only
      rw [matchIndexPrefix_eq, if_neg hterms]
  | walk index hindex hterms reverse path hpath =>
      obtain ⟨outputOrder, horder, heq⟩ := bind_eq_ok hpath
      cases heq
      unfold rebuildAccessPath accessPathShape
      dsimp only [Option.map_some]
      rw [hfind index hindex]
      dsimp only
      rw [matchIndexPrefix_eq, if_pos hterms, hpath]
      rfl

end Shape

/-! ## A tree and its path -/

section Tree

variable {a b : Operator} {path path' : CostedPath} {ops : FloatOps} {s : PageStore}
  {sameRow : List Value → List Value → Bool}

theorem filtered_pulls_congr (h : ∀ outer, a.pulls ops s sameRow outer = b.pulls ops s sameRow outer)
    (condition : Option BoundExpression) (outer : List Value) :
    (a.filtered condition).pulls ops s sameRow outer = (b.filtered condition).pulls ops s sameRow outer := by
  cases condition with
  | none => exact h outer
  | some predicate => simp only [Operator.filtered, Operator.pulls, h]

theorem applyOrderLimit_pulls_congr (h : ∀ outer, a.pulls ops s sameRow outer = b.pulls ops s sameRow outer)
    (visibleCount : Nat) (orderBy : List BoundOrderKey) (hidden : List BoundExpression) (limit : Option Nat)
    (offset : Nat) (skip : Bool) (outer : List Value) :
    (a.applyOrderLimit visibleCount orderBy hidden limit offset skip).pulls ops s sameRow outer =
      (b.applyOrderLimit visibleCount orderBy hidden limit offset skip).pulls ops s sameRow outer := by
  unfold Operator.applyOrderLimit
  split_ifs <;> simp only [Operator.stripHiddenColumns, Operator.pulls, h]

/-- The estimates of a path are for EXPLAIN alone. -/
theorem scan_pulls_congr (h : path.toAccessPath = path'.toAccessPath) (table : TableSchema) (outer : List Value) :
    (Operator.scan table path).pulls ops s sameRow outer = (Operator.scan table path').pulls ops s sameRow outer := by
  have hkind : path.kind = path'.kind := congrArg AccessPath.kind h
  unfold Operator.scan
  rw [hkind]
  cases path'.kind with
  | seqScan => rfl
  | indexScan => simp only [Operator.pulls, h]

/-- Trees over one path pull the same rows, or the same errors. -/
theorem selectOperator_pulls_congr (h : path.toAccessPath = path'.toAccessPath) (statement : BoundSelect) (skip : Bool)
    (outer : List Value) :
    (selectOperator statement path skip).pulls ops s sameRow outer =
      (selectOperator statement path' skip).pulls ops s sameRow outer := by
  have hresidual : path.residual = path'.residual := congrArg AccessPath.residual h
  have hsource : ∀ outer, (sourceOf statement.table statement.where_ path).pulls ops s sameRow outer =
      (sourceOf statement.table statement.where_ path').pulls ops s sameRow outer := by
    intro outer
    rw [sourceOf, sourceOf, hresidual]
    exact filtered_pulls_congr (scan_pulls_congr h _) _ outer
  apply applyOrderLimit_pulls_congr
  intro outer
  split <;> simp only [Operator.pulls, hsource]

end Tree

/-! ## The decision to sort -/

section Order

variable {ops : CostOps} {outputOrder sortKeys : List SortKey} {estRows : Int} {skip : Bool}

/-- Whether to sort does not depend on the estimate. -/
theorem skipSort_none (hsort : ops.SortCosts) (hconverts : ops.Converts)
    (h : skipSort ops outputOrder estRows sortKeys = .ok skip) : skipSort ops outputOrder 0 sortKeys = .ok skip := by
  unfold skipSort at h ⊢
  split at h
  · rename_i hnone
    rw [if_pos hnone]
    exact h
  · rename_i hsome
    rw [if_neg hsome]
    obtain ⟨cost, hcost, h⟩ := bind_eq_ok h
    cases h
    unfold Planner.sortCost at hcost ⊢
    split at hcost
    · rename_i hordered
      rw [if_pos hordered]
      cases hcost
      rfl
    · rename_i hunordered
      rw [if_neg hunordered]
      obtain ⟨rowCost, hrow, hcost⟩ := bind_eq_ok hcost
      cases hcost
      -- without an estimate, two rows are what is sorted
      have htwo : (2 : Int).natAbs ≤ maxFloat := natAbs_le_of_fits (by decide)
      obtain ⟨rowCost', hrow'⟩ := Planner.timesInt_ok hconverts Planner.cpuPerRow htwo
      have hpays := hsort _ _ (le_max_left ..) hrow
      have hpays' := hsort _ _ le_rfl hrow'
      simp [hrow', hpays, hpays', bind, Except.bind]

end Order

/-! ## What is in the cache -/

section Learned

variable {ops : CostOps} {casefold : String → String} {catalog : Catalog} {stats : Planner.StatsSource} {sql : String}
  {schemaCookie : Nat} {statement : BoundSelect} {cache : PlanCache} {sortKeys : List SortKey} {path : CostedPath}
  {skip : Bool}

theorem mapError_of_ok {α : Type} {r : Except DbError α} {a : α} (h : r = .ok a) :
    r.mapError PlanError.raised = .ok a := by
  rw [h]
  rfl

theorem planSelect_of
    (hkeys : orderBySortKeys statement.expressions statement.hiddenOrderBy statement.orderBy = .ok sortKeys)
    (hpath : selectPath ops casefold catalog stats statement.table statement.where_ sortKeys
      (cache.get sql schemaCookie) = .ok path)
    (hskip : skipSort ops path.outputOrder path.estRows sortKeys = .ok skip) :
    (planSelect ops casefold catalog stats sql schemaCookie statement cache).1 =
      .ok (selectOperator statement path skip) := by
  rw [planSelect, bind_of_ok (state_apply cache), buildSelectOperator, mapError_of_ok hkeys,
    bind_of_ok (lift_apply _ cache), hpath, bind_of_ok (lift_apply _ cache)]
  cases cache.get sql schemaCookie with
  | none =>
      rw [if_pos rfl, bind_of_ok (update_apply _ cache), hskip]
      rfl
  | some shape =>
      rw [if_neg (Option.some_ne_none shape), bind_of_ok (pure_apply () cache), hskip]
      rfl

theorem singleTablePath_of_selectPath
    (h : selectPath ops casefold catalog stats statement.table statement.where_ sortKeys none = .ok path) :
    Planner.singleTablePath ops casefold catalog stats statement.table statement.where_ sortKeys = .ok path := by
  rw [selectPath] at h
  cases hchosen : Planner.singleTablePath ops casefold catalog stats statement.table statement.where_ sortKeys with
  | error e =>
      rw [hchosen] at h
      cases h
  | ok chosen =>
      rw [hchosen] at h
      cases h
      rfl

/-- Planning leaves the cache as it is, or puts in it the shape of the path it has chosen. -/
theorem planSelect_exec (cache : PlanCache) :
    (planSelect ops casefold catalog stats sql schemaCookie statement).exec cache = cache ∨
      ∃ sortKeys path,
        orderBySortKeys statement.expressions statement.hiddenOrderBy statement.orderBy = .ok sortKeys ∧
        Planner.singleTablePath ops casefold catalog stats statement.table statement.where_ sortKeys = .ok path ∧
        (planSelect ops casefold catalog stats sql schemaCookie statement).exec cache =
          cache.put sql schemaCookie (accessPathShape path.toAccessPath) := by
  rw [exec, planSelect, bind_of_ok (state_apply cache), buildSelectOperator]
  cases hkeys : orderBySortKeys statement.expressions statement.hiddenOrderBy statement.orderBy with
  | error e => exact .inl rfl
  | ok sortKeys =>
      rw [mapError_of_ok rfl, bind_of_ok (lift_apply _ cache)]
      cases hpath : selectPath ops casefold catalog stats statement.table statement.where_ sortKeys
          (cache.get sql schemaCookie) with
      | error e => exact .inl rfl
      | ok path =>
          rw [bind_of_ok (lift_apply _ cache)]
          cases hget : cache.get sql schemaCookie with
          | some shape =>
              left
              rw [if_neg (Option.some_ne_none shape), bind_of_ok (pure_apply () cache)]
              cases skipSort ops path.outputOrder path.estRows sortKeys with
              | error e => rfl
              | ok skip => rfl
          | none =>
              right
              rw [hget] at hpath
              refine ⟨sortKeys, path, rfl, singleTablePath_of_selectPath hpath, ?_⟩
              rw [if_pos rfl, bind_of_ok (update_apply _ cache)]
              cases skipSort ops path.outputOrder path.estRows sortKeys with
              | error e => rfl
              | ok skip => rfl

end Learned

/-! ## Runs -/

/-- What planning goes by: the schema, the figures about it, and the cookie they go with. -/
structure PlanBasis where
  catalog : Catalog
  statistics : Planner.StatsSource
  schemaCookie : Nat

/-- With the plan cache, and with what ROLLBACK would bring back. -/
structure Planning extends PlanBasis where
  cache : PlanCache := {}
  begun : Option PlanBasis := none

/-- A text is planned for some parameters; a CREATE or an ANALYZE changes what planning goes
by; BEGIN, COMMIT and ROLLBACK. -/
inductive PlanningEvent where
  | plan (sql : String) (parameters : List Value)
  | change (catalog : Catalog) (statistics : Planner.StatsSource)
  | begin_
  | commit
  | rollback

namespace Planning

variable (ops : CostOps) (casefold : String → String) (bound : String → List Value → Catalog → BoundSelect)

/-- The planning of a text. -/
def plan (s : PlanBasis) (sql : String) (parameters : List Value) : Prog PlanError PlanCache Operator :=
  planSelect ops casefold s.catalog s.statistics sql s.schemaCookie (bound sql parameters s.catalog)

/-- An event; every change bumps the cookie, and nothing takes a shape out of the cache. -/
def next (s : Planning) : PlanningEvent → Planning
  | .plan sql parameters => { s with cache := (plan ops casefold bound s.toPlanBasis sql parameters).exec s.cache }
  | .change catalog statistics =>
      { s with catalog := catalog, statistics := statistics, schemaCookie := (s.schemaCookie + 1) % 2 ^ 32 }
  | .begin_ => { s with begun := s.begun.or (some s.toPlanBasis) }
  | .commit => { s with begun := none }
  | .rollback => { s.begun.getD s.toPlanBasis with cache := s.cache }

/-- Nothing that is in the cache was planned behind a change of the open transaction. -/
def Forgettable (s : Planning) : Prop :=
  ∀ basis ∈ s.begun, ∀ sql entry, s.cache.entries.lookup sql = some entry → entry.schemaCookie ≤ basis.schemaCookie

/-- An event, as long as the cookie does not wrap round; a rollback leaves no shape behind. -/
def Next (event : PlanningEvent) (s s' : Planning) : Prop :=
  s.schemaCookie + 1 < 2 ^ 32 ∧ (event = .rollback → s.Forgettable) ∧ s.next ops casefold bound event = s'

/-- The path that planning a text afresh chooses. -/
def Chooses (s : PlanBasis) (sql : String) (parameters : List Value) (path : CostedPath) : Prop :=
  ∃ sortKeys, orderBySortKeys (bound sql parameters s.catalog).expressions
      (bound sql parameters s.catalog).hiddenOrderBy (bound sql parameters s.catalog).orderBy = .ok sortKeys ∧
    Planner.singleTablePath ops casefold s.catalog s.statistics (bound sql parameters s.catalog).table
      (bound sql parameters s.catalog).where_ sortKeys = .ok path

/-- What has the cookie of a basis is the shape of a path that planning afresh chooses from it. -/
def Known (s : PlanBasis) (cache : PlanCache) : Prop :=
  ∀ sql entry, cache.entries.lookup sql = some entry → entry.schemaCookie = s.schemaCookie →
    ∃ parameters path, Chooses ops casefold bound s sql parameters path ∧
      entry.shape = accessPathShape path.toAccessPath

/-- No cookie in the cache is still to come, and what has the cookie of today, or of the BEGIN
of an open transaction, is known. -/
structure Learned (s : Planning) : Prop where
  past : ∀ sql entry, s.cache.entries.lookup sql = some entry → entry.schemaCookie ≤ s.schemaCookie
  known : Known ops casefold bound s.toPlanBasis s.cache
  begun : ∀ basis ∈ s.begun, basis.schemaCookie ≤ s.schemaCookie ∧
    (basis.schemaCookie = s.schemaCookie → basis = s.toPlanBasis) ∧ Known ops casefold bound basis s.cache

variable {ops casefold bound} {s s' : Planning} {event : PlanningEvent} {events : List PlanningEvent}

/-- A shape that is put in the cache with the cookie of today. -/
theorem Learned.put (h : s.Learned ops casefold bound) {sql : String} {parameters : List Value} {path : CostedPath}
    (hpath : Chooses ops casefold bound s.toPlanBasis sql parameters path) :
    Learned ops casefold bound { s with
      cache := s.cache.put sql s.schemaCookie (accessPathShape path.toAccessPath) } := by
  have hknown : ∀ basis : PlanBasis, (basis.schemaCookie = s.schemaCookie → basis = s.toPlanBasis) →
      Known ops casefold bound basis s.cache →
        Known ops casefold bound basis (s.cache.put sql s.schemaCookie (accessPathShape path.toAccessPath)) := by
    intro basis hsame hbasis sql' entry hentry hcookie
    rw [PlanCache.put, Dict.lookup_put] at hentry
    split at hentry
    · rename_i heq
      cases heq
      cases hentry
      obtain rfl := hsame hcookie.symm
      exact ⟨parameters, path, hpath, rfl⟩
    · exact hbasis sql' entry hentry hcookie
  constructor
  · intro sql' entry hentry
    change (s.cache.put sql s.schemaCookie (accessPathShape path.toAccessPath)).entries.lookup sql' = _ at hentry
    rw [PlanCache.put, Dict.lookup_put] at hentry
    split at hentry
    · cases hentry
      exact le_rfl
    · exact h.past sql' entry hentry
  · exact hknown s.toPlanBasis (fun _ => rfl) h.known
  · intro basis hbasis
    obtain ⟨hle, hsame, hbefore⟩ := h.begun basis hbasis
    exact ⟨hle, hsame, hknown basis hsame hbefore⟩

theorem Learned.step (h : s.Learned ops casefold bound) (hnext : Next ops casefold bound event s s') :
    s'.Learned ops casefold bound := by
  obtain ⟨hcookie, hforgettable, rfl⟩ := hnext
  cases event with
  | plan sql parameters =>
      rcases planSelect_exec s.cache with hsame | ⟨sortKeys, path, hkeys, hpath, hput⟩
      · rw [next, plan, hsame]
        exact h
      · rw [next, plan, hput]
        exact h.put ⟨sortKeys, hkeys, hpath⟩
  | change catalog statistics =>
      rw [next, Nat.mod_eq_of_lt hcookie]
      -- whatever there is, is stale
      refine ⟨fun sql entry hentry => (h.past sql entry hentry).trans (Nat.le_succ _), ?_, fun basis hbasis => ?_⟩
      · intro sql entry hentry heq
        exact absurd heq (Nat.lt_succ_of_le (h.past sql entry hentry)).ne
      · obtain ⟨hle, -, hbefore⟩ := h.begun basis hbasis
        exact ⟨hle.trans (Nat.le_succ _), fun heq => absurd heq (Nat.lt_succ_of_le hle).ne, hbefore⟩
  | begin_ =>
      refine ⟨h.past, h.known, fun basis hbasis => ?_⟩
      rcases Option.or_eq_some_iff.mp hbasis with hbegun | ⟨-, hnow⟩
      · exact h.begun basis hbegun
      · obtain rfl := Option.some.inj hnow
        exact ⟨le_rfl, fun _ => rfl, h.known⟩
  | commit => exact ⟨h.past, h.known, nofun⟩
  | rollback =>
      rw [next]
      cases hbegun : s.begun with
      | none => exact ⟨h.past, h.known, nofun⟩
      | some basis => exact ⟨hforgettable rfl basis hbegun, (h.begun basis hbegun).2.2, nofun⟩

/-- A shape that is got was put there at the cookie it is asked for with. -/
theorem lookup_of_get {cache : PlanCache} {sql : String} {schemaCookie : Nat} {shape : PlanShape}
    (h : cache.get sql schemaCookie = some shape) : cache.entries.lookup sql = some ⟨schemaCookie, shape⟩ := by
  rw [PlanCache.get] at h
  split at h
  · cases h
  · rename_i entry hentry
    split at h
    · cases h
    · rename_i hcookie
      cases h
      rw [hentry, ← not_not.mp hcookie]

/-- The path of a plan is the one that is chosen afresh, whether it comes from the cache or
not: what the cache knows was chosen for other values, and has the shape. -/
theorem Learned.selects (h : s.Learned ops casefold bound)
    (hbound : ∀ sql parameters parameters' catalog,
      (bound sql parameters catalog).Alike (bound sql parameters' catalog))
    (hindexes : s.catalog.IndexesNamed casefold) {sql : String} {parameters : List Value} {sortKeys : List SortKey}
    {path : CostedPath}
    (hkeys : orderBySortKeys (bound sql parameters s.catalog).expressions (bound sql parameters s.catalog).hiddenOrderBy
      (bound sql parameters s.catalog).orderBy = .ok sortKeys)
    (hpath : selectPath ops casefold s.catalog s.statistics (bound sql parameters s.catalog).table
      (bound sql parameters s.catalog).where_ sortKeys none = .ok path) :
    ∃ found, selectPath ops casefold s.catalog s.statistics (bound sql parameters s.catalog).table
        (bound sql parameters s.catalog).where_ sortKeys (s.cache.get sql s.schemaCookie) = .ok found ∧
      found.toAccessPath = path.toAccessPath ∧ (found = path ∨ found.estRows = 0) := by
  cases hget : s.cache.get sql s.schemaCookie with
  | none => exact ⟨path, hpath, rfl, .inl rfl⟩
  | some shape =>
      obtain ⟨parameters', chosen, ⟨sortKeys', hkeys', hchosen⟩, hshape⟩ := h.known sql _ (lookup_of_get hget) rfl
      have halike := hbound sql parameters' parameters s.catalog
      rw [halike.table] at hchosen
      have hsame := (Planner.singleTablePath_alike halike.condition (halike.keys _ _ hkeys' hkeys) hchosen
        (singleTablePath_of_selectPath hpath)).path.shape
      have hnodup := (List.nodup_cons.mp (hindexes.nodup_names (bound sql parameters s.catalog).table.name)).2
      change shape = accessPathShape chosen.toAccessPath at hshape
      refine ⟨path.toAccessPath.uncosted, ?_, rfl, .inr rfl⟩
      rw [hshape, hsame, selectPath, rebuild_shape hnodup (enumerated_of_selectPath hpath)]
      rfl

/-- Whatever has been planned, changed and rolled back before, a text that can be planned for
some parameters is planned, from the cache or not, and what it pulls from any store is what it
pulls when it is planned afresh: the same rows in the same order, the same errors. -/
theorem plan_cache_invisible {start : PlanBasis} (hrun : Runs (Next ops casefold bound) { start with } events s)
    (hbound : ∀ sql parameters parameters' catalog,
      (bound sql parameters catalog).Alike (bound sql parameters' catalog))
    (hindexes : s.catalog.IndexesNamed casefold) (hsort : ops.SortCosts) (hconverts : ops.Converts) {sql : String}
    {parameters : List Value} {fresh : Operator}
    (hfresh : (plan ops casefold bound s.toPlanBasis sql parameters {}).1 = .ok fresh) :
    ∃ operator, (plan ops casefold bound s.toPlanBasis sql parameters s.cache).1 = .ok operator ∧
      ∀ store sameRow, operator.pulls ops.toFloatOps store sameRow [] =
        fresh.pulls ops.toFloatOps store sameRow [] := by
  have hstart : Learned ops casefold bound { start with } := ⟨nofun, nofun, nofun⟩
  have hlearned := hrun.keeps hstart fun _ _ _ hs hnext => hs.step hnext
  obtain ⟨sortKeys, path, skip, rfl, hkeys, hpath, hskip⟩ := planSelect_parts (apply_eq hfresh)
  obtain ⟨found, hfound, hsame, hestimate⟩ := hlearned.selects hbound hindexes hkeys hpath
  have horder : found.outputOrder = path.outputOrder := congrArg AccessPath.outputOrder hsame
  have hskip' : skipSort ops found.outputOrder found.estRows sortKeys = .ok skip := by
    rcases hestimate with rfl | hzero
    · exact hskip
    · rw [horder, hzero]
      exact skipSort_none hsort hconverts hskip
  exact ⟨_, planSelect_of hkeys hfound hskip', fun _ _ => selectOperator_pulls_congr hsame _ _ _⟩

/-! ## An index that comes later -/

def oneIndex : Catalog := ⟨[("t", pairsTable)], [("i", pairsByA)]⟩

def noIndex : Catalog := ⟨[("t", pairsTable)], []⟩

/-- The table before the index is there. -/
def unindexed : PlanBasis := ⟨noIndex, manyRows, 3⟩

/-- The statement with a value for its parameter. -/
def fiveUpFrom (_ : String) (parameters : List Value) (_ : Catalog) : BoundSelect :=
  { fiveUpBound with
    where_ := some (.binaryOp (.binaryOp pairsColumn .ge (.literal (parameters.headD .null))) .and
      (.binaryOp pairsColumn .lt (.literal (.int 9)))) }

theorem fiveUpFrom_bound (sql : String) (parameters : List Value) (catalog : Catalog) :
    Binder.bindSelect id (oneIndex.getTable id) [parameters.headD .null] fiveUp [] =
      (.ok (fiveUpFrom sql parameters catalog), [0]) :=
  rfl

theorem fiveUpFrom_alike (sql : String) (parameters parameters' : List Value) (catalog : Catalog) :
    (fiveUpFrom sql parameters catalog).Alike (fiveUpFrom sql parameters' catalog) := by
  refine bindSelect_alike ?_ ?_ ?_ (fiveUpFrom_bound sql parameters catalog) (fiveUpFrom_bound sql parameters' catalog)
  all_goals simp [fiveUp, Ast.Expression.FixedPatterns]

theorem oneIndex_named : oneIndex.IndexesNamed id where
  named := by decide
  distinct := by decide
  owner := by decide

/-- The SELECT is planned, and the index created in a transaction. -/
def indexBegun : List PlanningEvent := [.plan "SELECT" [.int 5], .begin_, .change oneIndex manyRows]

/-- The index is given up and created again, and the SELECT planned for another value. -/
def indexLater : List PlanningEvent :=
  indexBegun ++ [.rollback, .change oneIndex manyRows, .plan "SELECT" [.int 7]]

def after (events : List PlanningEvent) : Planning :=
  events.foldl (next roundingFloats id fiveUpFrom) { unindexed with }

/-- The walk over the table was planned before the transaction. -/
theorem indexBegun_forgettable : (after indexBegun).Forgettable := by
  have hentries : (after indexBegun).cache.entries = [("SELECT", ⟨3, .seqScan, none, false⟩)] := by decide +kernel
  rintro basis ⟨⟩ sql entry hentry
  rw [hentries] at hentry
  have hmem := Dict.mem_of_lookup hentry
  rw [List.mem_singleton, Prod.mk.injEq] at hmem
  rw [hmem.2]
  exact le_rfl

theorem indexLater_run : Runs (Next roundingFloats id fiveUpFrom) { unindexed with } indexLater (after indexLater) :=
  .cons ⟨by decide, nofun, rfl⟩ <| .cons ⟨by decide, nofun, rfl⟩ <| .cons ⟨by decide, nofun, rfl⟩ <|
    .cons ⟨by decide, fun _ => indexBegun_forgettable, rfl⟩ <| .cons ⟨by decide, nofun, rfl⟩ <|
    .cons ⟨by decide, nofun, rfl⟩ (.nil _)

/-- The walk over the table is forgotten, and for a third value the index found. -/
theorem plan_cache_invisible_indexed : ∃ fresh operator,
    (plan roundingFloats id fiveUpFrom (after indexLater).toPlanBasis "SELECT" [.int 6] {}).1 = .ok fresh ∧
    (after indexLater).cache.get "SELECT" 4 = some ⟨.indexScan, some "i", false⟩ ∧
    (plan roundingFloats id fiveUpFrom (after indexLater).toPlanBasis "SELECT" [.int 6]
      (after indexLater).cache).1 = .ok operator ∧
    ∀ store sameRow, operator.pulls roundingFloats.toFloatOps store sameRow [] =
      fresh.pulls roundingFloats.toFloatOps store sameRow [] := by
  have hplans : (plan roundingFloats id fiveUpFrom (after indexLater).toPlanBasis "SELECT" [.int 6] {}).1.isOk =
      true := by
    decide +kernel
  have hget : (after indexLater).cache.get "SELECT" 4 = some ⟨.indexScan, some "i", false⟩ := by decide +kernel
  cases hfresh : (plan roundingFloats id fiveUpFrom (after indexLater).toPlanBasis "SELECT" [.int 6] {}).1 with
  | error e =>
      rw [hfresh] at hplans
      cases hplans
  | ok fresh =>
      obtain ⟨operator, hoperator, hpulls⟩ := plan_cache_invisible indexLater_run fiveUpFrom_alike oneIndex_named
        roundingFloats_sortCosts roundingFloats_converts hfresh
      exact ⟨fresh, operator, rfl, hget, hoperator, hpulls⟩

/-- The SELECT is planned behind the CREATE of a transaction that is rolled back, and another
table created. -/
def indexGivenUp : List PlanningEvent :=
  [.begin_, .change oneIndex manyRows, .plan "SELECT" [.int 5], .rollback, .change noIndex manyRows]

/-- What was planned behind a change is found again when the next change gets the cookie that
the rollback gave back: the index is not there, and `next` raises. -/
theorem indexGivenUp_found :
    (plan roundingFloats id fiveUpFrom (after indexGivenUp).toPlanBasis "SELECT" [.int 5] {}).1.isOk = true ∧
    (plan roundingFloats id fiveUpFrom (after indexGivenUp).toPlanBasis "SELECT" [.int 5]
      (after indexGivenUp).cache).1 = .error .stopIteration := by
  constructor
  · decide +kernel
  · have hget : (after indexGivenUp).cache.get "SELECT" 4 = some ⟨.indexScan, some "i", false⟩ := by decide +kernel
    change (planSelect roundingFloats id noIndex manyRows "SELECT" 4 (fiveUpFrom "SELECT" [.int 5] noIndex)
      (after indexGivenUp).cache).1 = _
    rw [planSelect, bind_of_ok (state_apply _), hget]
    rfl

end Planning

end QuillDb
