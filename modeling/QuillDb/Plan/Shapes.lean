/-
  Plan/Shapes.lean --- the plan cache.

  Source: `PlanShape`, `access_path_shape` and `rebuild_access_path` of
  `quilldb/plan/planner.py`, `quilldb/plan/cache.py`.

  A shape names an index and a direction.  Whatever the shape, the path that is rebuilt from
  it is one that the planner could have chosen for the predicates at hand.
-/
import QuillDb.Plan.Search

set_option autoImplicit false

namespace QuillDb

open Fallible

/-! ## The source -/

/-- `PlanShape`. -/
structure PlanShape where
  kind : PathKind
  indexName : Option String
  reverse : Bool
  deriving DecidableEq, Repr

/-- `access_path_shape`. -/
def accessPathShape (path : AccessPath) : PlanShape := ⟨path.kind, path.index.map IndexSchema.name, path.reverse⟩

/-- What planning from a shape raises: `next` finds no index, or an error of the library. -/
inductive PlanError where
  | stopIteration
  | raised (e : DbError)
  deriving DecidableEq

/-- `rebuild_access_path`. -/
def rebuildAccessPath (casefold : String → String) (shape : PlanShape) (table : TableSchema)
    (indexes : List IndexSchema) (predicates : List (Object Predicate)) (tableOrdinal : Nat) :
    Except PlanError AccessPath :=
  match shape.kind with
  | .seqScan => .ok { kind := .seqScan, index := none, seekTerms := [], residual := predicates }
  | .indexScan =>
      match indexes.find? fun index => some index.name = shape.indexName with
      | none => .error .stopIteration
      | some index =>
          match matchIndexPrefix index (byColumn predicates) predicates with
          | some path => .ok path
          | none => (indexOrderPath casefold index predicates table tableOrdinal shape.reverse).mapError .raised

/-- `_Entry`. -/
structure CacheEntry where
  schemaCookie : Nat
  shape : PlanShape
  deriving DecidableEq

/-- `PlanCache`. -/
structure PlanCache where
  entries : Dict String CacheEntry := []
  deriving DecidableEq

/-- `PlanCache.get`. -/
def PlanCache.get (cache : PlanCache) (sql : String) (schemaCookie : Nat) : Option PlanShape :=
  match cache.entries.lookup sql with
  | none => none
  | some entry => if entry.schemaCookie ≠ schemaCookie then none else some entry.shape

/-- `PlanCache.put`. -/
def PlanCache.put (cache : PlanCache) (sql : String) (schemaCookie : Nat) (shape : PlanShape) : PlanCache :=
  ⟨cache.entries.put sql ⟨schemaCookie, shape⟩⟩

/-! ## The paths there are -/

/-- A path that `enumerate_access_paths` gives: a walk over the table, a seek of an index that
has something to seek on, or a walk over one that has not. -/
inductive Enumerated (casefold : String → String) (table : TableSchema) (indexes : List IndexSchema)
    (predicates : List (Object Predicate)) (tableOrdinal : Nat) : AccessPath → Prop
  | seqScan : Enumerated casefold table indexes predicates tableOrdinal
      { kind := .seqScan, index := none, seekTerms := [], residual := predicates }
  | seek (index : IndexSchema) (hindex : index ∈ indexes)
      (hterms : seekTermsOf (onColumn predicates) index.columns ≠ []) :
      Enumerated casefold table indexes predicates tableOrdinal
        { kind := .indexScan
          index := some index
          seekTerms := seekTermsOf (onColumn predicates) index.columns
          residual := predicates.filter fun p =>
            p.id ∉ (seekTermsOf (onColumn predicates) index.columns).map Object.id }
  | walk (index : IndexSchema) (hindex : index ∈ indexes)
      (hterms : seekTermsOf (onColumn predicates) index.columns = []) (reverse : Bool) (path : AccessPath)
      (hpath : indexOrderPath casefold index predicates table tableOrdinal reverse = .ok path) :
      Enumerated casefold table indexes predicates tableOrdinal path

section Paths

variable {casefold : String → String} {table : TableSchema} {indexes : List IndexSchema}
  {predicates : List (Object Predicate)} {tableOrdinal : Nat} {index : IndexSchema} {path : AccessPath}

/-- An index that has something to seek on is sought. -/
theorem matchIndexPrefix_eq (index : IndexSchema) (predicates : List (Object Predicate)) :
    matchIndexPrefix index (byColumn predicates) predicates =
      if seekTermsOf (onColumn predicates) index.columns = [] then none
      else some {
        kind := .indexScan
        index := some index
        seekTerms := seekTermsOf (onColumn predicates) index.columns
        residual := predicates.filter fun p =>
          p.id ∉ (seekTermsOf (onColumn predicates) index.columns).map Object.id } := by
  have hlookup : (fun column => ((byColumn predicates).lookup column).getD []) = onColumn predicates :=
    funext fun column => lookup_byColumn predicates column
  simp only [matchIndexPrefix, hlookup, List.isEmpty_iff]

theorem enumerated_of_indexPaths {paths : List AccessPath} (hindex : index ∈ indexes)
    (h : indexPaths casefold table predicates tableOrdinal index = .ok paths) :
    ∀ path ∈ paths, Enumerated casefold table indexes predicates tableOrdinal path := by
  rw [indexPaths, matchIndexPrefix_eq] at h
  by_cases hterms : seekTermsOf (onColumn predicates) index.columns = []
  · rw [if_pos hterms] at h
    obtain ⟨forward, hforward, h⟩ := bind_eq_ok h
    obtain ⟨backward, hbackward, h⟩ := bind_eq_ok h
    obtain rfl := Except.ok.inj h
    intro path hpath
    rcases List.mem_cons.mp hpath with rfl | hpath
    · exact .walk index hindex hterms false _ hforward
    · obtain rfl := List.mem_singleton.mp hpath
      exact .walk index hindex hterms true _ hbackward
  · rw [if_neg hterms] at h
    obtain rfl := Except.ok.inj h
    rw [List.forall_mem_singleton]
    exact .seek index hindex hterms

theorem enumerated_of_mem {paths : List AccessPath}
    (h : enumerateAccessPaths casefold table indexes predicates tableOrdinal = .ok paths) :
    ∀ path ∈ paths, Enumerated casefold table indexes predicates tableOrdinal path := by
  obtain ⟨pathss, hpaths, h⟩ := bind_eq_ok h
  obtain rfl := Except.ok.inj h
  rw [List.forall_mem_cons]
  refine ⟨.seqScan, fun path hpath => ?_⟩
  obtain ⟨paths, hmem, hpath⟩ := List.mem_flatten.mp hpath
  obtain ⟨index, hindex, hpaths⟩ := exists_left (mapM_ok hpaths) hmem
  exact enumerated_of_indexPaths hindex hpaths path hpath

/-- A cached shape never gives a path of its own. -/
theorem enumerated_of_rebuild {shape : PlanShape}
    (h : rebuildAccessPath casefold shape table indexes predicates tableOrdinal = .ok path) :
    Enumerated casefold table indexes predicates tableOrdinal path := by
  rw [rebuildAccessPath] at h
  split at h
  · cases h
    exact .seqScan
  · split at h
    · cases h
    · rename_i index hfind
      have hindex := List.mem_of_find?_eq_some hfind
      rw [matchIndexPrefix_eq] at h
      by_cases hterms : seekTermsOf (onColumn predicates) index.columns = []
      · rw [if_pos hterms] at h
        cases horder : indexOrderPath casefold index predicates table tableOrdinal shape.reverse with
        | error e =>
            rw [horder] at h
            cases h
        | ok walked =>
            rw [horder] at h
            cases h
            exact .walk index hindex hterms shape.reverse _ horder
      · rw [if_neg hterms] at h
        cases h
        exact .seek index hindex hterms

end Paths

/-- A sort that has something to do costs something. -/
def CostOps.SortCosts (ops : CostOps) : Prop :=
  ∀ rows cost, 2 ≤ rows → Planner.timesInt ops Planner.cpuPerRow rows = .ok cost →
    realNumber (ops.mul cost (ops.log2 rows)) ≠ .finite 0

/-- A sort is free only where the rows come in the order that is asked for. -/
theorem order_of_sortCost {ops : CostOps} (hsort : ops.SortCosts) {outputOrder orderBy : List SortKey} {estRows : Int}
    {cost : BitVec 64} (h : Planner.sortCost ops outputOrder estRows orderBy = .ok cost)
    (hzero : realNumber cost = .finite 0) : outputOrder.take orderBy.length = orderBy := by
  rw [Planner.sortCost] at h
  split at h
  · assumption
  · obtain ⟨rowCost, hrow, h⟩ := bind_eq_ok h
    cases h
    exact absurd hzero (hsort _ _ (le_max_left ..) hrow)

end QuillDb
