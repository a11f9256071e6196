/-
  Plan/Forms.lean --- a plan does not depend on the values.

  Source: `rebuild_access_path` of `quilldb/plan/planner.py` and `quilldb/plan/cache.py`,
  which keep a shape from one call to the next.

  The values of a text's parameters change from call to call.  The planner looks at the
  columns and the operators of the predicates, and of a pattern at whether it is a text that
  starts with a wildcard, so it chooses paths of one shape for all of them.
-/
import QuillDb.Plan.Shapes

set_option autoImplicit false

namespace QuillDb

open Fallible

/-! ## Forms -/

/-- What an index could do with a pattern, if it is a text. -/
def patternForm (pattern form : BoundExpression) : BoundExpression :=
  match pattern with
  | .literal (.text text) => .literal (.text (if startsWithWildcard text then "%" else ""))
  | _ => form

/-- What is left of an expression without its values. -/
def BoundExpression.form : BoundExpression → BoundExpression
  | .literal _ => .literal .null
  | .column c => .column c
  | .unaryOp operator operand => .unaryOp operator operand.form
  | .binaryOp left operator right =>
      .binaryOp left.form operator (if operator = .like then patternForm right right.form else right.form)
  | .isNull operand negated => .isNull operand.form negated

/-- What the planner sees of a predicate. -/
def Predicate.slot (p : Predicate) : String × SeekOperator := (p.column, p.operator)

section Forms

variable {t : Nat} {e : BoundExpression}

theorem bareColumn_form (t : Nat) (e : BoundExpression) : bareColumn t e.form = bareColumn t e := by
  cases e <;> rfl

theorem isFreeOf_patternForm (h : isFreeOf t e.form = isFreeOf t e) :
    isFreeOf t (patternForm e e.form) = isFreeOf t e := by
  unfold patternForm
  split
  · rfl
  · exact h

theorem isFreeOf_form (t : Nat) (e : BoundExpression) : isFreeOf t e.form = isFreeOf t e := by
  induction e with
  | literal value => rfl
  | column c => rfl
  | unaryOp operator operand ih => exact ih
  | isNull operand negated ih => exact ih
  | binaryOp left operator right ihl ihr =>
      rw [BoundExpression.form, isFreeOf, isFreeOf, ihl]
      split
      · rw [isFreeOf_patternForm ihr]
      · rw [ihr]

/-- An expression is a column if its form is. -/
theorem eq_column_of_form {c : BoundColumn} (h : e.form = .column c) : e = .column c := by
  cases e with
  | column c' => exact h
  | literal value => cases h
  | unaryOp operator operand => cases h
  | binaryOp left operator right => cases h
  | isNull operand negated => cases h

/-- Whether a conjunct is a predicate, of which column and with which operator, is a matter
of its form. -/
theorem classifyPredicate_form (e : BoundExpression) (t : Nat) :
    (classifyPredicate e.form t).map Predicate.slot = (classifyPredicate e t).map Predicate.slot := by
  cases e with
  | literal value => rfl
  | column c => rfl
  | unaryOp operator operand => rfl
  | isNull operand negated =>
      simp only [BoundExpression.form, classifyPredicate, bareColumn_form]
      split
      · rfl
      · cases bareColumn t operand <;> rfl
  | binaryOp left operator right =>
      rw [BoundExpression.form]
      cases operator with
      | like =>
          simp only [classifyPredicate, bareColumn_form, if_true]
          cases bareColumn t left with
          | none => rfl
          | some c =>
              cases right with
              | literal value =>
                  cases value with
                  | text text =>
                      simp only [patternForm]
                      cases startsWithWildcard text <;> rfl
                  | _ => rfl
              | _ => rfl
      | _ =>
          simp only [classifyPredicate, bareColumn_form, isFreeOf_form, reduceCtorEq, if_false]
          generalize bareColumn t left = l
          generalize bareColumn t right = r
          generalize isFreeOf t left = fl
          generalize isFreeOf t right = fr
          cases l <;> cases r <;> cases fl <;> cases fr <;> rfl

theorem extractConjuncts_form (condition : Option BoundExpression) :
    extractConjuncts (condition.map BoundExpression.form) = (extractConjuncts condition).map BoundExpression.form := by
  have hgo : ∀ e : BoundExpression, extractConjuncts.go e.form = (extractConjuncts.go e).map BoundExpression.form := by
    intro e
    induction e with
    | binaryOp left operator right ihl ihr =>
        rw [BoundExpression.form]
        cases operator with
        | and =>
            simp only [extractConjuncts.go, reduceCtorEq, if_false, ihl, ihr, List.map_append]
        | _ => rfl
    | _ => rfl
  cases condition with
  | none => rfl
  | some e => exact hgo e

end Forms

/-! ## Predicates of one form -/

/-- The same object, of the same column and operator. -/
def SameSlot (p q : Object Predicate) : Prop := p.id = q.id ∧ p.val.slot = q.val.slot

section Slots

variable {ps qs : List (Object Predicate)}

theorem SameSlot.column {p q : Object Predicate} (h : SameSlot p q) : p.val.column = q.val.column :=
  congrArg Prod.fst h.2

theorem SameSlot.operator {p q : Object Predicate} (h : SameSlot p q) : p.val.operator = q.val.operator :=
  congrArg Prod.snd h.2

/-- Conditions of one form have predicates of one form. -/
theorem classifiedPredicates_sameSlot {a b : Option BoundExpression}
    (h : a.map BoundExpression.form = b.map BoundExpression.form) (t : Nat) :
    List.Forall₂ SameSlot (classifiedPredicates (extractConjuncts a) t)
      (classifiedPredicates (extractConjuncts b) t) := by
  have hslots : ∀ condition : Option BoundExpression,
      ((extractConjuncts condition).filterMap (classifyPredicate · t)).map Predicate.slot =
        (extractConjuncts (condition.map BoundExpression.form)).filterMap fun e =>
          (classifyPredicate e t).map Predicate.slot := by
    intro condition
    rw [List.map_filterMap, extractConjuncts_form, List.filterMap_map]
    exact List.filterMap_congr fun e _ => (classifyPredicate_form e t).symm
  have hsame := (hslots a).trans ((congrArg _ (congrArg extractConjuncts h)).trans (hslots b).symm)
  have hnumbered : ∀ condition : Option BoundExpression,
      (classifiedPredicates (extractConjuncts condition) t).map (fun p => (p.id, p.val.slot)) =
        (((extractConjuncts condition).filterMap (classifyPredicate · t)).map Predicate.slot).zipIdx.map Prod.swap := by
    intro condition
    rw [classifiedPredicates, List.map_map, List.zipIdx_map, List.map_map]
    rfl
  have hnumbers := (hnumbered a).trans (hsame ▸ (hnumbered b).symm)
  rw [← List.forall₂_eq_eq_eq, List.forall₂_map_left_iff, List.forall₂_map_right_iff] at hnumbers
  exact hnumbers.imp fun p q hpq => Prod.mk.inj hpq

theorem filter_sameSlot (h : List.Forall₂ SameSlot ps qs) {f : Object Predicate → Bool}
    {g : Object Predicate → Bool} (hfg : ∀ p q, SameSlot p q → f p = g q) :
    List.Forall₂ SameSlot (ps.filter f) (qs.filter g) :=
  List.rel_filter (fun p q hpq => iff_of_eq (congrArg (· = true) (hfg p q hpq))) h

theorem onColumn_sameSlot (h : List.Forall₂ SameSlot ps qs) (column : String) :
    List.Forall₂ SameSlot (onColumn ps column) (onColumn qs column) :=
  filter_sameSlot h fun p q hpq => by rw [hpq.column]

theorem isEmpty_sameSlot (h : List.Forall₂ SameSlot ps qs) : ps.isEmpty = qs.isEmpty := by
  cases h <;> rfl

theorem ids_sameSlot (h : List.Forall₂ SameSlot ps qs) : ps.map Object.id = qs.map Object.id := by
  induction h with
  | nil => rfl
  | cons hpq _ ih => rw [List.map_cons, List.map_cons, hpq.1, ih]

theorem columns_sameSlot (h : List.Forall₂ SameSlot ps qs) :
    (ps.map fun p => p.val.column) = qs.map fun p => p.val.column := by
  induction h with
  | nil => rfl
  | cons hpq _ ih => rw [List.map_cons, List.map_cons, hpq.column, ih]

/-- The walk over the columns of an index takes the same predicates. -/
theorem seekTermsOf_sameSlot (h : List.Forall₂ SameSlot ps qs) (columns : List String) :
    List.Forall₂ SameSlot (seekTermsOf (onColumn ps) columns) (seekTermsOf (onColumn qs) columns) := by
  induction columns with
  | nil => exact .nil
  | cons column columns ih =>
      have hcolumn := onColumn_sameSlot h column
      have hequal : List.Forall₂ SameSlot (equalities (onColumn ps column)) (equalities (onColumn qs column)) :=
        filter_sameSlot hcolumn fun p q hpq => by rw [hpq.operator]
      have hother : List.Forall₂ SameSlot (inequalities (onColumn ps column)) (inequalities (onColumn qs column)) :=
        filter_sameSlot hcolumn fun p q hpq => by rw [hpq.operator]
      rw [seekTermsOf, seekTermsOf, isEmpty_sameSlot hcolumn, isEmpty_sameSlot hother]
      split
      · exact .nil
      · split
        · exact List.rel_append hequal ih
        · exact List.rel_append hequal (List.forall₂_take 2 hother)

end Slots

/-! ## Paths of one form -/

/-- Paths that differ in the values of their predicates. -/
structure AccessPath.Alike (p q : AccessPath) : Prop where
  kind : p.kind = q.kind
  index : p.index = q.index
  seekTerms : List.Forall₂ SameSlot p.seekTerms q.seekTerms
  residual : List.Forall₂ SameSlot p.residual q.residual
  outputOrder : p.outputOrder = q.outputOrder
  reverse : p.reverse = q.reverse
  columns : ∀ key ∈ p.outputOrder, ∃ c, key.expression = .column c

theorem AccessPath.Alike.shape {p q : AccessPath} (h : p.Alike q) : accessPathShape p = accessPathShape q := by
  rw [accessPathShape, accessPathShape, h.kind, h.index, h.reverse]

section Paths

variable {casefold : String → String} {table : TableSchema} {ps qs : List (Object Predicate)} {t : Nat}
  {index : IndexSchema} {p q : AccessPath}

theorem indexOrderPath_alike (h : List.Forall₂ SameSlot ps qs) {reverse : Bool}
    (hp : indexOrderPath casefold index ps table t reverse = .ok p)
    (hq : indexOrderPath casefold index qs table t reverse = .ok q) : p.Alike q := by
  obtain ⟨order, horder, hp⟩ := bind_eq_ok hp
  obtain ⟨order', horder', hq⟩ := bind_eq_ok hq
  obtain rfl := Except.ok.inj (horder.symm.trans horder')
  obtain rfl := Except.ok.inj hp
  obtain rfl := Except.ok.inj hq
  refine ⟨rfl, rfl, .nil, h, rfl, rfl, fun key hkey => ?_⟩
  obtain ⟨name, -, hname⟩ := exists_left (mapM_ok horder) hkey
  obtain ⟨i, -, hcolumn⟩ := bind_eq_ok hname
  split at hcolumn
  · obtain rfl := Except.ok.inj hcolumn
    exact ⟨_, rfl⟩
  · cases hcolumn

theorem indexPaths_alike (h : List.Forall₂ SameSlot ps qs) {xs ys : List AccessPath}
    (hx : indexPaths casefold table ps t index = .ok xs) (hy : indexPaths casefold table qs t index = .ok ys) :
    List.Forall₂ AccessPath.Alike xs ys := by
  have hterms := seekTermsOf_sameSlot h index.columns
  rw [indexPaths, matchIndexPrefix_eq] at hx hy
  by_cases hnil : seekTermsOf (onColumn ps) index.columns = []
  · have hnil' : seekTermsOf (onColumn qs) index.columns = [] :=
      List.isEmpty_iff.mp (isEmpty_sameSlot hterms ▸ List.isEmpty_iff.mpr hnil)
    rw [if_pos hnil] at hx
    rw [if_pos hnil'] at hy
    obtain ⟨forward, hforward, hx⟩ := bind_eq_ok hx
    obtain ⟨backward, hbackward, hx⟩ := bind_eq_ok hx
    obtain ⟨forward', hforward', hy⟩ := bind_eq_ok hy
    obtain ⟨backward', hbackward', hy⟩ := bind_eq_ok hy
    obtain rfl := Except.ok.inj hx
    obtain rfl := Except.ok.inj hy
    exact .cons (indexOrderPath_alike h hforward hforward') (.cons (indexOrderPath_alike h hbackward hbackward') .nil)
  · have hnil' : seekTermsOf (onColumn qs) index.columns ≠ [] := fun hnil' =>
      hnil (List.isEmpty_iff.mp (isEmpty_sameSlot hterms ▸ List.isEmpty_iff.mpr hnil'))
    rw [if_neg hnil] at hx
    rw [if_neg hnil'] at hy
    obtain rfl := Except.ok.inj hx
    obtain rfl := Except.ok.inj hy
    refine .cons ⟨rfl, rfl, hterms, ?_, rfl, rfl, fun key hkey => absurd hkey List.not_mem_nil⟩ .nil
    exact filter_sameSlot h fun p q hpq => by rw [hpq.1, ids_sameSlot hterms]

theorem enumerateAccessPaths_alike (h : List.Forall₂ SameSlot ps qs) {indexes : List IndexSchema}
    {xs ys : List AccessPath} (hx : enumerateAccessPaths casefold table indexes ps t = .ok xs)
    (hy : enumerateAccessPaths casefold table indexes qs t = .ok ys) : List.Forall₂ AccessPath.Alike xs ys := by
  obtain ⟨pathss, hpaths, hx⟩ := bind_eq_ok hx
  obtain ⟨pathss', hpaths', hy⟩ := bind_eq_ok hy
  obtain rfl := Except.ok.inj hx
  obtain rfl := Except.ok.inj hy
  have hunordered (key : SortKey) (hkey : key ∈ []) : ∃ c, key.expression = .column c :=
    absurd hkey List.not_mem_nil
  refine .cons ⟨rfl, rfl, .nil, h, rfl, rfl, hunordered⟩ (List.rel_flatten ?_)
  exact forall₂_of_left (mapM_ok hpaths) (mapM_ok hpaths') fun _ _ _ hx hy => indexPaths_alike h hx hy

end Paths

/-! ## The cheapest of them -/

/-- The same form, the same estimates, the same cost. -/
structure CostedPath.Alike (p q : CostedPath) : Prop where
  path : p.toAccessPath.Alike q.toAccessPath
  estRows : p.estRows = q.estRows
  cost : p.cost = q.cost

/-- What the planner sees of a sort key. -/
def SortKey.form (key : SortKey) : BoundExpression × Bool := (key.expression.form, key.descending)

/-- Keys of which each is a column are told by their forms. -/
theorem sortKeys_eq_of_form {order keys : List SortKey} (hcolumns : ∀ key ∈ order, ∃ c, key.expression = .column c)
    (h : order.map SortKey.form = keys.map SortKey.form) : order = keys := by
  induction order generalizing keys with
  | nil => exact (List.map_eq_nil_iff.mp h.symm).symm
  | cons key order ih =>
      cases keys with
      | nil => cases h
      | cons key' keys =>
          obtain ⟨hkey, hrest⟩ := List.cons.inj h
          obtain ⟨hexpression, hdescending⟩ := Prod.mk.inj hkey
          obtain ⟨c, hc⟩ := hcolumns key (List.mem_cons_self ..)
          rw [hc] at hexpression
          have hsame : key = key' := by
            obtain ⟨expression, descending⟩ := key
            obtain ⟨expression', descending'⟩ := key'
            rw [SortKey.mk.injEq]
            exact ⟨hc.trans (eq_column_of_form hexpression.symm).symm, hdescending⟩
          rw [hsame, ih (fun key hkey => hcolumns key (List.mem_cons_of_mem _ hkey)) hrest]

/-- Whether an index gives the order that is asked for is a matter of the keys' forms. -/
theorem take_eq_iff_of_form {order keys keys' : List SortKey}
    (hcolumns : ∀ key ∈ order, ∃ c, key.expression = .column c) (h : keys.map SortKey.form = keys'.map SortKey.form) :
    order.take keys.length = keys ↔ order.take keys'.length = keys' := by
  have hlength : keys.length = keys'.length := by
    have hmapped := congrArg List.length h
    rwa [List.length_map, List.length_map] at hmapped
  have htaken : ∀ n, ∀ key ∈ order.take n, ∃ c, key.expression = .column c :=
    fun n key hkey => hcolumns key (List.mem_of_mem_take hkey)
  constructor
  · intro heq
    exact sortKeys_eq_of_form (htaken _) (by rw [← hlength, heq, h])
  · intro heq
    exact sortKeys_eq_of_form (htaken _) (by rw [hlength, heq, h])

namespace Planner

section Choice

variable {ops : CostOps} {casefold : String → String} {catalog : Catalog} {stats : StatsSource}
  {tableStats : TableStats} {p q : AccessPath} {keys keys' : List SortKey}

theorem rowsFetched_alike (h : p.Alike q) (indexStats : Option IndexStats) :
    rowsFetched p indexStats tableStats = rowsFetched q indexStats tableStats := by
  have hnil : p.seekTerms = [] ↔ q.seekTerms = [] := by
    rw [← List.isEmpty_iff, ← List.isEmpty_iff, isEmpty_sameSlot h.seekTerms]
  unfold rowsFetched
  rw [h.kind, columns_sameSlot h.seekTerms]
  simp only [ne_eq, hnil]

theorem costPath_alike (h : p.Alike q) {x y : CostedPath} (hx : costPath ops stats tableStats p = .ok x)
    (hy : costPath ops stats tableStats q = .ok y) : x.Alike y := by
  obtain ⟨indexStats, hstats, hx⟩ := bind_eq_ok hx
  obtain ⟨indexStats', hstats', hy⟩ := bind_eq_ok hy
  rw [pathStats, h.index] at hstats
  obtain rfl := Except.ok.inj (hstats.symm.trans hstats')
  obtain ⟨estimated, hestimated, hx⟩ := bind_eq_ok hx
  obtain ⟨estimated', hestimated', hy⟩ := bind_eq_ok hy
  rw [estimateRowCounts, rowsFetched_alike h, h.residual.length_eq] at hestimated
  obtain ⟨rows, hrows, hestimated⟩ := bind_eq_ok hestimated
  obtain ⟨rows', hrows', hestimated'⟩ := bind_eq_ok hestimated'
  obtain rfl := Except.ok.inj (hrows.symm.trans hrows')
  obtain ⟨fetched, hfetched, hestimated⟩ := bind_eq_ok hestimated
  obtain ⟨fetched', hfetched', hestimated'⟩ := bind_eq_ok hestimated'
  obtain rfl := Except.ok.inj (hfetched.symm.trans hfetched')
  obtain ⟨surviving, hsurviving, hestimated⟩ := bind_eq_ok hestimated
  obtain ⟨surviving', hsurviving', hestimated'⟩ := bind_eq_ok hestimated'
  obtain rfl := Except.ok.inj (hsurviving.symm.trans hsurviving')
  obtain rfl := Except.ok.inj hestimated
  obtain rfl := Except.ok.inj hestimated'
  obtain ⟨cost, hcost, hx⟩ := bind_eq_ok hx
  obtain ⟨cost', hcost', hy⟩ := bind_eq_ok hy
  have hsame :
      pathCost ops { p with rowsFetched := rows, estRows := min rows (max 1 surviving) } indexStats tableStats =
        pathCost ops { q with rowsFetched := rows, estRows := min rows (max 1 surviving) } indexStats tableStats := by
    unfold pathCost
    rw [h.kind]
  obtain rfl := Except.ok.inj (hcost.symm.trans (hsame.trans hcost'))
  obtain rfl := Except.ok.inj hx
  obtain rfl := Except.ok.inj hy
  exact ⟨h, rfl, rfl⟩

/-- Of two lists that are alike the cheapest are alike. -/
theorem cheapestFrom_alike {α : Type} {R : α → α → Prop} {xs ys : List (α × BitVec 64)}
    (h : List.Forall₂ (fun x y => R x.1 y.1 ∧ x.2 = y.2) xs ys) {x y : α × BitVec 64} (hxy : R x.1 y.1 ∧ x.2 = y.2) :
    R (cheapestFrom x xs) (cheapestFrom y ys) := by
  induction h generalizing x y with
  | nil => exact hxy.1
  | cons hhead _ ih =>
      rw [cheapestFrom, cheapestFrom, hxy.2, hhead.2]
      split
      · exact ih hhead
      · exact ih hxy

theorem minBy_alike {α : Type} {R : α → α → Prop} {xs ys : List α} (h : List.Forall₂ R xs ys)
    {key key' : α → Except DbError (BitVec 64)} (hkey : ∀ x y, R x y → key x = key' y) {a b : α}
    (ha : minBy key xs = .ok a) (hb : minBy key' ys = .ok b) : R a b := by
  obtain ⟨keyed, hkeyed, ha⟩ := bind_eq_ok ha
  obtain ⟨keyed', hkeyed', hb⟩ := bind_eq_ok hb
  have halike : List.Forall₂ (fun x y => R x.1 y.1 ∧ x.2 = y.2) keyed keyed' := by
    have hleft := forall₂_of_left h.flip (mapM_ok hkeyed') (S := fun x p => ∃ y, R x y ∧
      (do let cost ← key' y; .ok (y, cost)) = Except.ok p) fun _ _ _ hxy hp => ⟨_, hxy, hp⟩
    refine forall₂_of_left (mapM_ok hkeyed) hleft fun x p q hp hq => ?_
    obtain ⟨y, hxy, hq⟩ := hq
    obtain ⟨cost, hcost, hp⟩ := bind_eq_ok hp
    obtain ⟨cost', hcost', hq⟩ := bind_eq_ok hq
    obtain rfl := Except.ok.inj hp
    obtain rfl := Except.ok.inj hq
    exact ⟨hxy, Except.ok.inj (hcost.symm.trans ((hkey x y hxy).trans hcost'))⟩
  cases halike with
  | nil => cases ha
  | cons hhead hrest =>
      obtain rfl := Except.ok.inj ha
      obtain rfl := Except.ok.inj hb
      exact cheapestFrom_alike hrest hhead

theorem sortCost_alike {order : List SortKey} (hcolumns : ∀ key ∈ order, ∃ c, key.expression = .column c)
    (h : keys.map SortKey.form = keys'.map SortKey.form) (estRows : Int) :
    sortCost ops order estRows keys = sortCost ops order estRows keys' := by
  unfold sortCost
  simp only [take_eq_iff_of_form hcolumns h]

theorem chooseAccessPath_alike {xs ys : List CostedPath} (h : List.Forall₂ CostedPath.Alike xs ys)
    (hkeys : keys.map SortKey.form = keys'.map SortKey.form) {a b : CostedPath}
    (ha : chooseAccessPath ops xs keys = .ok a) (hb : chooseAccessPath ops ys keys' = .ok b) : a.Alike b := by
  have hnil : keys = [] ↔ keys' = [] := by
    rw [← List.map_eq_nil_iff (f := SortKey.form), hkeys, List.map_eq_nil_iff]
  have hany : (xs.any fun path => path.outputOrder ≠ []) = ys.any fun path => path.outputOrder ≠ [] := by
    clear ha hb
    induction h with
    | nil => rfl
    | cons hxy _ ih => rw [List.any_cons, List.any_cons, ih, hxy.path.outputOrder]
  rw [chooseAccessPath, chooseBy] at ha hb
  simp only [ne_eq, hnil, hany] at ha
  split at ha
  · rename_i hordered
    rw [if_pos hordered] at hb
    refine minBy_alike h (fun x y hxy => ?_) ha hb
    rw [totalCostWithOrdering, totalCostWithOrdering, hxy.cost, hxy.estRows, ← hxy.path.outputOrder,
      sortCost_alike hxy.path.columns hkeys]
  · rename_i hordered
    rw [if_neg hordered] at hb
    exact minBy_alike h (fun x y hxy => by rw [hxy.cost]) ha hb

/-- Conditions and sort keys of one form are answered by paths of one form. -/
theorem singleTablePath_alike {table : TableSchema} {a b : Option BoundExpression}
    (hcondition : a.map BoundExpression.form = b.map BoundExpression.form)
    (hkeys : keys.map SortKey.form = keys'.map SortKey.form) {x y : CostedPath}
    (hx : singleTablePath ops casefold catalog stats table a keys = .ok x)
    (hy : singleTablePath ops casefold catalog stats table b keys' = .ok y) : x.Alike y := by
  obtain ⟨tableStats, htable, hx⟩ := bind_eq_ok hx
  obtain ⟨tableStats', htable', hy⟩ := bind_eq_ok hy
  obtain rfl := Except.ok.inj (htable.symm.trans htable')
  obtain ⟨costed, hcosted, hx⟩ := bind_eq_ok hx
  obtain ⟨costed', hcosted', hy⟩ := bind_eq_ok hy
  obtain ⟨paths, hpaths, hcosted⟩ := bind_eq_ok hcosted
  obtain ⟨paths', hpaths', hcosted'⟩ := bind_eq_ok hcosted'
  have halike := enumerateAccessPaths_alike (classifiedPredicates_sameSlot hcondition 0) hpaths hpaths'
  have hright := forall₂_of_left halike.flip (mapM_ok hcosted') (S := fun p y => ∃ q, p.Alike q ∧
    costPath ops stats tableStats q = .ok y) fun _ _ _ hpq hy => ⟨_, hpq, hy⟩
  refine chooseAccessPath_alike (forall₂_of_left (mapM_ok hcosted) hright fun p x y hx hy => ?_) hkeys hx hy
  obtain ⟨q, hpq, hy⟩ := hy
  exact costPath_alike hpq hx hy

end Choice

end Planner

end QuillDb
