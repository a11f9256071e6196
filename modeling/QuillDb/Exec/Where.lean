/-
  Exec/Where.lean --- a WHERE clause, and what an access path leaves of it to check.

  Source: `extract_conjuncts` and `classify_predicate` of `quilldb/plan/predicates.py`,
  `_match_index_prefix` of `quilldb/plan/planner.py`, `_extract_predicates` and
  `_residual_filter_expression` of `quilldb/exec/operators.py`.

  A conjunct is sought by the index or it is in the filter.  One that is sought is TRUE of a
  row exactly if its seek term is TRUE of the column.
-/
import QuillDb.Exec.Operators
import QuillDb.Exec.Scans
import QuillDb.Plan.Resolves

set_option autoImplicit false

namespace QuillDb

open Fallible

/-! ## TRUE of a row -/

section Truth

variable (ops : FloatOps)

/-- The expression is TRUE of the row; where it raises it is not. -/
def isTrue (row : List Value) (e : BoundExpression) : Bool :=
  match evaluate ops row e with
  | .ok value => wherePasses value
  | .error _ => false

/-- The WHERE clause is TRUE of the row, or there is none. -/
def whereTrue (condition : Option BoundExpression) (row : List Value) : Bool := condition.all (isTrue ops row)

end Truth

section Conjuncts

variable {ops : FloatOps} {row : List Value}

theorem isTrue_of_ok {e : BoundExpression} {value : Value} (h : evaluate ops row e = .ok value) :
    isTrue ops row e = wherePasses value := by
  rw [isTrue, h]

/-- AND is TRUE if both sides are, also where one of them raises. -/
theorem isTrue_and (l r : BoundExpression) :
    isTrue ops row (.binaryOp l .and r) = (isTrue ops row l && isTrue ops row r) := by
  have hfalse : wherePasses (.int 0) = false := wherePasses_ofBool false
  have htrue : wherePasses (.int 1) = true := wherePasses_ofBool true
  have hnull : wherePasses .null = false := rfl
  unfold isTrue
  rw [evaluate]
  rcases evaluate ops row l with e | v
  · rfl
  · rcases evaluate ops row r with e | w
    · simp only [Fallible.ok_bind, Fallible.error_bind]
      by_cases hv : truth v = some false
      · simp [hv, hfalse]
      · simp [hv]
    · simp only [Fallible.ok_bind]
      unfold wherePasses at hfalse htrue hnull ⊢
      rcases truth v with _ | _ | _ <;> rcases truth w with _ | _ | _ <;> simp [hfalse, htrue, hnull]

/-- A clause is TRUE if all its conjuncts are. -/
theorem isTrue_conjuncts (e : BoundExpression) :
    isTrue ops row e = (extractConjuncts.go e).all (isTrue ops row) := by
  induction e using extractConjuncts.go.induct with
  | case1 l r ihl ihr => rw [extractConjuncts.go, isTrue_and, ihl, ihr, List.all_append]
  | case2 e hne => simp [extractConjuncts.go.eq_2 e hne]

theorem whereTrue_conjuncts (condition : Option BoundExpression) :
    whereTrue ops condition row = (extractConjuncts condition).all (isTrue ops row) := by
  cases condition with
  | none => rfl
  | some e => exact isTrue_conjuncts e

/-- What `_and_all` makes of expressions is TRUE if they all are. -/
theorem whereTrue_andAll (cs : List BoundExpression) :
    whereTrue ops (andAll cs) row = cs.all (isTrue ops row) := by
  cases cs with
  | nil => rfl
  | cons c cs =>
      rw [andAll, whereTrue, Option.all_some, List.all_cons]
      induction cs generalizing c with
      | nil => simp
      | cons d cs ih => rw [List.foldl_cons, ih, isTrue_and, List.all_cons, Bool.and_assoc]

end Conjuncts

/-! ## Expressions of one table -/

section OfTable

variable (casefold : String → String) (table : TableSchema)

/-- The columns of the expression are columns of the table, under their names. -/
def BoundExpression.Of : BoundExpression → Prop
  | .column c => c.tableOrdinal = 0 ∧ table.columnIndex casefold c.name = .ok c.index
  | .literal _ => True
  | .unaryOp _ operand => operand.Of
  | .binaryOp left _ right => left.Of ∧ right.Of
  | .isNull operand _ => operand.Of

variable {casefold} {table} {ops : FloatOps}

/-- Without a column of the table it is a constant. -/
theorem BoundExpression.Of.evaluate_constant {e : BoundExpression} (h : e.Of casefold table)
    (hfree : isFreeOf 0 e = true) (row row' : List Value) : evaluate ops row e = evaluate ops row' e := by
  induction e with
  | column c =>
      rw [isFreeOf, decide_eq_true_eq] at hfree
      exact absurd h.1 hfree
  | literal value => rw [evaluate, evaluate]
  | unaryOp operator operand ih => rw [evaluate, evaluate, ih h hfree]
  | isNull operand negated ih => rw [evaluate, evaluate, ih h hfree]
  | binaryOp left operator right ihl ihr =>
      rw [isFreeOf, Bool.and_eq_true] at hfree
      have hleft := ihl h.1 hfree.1
      have hright := ihr h.2 hfree.2
      cases operator <;> simp only [evaluate, hleft, hright]

/-- A conjunct of a clause. -/
theorem BoundExpression.Of.conjunct {e : BoundExpression} (h : e.Of casefold table) :
    ∀ c ∈ extractConjuncts.go e, c.Of casefold table := by
  induction e using extractConjuncts.go.induct with
  | case1 l r ihl ihr =>
      rw [extractConjuncts.go, List.forall_mem_append]
      exact ⟨ihl h.1, ihr h.2⟩
  | case2 e hne =>
      rw [extractConjuncts.go.eq_2 e hne, List.forall_mem_singleton]
      exact h

end OfTable

/-! ## Predicates -/

/-- What a conjunct with a predicate looks like. -/
inductive Classifies (tableOrdinal : Nat) : BoundExpression → Predicate → Prop
  | isNull (c : BoundColumn) (hc : c.tableOrdinal = tableOrdinal) :
      Classifies tableOrdinal (.isNull (.column c) false)
        ⟨c.name, .is, .literal .null, .isNull (.column c) false, tableOrdinal⟩
  | like (c : BoundColumn) (hc : c.tableOrdinal = tableOrdinal) (pattern : BoundExpression)
      (hfree : isFreeOf tableOrdinal pattern = true) :
      Classifies tableOrdinal (.binaryOp (.column c) .like pattern)
        ⟨c.name, .like, pattern, .binaryOp (.column c) .like pattern, tableOrdinal⟩
  | compare (c : BoundColumn) (hc : c.tableOrdinal = tableOrdinal) {operator : BinaryOperator} {op : SeekOperator}
      (hop : sargableComparison operator = some op) (value : BoundExpression)
      (hfree : isFreeOf tableOrdinal value = true) :
      Classifies tableOrdinal (.binaryOp (.column c) operator value)
        ⟨c.name, op, value, .binaryOp (.column c) operator value, tableOrdinal⟩
  | flipped (c : BoundColumn) (hc : c.tableOrdinal = tableOrdinal) {operator : BinaryOperator} {op : SeekOperator}
      (hop : sargableComparison operator = some op) (value : BoundExpression)
      (hfree : isFreeOf tableOrdinal value = true) :
      Classifies tableOrdinal (.binaryOp value operator (.column c))
        ⟨c.name, op.flipped, value, .binaryOp value operator (.column c), tableOrdinal⟩

theorem bareColumn_eq {tableOrdinal : Nat} {e : BoundExpression} {c : BoundColumn}
    (h : bareColumn tableOrdinal e = some c) : e = .column c ∧ c.tableOrdinal = tableOrdinal := by
  cases e with
  | column d =>
      simp only [bareColumn, Option.ite_none_right_eq_some, Option.some.injEq] at h
      obtain ⟨hordinal, rfl⟩ := h
      exact ⟨rfl, hordinal⟩
  | _ => cases h

theorem classifyPredicate_cases {tableOrdinal : Nat} {e : BoundExpression} {p : Predicate}
    (h : classifyPredicate e tableOrdinal = some p) : Classifies tableOrdinal e p := by
  unfold classifyPredicate at h
  split at h
  · rename_i operand negated
    split at h
    · cases h
    · rename_i hnegated
      obtain ⟨c, hc, rfl⟩ := Option.map_eq_some_iff.mp h
      obtain ⟨rfl, hordinal⟩ := bareColumn_eq hc
      rw [Bool.not_eq_true] at hnegated
      subst hnegated
      exact .isNull c hordinal
  · split at h
    · rename_i c pattern hc
      split at h
      · cases h
      · cases h
        obtain ⟨rfl, hordinal⟩ := bareColumn_eq hc
        exact .like c hordinal _ rfl
    · cases h
  · rename_i left operator right _
    split at h
    · cases h
    · rename_i op hop
      split at h
      · rename_i c hc hfree
        cases h
        obtain ⟨rfl, hordinal⟩ := bareColumn_eq hc
        exact .compare c hordinal hop _ hfree
      · split at h
        · rename_i c hc hfree
          cases h
          obtain ⟨rfl, hordinal⟩ := bareColumn_eq hc
          exact .flipped c hordinal hop _ hfree
        · cases h
  · cases h

/-- The predicate has the conjunct. -/
theorem Classifies.source {tableOrdinal : Nat} {e : BoundExpression} {p : Predicate} (h : Classifies tableOrdinal e p) :
    p.source = e := by
  cases h <;> rfl

section Passes

variable {ops : FloatOps} {casefold : String → String} {table : TableSchema} {row : List Value}

theorem evaluate_column (ops : FloatOps) {c : BoundColumn} (h : c.index < row.length) :
    evaluate ops row (.column c) = .ok (row.getD c.index .null) := by
  simp only [evaluate, List.getElem?_eq_getElem h, List.getD_eq_getElem?_getD, Option.getD_some]

/-- The operator is TRUE of two values. -/
def binaryTrue (ops : FloatOps) (operator : BinaryOperator) (x y : Value) : Bool :=
  match binary ops operator x y with
  | .ok value => wherePasses value
  | .error _ => false

theorem isTrue_binary {operator : BinaryOperator} {l r : BoundExpression} {x y : Value} (hand : operator ≠ .and)
    (hor : operator ≠ .or) (hl : evaluate ops row l = .ok x) (hr : evaluate ops row r = .ok y) :
    isTrue ops row (.binaryOp l operator r) = binaryTrue ops operator x y := by
  rw [isTrue, evaluate_binary hand hor, hl, hr]
  rfl

theorem passes_eq {op : SeekOperator} {operator : BinaryOperator} (hop : op.comparison = some operator)
    (cell v : Value) : (⟨op, v⟩ : SeekTerm).passes ops cell = binaryTrue ops operator cell v := by
  unfold SeekTerm.passes
  rw [hop]
  rfl

theorem sargableComparison_eq {operator : BinaryOperator} {op : SeekOperator}
    (hop : sargableComparison operator = some op) : op.comparison = some operator := by
  cases operator <;> cases hop <;> rfl

theorem not_logical_of_sargable {operator : BinaryOperator} {op : SeekOperator}
    (hop : sargableComparison operator = some op) : operator ≠ .and ∧ operator ≠ .or := by
  constructor
  · rintro rfl
    cases hop
  · rintro rfl
    cases hop

/-- `_compare` of two values the other way round. -/
theorem compareValues_flipped {operator : BinaryOperator} {op : SeekOperator}
    (hop : sargableComparison operator = some op) (cell v : Value) : ∃ flipped flag,
      op.flipped.comparison = some flipped ∧ compareValues flipped cell v = .ok flag ∧
        compareValues operator v cell = .ok flag := by
  obtain ⟨-, hlt, hgt⟩ := compareValues_eq v cell
  obtain ⟨-, hlt', hgt'⟩ := compareValues_eq cell v
  obtain ⟨hle, hge⟩ := compareValues_le v cell
  obtain ⟨hle', hge'⟩ := compareValues_le cell v
  cases operator <;> cases hop
  case eq =>
    refine ⟨.eq, _, rfl, (compareValues_eq cell v).1, ?_⟩
    rw [(compareValues_eq v cell).1]
    simp only [compare_eq_pyEq, pyEq_comm v cell]
  case lt => exact ⟨.gt, _, rfl, hgt', hlt⟩
  case le => exact ⟨.ge, _, rfl, hge', hle⟩
  case gt => exact ⟨.lt, _, rfl, hlt', hgt⟩
  case ge => exact ⟨.le, _, rfl, hle', hge⟩

theorem passes_flipped {operator : BinaryOperator} {op : SeekOperator} (hop : sargableComparison operator = some op)
    (cell v : Value) : (⟨op.flipped, v⟩ : SeekTerm).passes ops cell = binaryTrue ops operator v cell := by
  obtain ⟨flipped, flag, hflipped, hcell, hv⟩ := compareValues_flipped hop cell v
  by_cases hnull : cell = .null ∨ v = .null
  · have hne : op.flipped ≠ .is := by
      intro his
      rw [his] at hflipped
      cases hflipped
    have hbinary : binary ops operator v cell = .ok .null := if_pos hnull.symm
    rw [passes_null hne hnull, binaryTrue, hbinary]
    rfl
  · have hbinary : binary ops operator v cell = ofBool <$> compareValues operator v cell := by
      cases operator <;> cases hop <;> exact if_neg fun h => hnull h.symm
    obtain ⟨hcellne, hvne⟩ := not_or.mp hnull
    rw [passes_of_compare hflipped hcellne hvne hcell, binaryTrue, hbinary, hv]
    exact (wherePasses_ofBool flag).symm

/-- A conjunct is TRUE of a row exactly if its seek term is TRUE of the column. -/
theorem Classifies.passes {e : BoundExpression} {p : Predicate} {v : Value} (h : Classifies 0 e p)
    (hof : e.Of casefold table) (hlen : row.length = table.columns.length) (hv : evaluate ops [] p.value = .ok v) :
    ∃ i, table.columnIndex casefold p.column = .ok i ∧
      isTrue ops row e = (⟨p.operator, v⟩ : SeekTerm).passes ops (row.getD i .null) := by
  cases h with
  | isNull c hc =>
      obtain ⟨-, hcolumn⟩ := hof
      cases hv
      have hcell := evaluate_column ops (hlen ▸ TableSchema.columnIndex_lt hcolumn)
      refine ⟨c.index, hcolumn, ?_⟩
      have hvalue : evaluate ops row (.isNull (.column c) false) =
          .ok (ofBool (row.getD c.index .null = .null)) := by
        rw [evaluate, hcell, Fallible.ok_bind]
        simp
      rw [isTrue_of_ok hvalue, wherePasses_ofBool]
      generalize row.getD c.index .null = cell
      cases cell <;> rfl
  | like c hc pattern hfree =>
      obtain ⟨⟨-, hcolumn⟩, hpattern⟩ := hof
      have hcell := evaluate_column ops (hlen ▸ TableSchema.columnIndex_lt hcolumn)
      rw [← hpattern.evaluate_constant hfree row] at hv
      refine ⟨c.index, hcolumn, ?_⟩
      rw [isTrue_binary (by decide) (by decide) hcell hv, passes_eq (show SeekOperator.like.comparison = some .like from rfl)]
  | compare c hc hop value hfree =>
      obtain ⟨⟨-, hcolumn⟩, hvalue⟩ := hof
      have hcell := evaluate_column ops (hlen ▸ TableSchema.columnIndex_lt hcolumn)
      rw [← hvalue.evaluate_constant hfree row] at hv
      obtain ⟨hand, hor⟩ := not_logical_of_sargable hop
      refine ⟨c.index, hcolumn, ?_⟩
      rw [isTrue_binary hand hor hcell hv, passes_eq (sargableComparison_eq hop)]
  | flipped c hc hop value hfree =>
      obtain ⟨hvalue, -, hcolumn⟩ := hof
      have hcell := evaluate_column ops (hlen ▸ TableSchema.columnIndex_lt hcolumn)
      rw [← hvalue.evaluate_constant hfree row] at hv
      obtain ⟨hand, hor⟩ := not_logical_of_sargable hop
      refine ⟨c.index, hcolumn, ?_⟩
      rw [isTrue_binary hand hor hv hcell, passes_flipped hop]

end Passes

/-! ## The terms of an index -/

section Terms

variable {ops : FloatOps} {casefold : String → String} {table : TableSchema}

/-- A predicate comes from a conjunct. -/
theorem classified_of_mem {conjuncts : List BoundExpression} {tableOrdinal : Nat} {p : Object Predicate}
    (h : p ∈ classifiedPredicates conjuncts tableOrdinal) :
    ∃ e ∈ conjuncts, Classifies tableOrdinal e p.val := by
  obtain ⟨⟨predicate, i⟩, hmem, rfl⟩ := List.mem_map.mp h
  obtain ⟨e, he, hclass⟩ := List.mem_filterMap.mp (List.fst_mem_of_mem_zipIdx hmem)
  exact ⟨e, he, classifyPredicate_cases hclass⟩

/-- The conjuncts are those without a predicate and the sources of the predicates. -/
theorem sources_perm (conjuncts : List BoundExpression) (tableOrdinal : Nat) :
    ((conjuncts.filter fun e => (classifyPredicate e tableOrdinal).isNone) ++
      (classifiedPredicates conjuncts tableOrdinal).map fun p => p.val.source).Perm conjuncts := by
  have hsources : (classifiedPredicates conjuncts tableOrdinal).map (fun p => p.val.source) =
      conjuncts.filter fun e => !(classifyPredicate e tableOrdinal).isNone := by
    rw [classifiedPredicates, List.map_map]
    have hval : ((fun p : Object Predicate => p.val.source) ∘ fun p : Predicate × Nat => (⟨p.2, p.1⟩ : Object Predicate)) =
        Predicate.source ∘ Prod.fst := rfl
    rw [hval, ← List.map_map, List.zipIdx_map_fst]
    induction conjuncts with
    | nil => rfl
    | cons e conjuncts ih =>
        cases hclass : classifyPredicate e tableOrdinal with
        | none => simp [hclass, ih]
        | some p => simp [hclass, ih, (classifyPredicate_cases hclass).source]
  rw [hsources]
  exact List.filter_append_perm _ _

/-- The predicate has a column of the table, and its source is TRUE of a row if its term is
TRUE of the column. -/
def Sought (ops : FloatOps) (casefold : String → String) (table : TableSchema) (p : Object Predicate) : Prop :=
  ∀ v, evaluate ops [] p.val.value = .ok v → ∃ i, table.columnIndex casefold p.val.column = .ok i ∧
    ∀ row : List Value, row.length = table.columns.length →
      isTrue ops row p.val.source = (⟨p.val.operator, v⟩ : SeekTerm).passes ops (row.getD i .null)

theorem sought_of_classifies {e : BoundExpression} {p : Object Predicate} (h : Classifies 0 e p.val)
    (hof : e.Of casefold table) : Sought ops casefold table p := by
  intro v hv
  have hrow : ∀ row : List Value, row.length = table.columns.length → ∃ i,
      table.columnIndex casefold p.val.column = .ok i ∧
        isTrue ops row p.val.source = (⟨p.val.operator, v⟩ : SeekTerm).passes ops (row.getD i .null) := by
    intro row hlen
    rw [h.source]
    exact h.passes hof hlen hv
  obtain ⟨i, hi, -⟩ := hrow (List.replicate table.columns.length .null) List.length_replicate
  refine ⟨i, hi, fun row hlen => ?_⟩
  obtain ⟨j, hj, hpasses⟩ := hrow row hlen
  cases hi.symm.trans hj
  exact hpasses

variable {row : List Value}

/-- The equalities on the first columns of an index. -/
theorem prefixPasses_eq {ps : List (Object Predicate)} {eqs : List SeekTerm} {columns : List String}
    {positions : List Nat} (hsought : ∀ p ∈ ps, Sought ops casefold table p)
    (hterms : List.Forall₂ (IsTerm ops []) ps eqs) (hpinned : ps.map (fun p => p.val.column) <+: columns)
    (hpositions : columns.mapM (table.columnIndex casefold) = .ok positions)
    (hlen : row.length = table.columns.length) :
    prefixPasses ops eqs (positions.map fun i => row.getD i .null) = ps.all fun p => isTrue ops row p.val.source := by
  have haligned := mapM_ok hpositions
  clear hpositions
  induction hterms generalizing columns positions with
  | nil => simp [prefixPasses]
  | @cons p t ps eqs hterm _ ih =>
      rw [List.forall_mem_cons] at hsought
      obtain ⟨rest, rfl⟩ := hpinned
      cases haligned with
      | @cons _ i _ positions hi haligned =>
          obtain ⟨j, hj, hpasses⟩ := hsought.1 _ hterm.2
          cases hi.symm.trans hj
          have hrest := ih hsought.2 (List.prefix_append _ rest) haligned
          rw [List.all_cons, hpasses row hlen, hterm.1, ← hrest]
          rfl

/-- The bounds on the column behind them. -/
theorem rangesPass_eq {ps : List (Object Predicate)} {ranges : List SeekTerm} {i : Nat}
    (hsought : ∀ p ∈ ps, Sought ops casefold table p) (hterms : List.Forall₂ (IsTerm ops []) ps ranges)
    (hcolumn : ∀ p ∈ ps, table.columnIndex casefold p.val.column = .ok i) (hlen : row.length = table.columns.length) :
    (ranges.all fun t => t.passes ops (row.getD i .null)) = ps.all fun p => isTrue ops row p.val.source := by
  induction hterms with
  | nil => rfl
  | @cons p t ps ranges hterm _ ih =>
      rw [List.forall_mem_cons] at hsought hcolumn
      obtain ⟨j, hj, hpasses⟩ := hsought.1 _ hterm.2
      cases hcolumn.1.symm.trans hj
      rw [List.all_cons, List.all_cons, ih hsought.2 hcolumn.2, hpasses row hlen, hterm.1]

theorem isLower_or_isUpper {t : SeekTerm} (hbound : t.operator.isBound = true)
    (hnot : t.operator.isEquality = false) : t.isLower = true ∨ t.isUpper = true := by
  obtain ⟨operator, v⟩ := t
  cases operator <;> first | cases hbound; done | cases hnot; done | exact .inl rfl | exact .inr rfl

/-- The terms of a path that meets its contract: they fit the index, and they are TRUE of
a row if all the conjuncts are that they come from. -/
theorem AccessPath.Contract.terms {path : AccessPath} {predicates : List (Object Predicate)} {index : IndexSchema}
    {positions : List Nat} (h : path.Contract predicates) (hindex : path.index = some index)
    (hsplit : path.seekTerms = equalities path.seekTerms ++ inequalities path.seekTerms)
    (hpositions : indexColumns casefold table index = .ok positions)
    (hsought : ∀ p ∈ path.seekTerms, Sought ops casefold table p)
    (hvalues : ∀ p ∈ path.seekTerms, ∃ v, evaluate ops [] p.val.value = .ok v) :
    ∃ eqs ranges, HasTerms ops [] path (eqs ++ ranges) ∧ SeekShape positions eqs ranges ∧
      List.Forall₂ (IsTerm ops []) (inequalities path.seekTerms) ranges ∧
      (∀ p ∈ inequalities path.seekTerms, table.columnIndex casefold p.val.column =
        .ok (positions.getD eqs.length 0)) ∧
      ∀ row : Int × List Value, row.2.length = table.columns.length →
        rowPasses ops eqs ranges positions row = path.seekTerms.all fun p => isTrue ops row.2 p.val.source := by
  have hcolumns : path.columns = index.columns := by
    rw [AccessPath.columns, hindex]
    rfl
  have hterm : ∀ p ∈ path.seekTerms, ∃ t, IsTerm ops [] p t := by
    intro p hp
    obtain ⟨v, hv⟩ := hvalues p hp
    exact ⟨⟨p.val.operator, v⟩, rfl, hv⟩
  have heqsub : ∀ p ∈ equalities path.seekTerms, p ∈ path.seekTerms := fun p hp => (mem_equalities.mp hp).1
  have hrangesub : ∀ p ∈ inequalities path.seekTerms, p ∈ path.seekTerms := fun p hp => (mem_inequalities.mp hp).1
  obtain ⟨eqs, heqs⟩ := exists_forall₂_iff.mpr fun p hp => hterm p (heqsub p hp)
  obtain ⟨ranges, hranges⟩ := exists_forall₂_iff.mpr fun p hp => hterm p (hrangesub p hp)
  have haligned := mapM_ok hpositions
  have hpinned := hcolumns ▸ h.pinned
  have hlength : eqs.length ≤ positions.length := by
    have hle := hpinned.length_le
    rw [List.length_map, heqs.length_eq, haligned.length_eq] at hle
    exact hle
  -- a bounded column is the one behind the prefix
  have hbounded : ∀ p ∈ inequalities path.seekTerms, eqs.length < positions.length ∧
      table.columnIndex casefold p.val.column = .ok (positions.getD eqs.length 0) := by
    intro p hp
    have hnext := (h.bounds p hp).2
    rw [hcolumns, heqs.length_eq] at hnext
    obtain ⟨hlt, hcolumn⟩ := List.getElem?_eq_some_iff.mp hnext
    have hlt' := haligned.length_eq ▸ hlt
    have hposition := (List.forall₂_iff_get.mp haligned).2 eqs.length hlt hlt'
    refine ⟨hlt', ?_⟩
    rw [← hcolumn, List.getD_eq_getElem?_getD, List.getElem?_eq_getElem hlt']
    exact hposition
  refine ⟨eqs, ranges, ?_, ⟨?_, ?_, ?_⟩, hranges, fun p hp => (hbounded p hp).2, ?_⟩
  · rw [HasTerms, hsplit]
    exact List.rel_append heqs hranges
  · intro t ht
    obtain ⟨p, hp, hpt⟩ := exists_left heqs ht
    rw [← hpt.1]
    exact (mem_equalities.mp hp).2
  · intro t ht
    obtain ⟨p, hp, hpt⟩ := exists_left hranges ht
    exact isLower_or_isUpper (hpt.1 ▸ (h.bounds p hp).1) (hpt.1 ▸ (mem_inequalities.mp hp).2)
  · split
    · exact hlength
    · rename_i hne
      obtain ⟨t, ht⟩ := List.exists_mem_of_ne_nil _ hne
      obtain ⟨p, hp, -⟩ := exists_left hranges ht
      exact (hbounded p hp).1
  · intro row hlen
    have heqpass := prefixPasses_eq (fun p hp => hsought p (heqsub p hp)) heqs hpinned hpositions hlen
    have hrangepass := rangesPass_eq (fun p hp => hsought p (hrangesub p hp)) hranges (fun p hp => (hbounded p hp).2) hlen
    rw [rowPasses, heqpass, boundCell, hrangepass, ← List.all_append, ← hsplit]

end Terms

end QuillDb
