/-
  Exec/Aggregate.lean --- grouping and aggregate functions.

  Source: `quilldb/exec/aggregate.py`.

  A dict finds a key that is the same object or equal, so that a NaN is only found
  by the object it is.  Each key item therefore comes with a mark of its object.
-/
import QuillDb.Exec.Expressions
import QuillDb.Lib.GroupFold
import QuillDb.Lib.Fallible

set_option autoImplicit false

namespace QuillDb

open Fallible

/-! ## The source -/

/-- The names of `AGGREGATES`. -/
inductive AggregateFunction where
  | countStar
  | count
  | sum
  | avg
  | min
  | max
  deriving DecidableEq, Repr

/-- `BoundAggregate`. -/
structure BoundAggregate where
  func : AggregateFunction
  arg : Option BoundExpression
  deriving DecidableEq

/-- `AggState`, with NULL for Python's `None`. -/
abbrev AggState : AggregateFunction → Type
  | .countStar => Nat
  | .count => Nat
  | .sum => Value
  | .avg => Value × Nat
  | .min => Value
  | .max => Value

/-- `AggSpec.init`. -/
def aggInit : (func : AggregateFunction) → AggState func
  | .countStar => (0 : Nat)
  | .count => (0 : Nat)
  | .sum => Value.null
  | .avg => (Value.null, 0)
  | .min => Value.null
  | .max => Value.null

/-- `_count_step`. -/
def countStep (state : Nat) (value : Value) : Nat := if value = .null then state else state + 1

/-- `_min_step` with `o` for "below" and `_max_step` with `o` for "above". -/
def extremeStep (o : Ordering) (state value : Value) : Value :=
  if value = .null then state
  else if state = .null then value
  else if compareKeys [value] [state] = o then value
  else state

section Source

variable (ops : FloatOps)

/-- `_sum_step`. -/
def sumStep (state value : Value) : Except DbError Value :=
  if value = .null then .ok state
  else do
    let value ← requireNumber value "SUM"
    if state = .null then .ok value
    else
      match state, value with
      | .int total, .int n =>
          if fitsInt64 (total + n) then .ok (.int (total + n))
          else .error (.integerOverflow "SUM of all-INTEGER values overflowing 2**63-1")
      | total, number => pyAdd ops total number

/-- `_avg_step`. -/
def avgStep (state : Value × Nat) (value : Value) : Except DbError (Value × Nat) :=
  if value = .null then .ok state
  else do
    let number ← requireNumber value "AVG"
    if state.1 = .null then .ok (number, state.2 + 1)
    else do
      let total ← pyAdd ops state.1 number
      .ok (total, state.2 + 1)

/-- `total / count`. -/
def quotient (total : Value) (count : Nat) : Except DbError Value :=
  match total with
  | .int n =>
      match ops.intDiv n count with
      | some bits => .ok (.real bits)
      | none => .error (.overflowError "integer division result too large for a float")
  | total => do
      let x ← toFloat ops total
      let y ← floatOfInt ops count
      .ok (.real (ops.div x y))

/-- `_avg_final`. -/
def avgFinal (state : Value × Nat) : Except DbError Value :=
  if state.1 = .null then .ok .null else quotient ops state.1 state.2

/-- `AggSpec.step`. -/
def aggStep : (func : AggregateFunction) → AggState func → Value → Except DbError (AggState func)
  | .countStar, state, _ => .ok (Nat.succ state)
  | .count, state, value => .ok (countStep state value)
  | .sum, state, value => sumStep ops state value
  | .avg, state, value => avgStep ops state value
  | .min, state, value => .ok (extremeStep .lt state value)
  | .max, state, value => .ok (extremeStep .gt state value)

/-- `AggSpec.final`. -/
def aggFinal : (func : AggregateFunction) → AggState func → Except DbError Value
  | .countStar, state => .ok (.int (Int.ofNat state))
  | .count, state => .ok (.int (Int.ofNat state))
  | .sum, state => .ok state
  | .avg, state => avgFinal ops state
  | .min, state => .ok state
  | .max, state => .ok state

/-- The state of one aggregate of one group. -/
structure AggCell where
  func : AggregateFunction
  state : AggState func

/-- The value an aggregate takes from a row: none for `COUNT(*)`. -/
def argument (agg : BoundAggregate) (row : List Value) : Except DbError Value :=
  match agg.arg with
  | none => .ok .null
  | some arg => evaluate ops row arg

def AggCell.step (cell : AggCell) (value : Value) : Except DbError AggCell := do
  let state ← aggStep ops cell.func cell.state value
  .ok ⟨cell.func, state⟩

def AggCell.final (cell : AggCell) : Except DbError Value := aggFinal ops cell.func cell.state

/-- A row of the child, and which objects its key expressions evaluate to. -/
structure StreamRow where
  values : List Value
  identity : Nat → Nat

/-- A key: values with the marks of their objects. -/
abbrev GroupKey : Type := List (Value × Nat)

/-- Python's `is` or `==`. -/
def sameItem (a b : Value × Nat) : Bool := a = b || a.1.pyEq b.1

/-- `==` of two tuples. -/
def sameKey : GroupKey → GroupKey → Bool
  | [], [] => true
  | a :: as, b :: bs => sameItem a b && sameKey as bs
  | _, _ => false

/-- `tuple(evaluate(expr, row) for expr in self.group_by)`. -/
def groupKey (groupBy : List BoundExpression) (row : StreamRow) : Except DbError GroupKey := do
  let values ← groupBy.mapM (evaluate ops row.values)
  .ok (values.zipIdx.map fun p => (p.1, row.identity p.2))

def initStates (aggregates : List BoundAggregate) : List AggCell :=
  aggregates.map fun agg => ⟨agg.func, aggInit agg.func⟩

/-- One row for one aggregate. -/
def stepCell (agg : BoundAggregate) (cell : AggCell) (row : StreamRow) : Except DbError AggCell := do
  let value ← argument ops agg row.values
  cell.step ops value

/-- The loop over the aggregates, for one row of a group. -/
def stepStates (aggregates : List BoundAggregate) (states : List AggCell) (row : StreamRow) :
    Except DbError (List AggCell) :=
  stepAll (stepCell ops) aggregates states row

/-- The output row of a group. -/
def finishGroup (group : GroupKey × List AggCell) : Except DbError (List Value) := do
  let values ← group.2.mapM (AggCell.final ops)
  .ok (group.1.map Prod.fst ++ values)

/-- `HashAggregate.open`: the rows it makes of the rows of its child. -/
def hashAggregate (groupBy : List BoundExpression) (aggregates : List BoundAggregate)
    (rows : List StreamRow) : Except DbError (List (List Value)) := do
  let groups ← rows.foldlM (fun groups row => do
      let key ← groupKey ops groupBy row
      GroupFold.insert sameKey (initStates aggregates) (stepStates ops aggregates) key row groups)
    (if groupBy.isEmpty then [([], initStates aggregates)] else [])
  groups.mapM (finishGroup ops)

end Source

/-! ## Keys -/

namespace Value

/-- A NaN equals nothing. -/
theorem not_nan_of_pyEq {a b : Value} (h : a.pyEq b = true) : ¬ a.isNan ∧ ¬ b.isNan := by
  have hrank : a.rank = b.rank := by
    by_contra hne
    rw [pyEq_of_rank_ne hne] at h
    cases h
  constructor
  · intro ha
    obtain ⟨y, hy⟩ := exists_number (hrank ▸ rank_of_number ha)
    rw [number_pyEq ha hy] at h
    cases h
  · intro hb
    obtain ⟨x, hx⟩ := exists_number (hrank.trans (rank_of_number hb))
    rw [number_pyEq hx hb] at h
    cases x <;> cases h

theorem pyEq_symm {a b : Value} (h : a.pyEq b = true) : b.pyEq a = true := by
  obtain ⟨ha, hb⟩ := not_nan_of_pyEq h
  exact (pyEq_iff hb ha).mpr ((pyEq_iff ha hb).mp h).symm

theorem pyEq_trans {a b c : Value} (hab : a.pyEq b = true) (hbc : b.pyEq c = true) : a.pyEq c = true := by
  obtain ⟨ha, hb⟩ := not_nan_of_pyEq hab
  have hc := (not_nan_of_pyEq hbc).2
  exact (pyEq_iff ha hc).mpr (((pyEq_iff ha hb).mp hab).trans ((pyEq_iff hb hc).mp hbc))

end Value

theorem sameItem_iff {a b : Value × Nat} : sameItem a b = true ↔ a = b ∨ a.1.pyEq b.1 = true := by
  rw [sameItem, Bool.or_eq_true, decide_eq_true_iff]

theorem sameItem_equivalence : Equivalence fun a b : Value × Nat => sameItem a b = true where
  refl a := sameItem_iff.mpr (.inl rfl)
  symm h := sameItem_iff.mpr ((sameItem_iff.mp h).imp Eq.symm Value.pyEq_symm)
  trans hab hbc := by
    rcases sameItem_iff.mp hab with rfl | hab
    · exact hbc
    · rcases sameItem_iff.mp hbc with rfl | hbc
      · exact sameItem_iff.mpr (.inr hab)
      · exact sameItem_iff.mpr (.inr (Value.pyEq_trans hab hbc))

theorem sameKey_iff {a b : GroupKey} :
    sameKey a b = true ↔ List.Forall₂ (fun x y => sameItem x y = true) a b := by
  induction a generalizing b with
  | nil => cases b <;> simp [sameKey]
  | cons x a ih => cases b <;> simp [sameKey, ih]

theorem sameKey_equivalence : Equivalence fun a b : GroupKey => sameKey a b = true where
  refl a := sameKey_iff.mpr (List.forall₂_same.mpr fun x _ => sameItem_equivalence.refl x)
  symm h := sameKey_iff.mpr ((sameKey_iff.mp h).flip.imp fun _ _ => sameItem_equivalence.symm)
  trans {a b c} hab hbc := by
    induction a generalizing b c with
    | nil =>
        cases b
        · exact hbc
        · cases hab
    | cons x a ih =>
        cases sameKey_iff.mp hab with
        | cons hxy hxys =>
            cases sameKey_iff.mp hbc with
            | cons hyz hyzs =>
                refine sameKey_iff.mpr (.cons (sameItem_equivalence.trans hxy hyz) ?_)
                exact sameKey_iff.mp (ih (sameKey_iff.mpr hxys) (sameKey_iff.mpr hyzs))

/-! ## Classes and their folds -/

section Classes

variable (ops : FloatOps)

/-- The rows with their keys. -/
def keyedRows (groupBy : List BoundExpression) (rows : List StreamRow) :
    Except DbError (List (GroupKey × StreamRow)) :=
  rows.mapM fun row => do
    let key ← groupKey ops groupBy row
    .ok (key, row)

/-- The classes of rows with equal keys, in the order in which they first appear: without
GROUP BY, the one class of all rows. -/
def classes (groupBy : List BoundExpression) (keyed : List (GroupKey × StreamRow)) :
    List (GroupKey × List StreamRow) :=
  if groupBy.isEmpty then [([], keyed.map Prod.snd)]
  else (GroupFold.firstKeys sameKey (keyed.map Prod.fst)).map fun key =>
    (key, GroupFold.classOf sameKey key keyed)

/-- The arguments that an aggregate takes from the rows of a class. -/
def arguments (agg : BoundAggregate) (members : List StreamRow) : Except DbError (List Value) :=
  members.mapM fun row => argument ops agg row.values

/-- One aggregate over all its arguments. -/
def runAggregate (func : AggregateFunction) (args : List Value) : Except DbError Value := do
  let state ← args.foldlM (aggStep ops func) (aggInit func)
  aggFinal ops func state

/-- A row made of a class: its key, and a value of each aggregate that `value` accepts. -/
def ClassRow (value : AggregateFunction → List Value → Value → Prop) (aggregates : List BoundAggregate)
    (cls : GroupKey × List StreamRow) (result : List Value) : Prop :=
  ∃ values, result = cls.1.map Prod.fst ++ values ∧
    List.Forall₂ (fun agg v => ∃ args, arguments ops agg cls.2 = .ok args ∧ value agg.func args v)
      aggregates values

variable {ops} {aggregates : List BoundAggregate}

theorem foldlM_cell_iff {func : AggregateFunction} {state : AggState func} {args : List Value} {cell : AggCell} :
    args.foldlM (AggCell.step ops) ⟨func, state⟩ = .ok cell ↔
      ∃ state', args.foldlM (aggStep ops func) state = .ok state' ∧ cell = ⟨func, state'⟩ := by
  induction args generalizing state with
  | nil =>
      constructor
      · exact fun h => ⟨state, rfl, (Except.ok.inj h).symm⟩
      · rintro ⟨state', h, rfl⟩
        rw [← Except.ok.inj h]
        rfl
  | cons arg args ih =>
      simp only [List.foldlM_cons, bind_eq_ok_iff, AggCell.step]
      constructor
      · rintro ⟨_, ⟨state₁, hstep, heq⟩, hrest⟩
        obtain rfl := Except.ok.inj heq
        obtain ⟨state', hfold, rfl⟩ := ih.mp hrest
        exact ⟨state', ⟨state₁, hstep, hfold⟩, rfl⟩
      · rintro ⟨state', ⟨state₁, hstep, hfold⟩, rfl⟩
        exact ⟨_, ⟨state₁, hstep, rfl⟩, ih.mpr ⟨state', hfold, rfl⟩⟩

/-- The fold of one aggregate over the rows of a class, and its final value. -/
theorem stepCell_final_iff {agg : BoundAggregate} {members : List StreamRow} {v : Value} :
    (∃ cell, members.foldlM (stepCell ops agg) ⟨agg.func, aggInit agg.func⟩ = .ok cell ∧
        cell.final ops = .ok v) ↔
      ∃ args, arguments ops agg members = .ok args ∧ runAggregate ops agg.func args = .ok v := by
  have hfold : ∀ cell, members.foldlM (stepCell ops agg) ⟨agg.func, aggInit agg.func⟩ = .ok cell ↔
      ∃ args, arguments ops agg members = .ok args ∧
        args.foldlM (AggCell.step ops) ⟨agg.func, aggInit agg.func⟩ = .ok cell :=
    fun cell => foldlM_bind_iff
  simp only [hfold, foldlM_cell_iff, runAggregate, bind_eq_ok_iff]
  constructor
  · rintro ⟨cell, ⟨args, hargs, state, hstate, rfl⟩, hfinal⟩
    exact ⟨args, hargs, state, hstate, hfinal⟩
  · rintro ⟨args, hargs, state, hstate, hfinal⟩
    exact ⟨_, ⟨args, hargs, state, hstate, rfl⟩, hfinal⟩

/-- The output row of a class. -/
theorem finishGroup_iff {cls : GroupKey × List StreamRow} {result : List Value} :
    (∃ states, cls.2.foldlM (stepStates ops aggregates) (initStates aggregates) = .ok states ∧
        finishGroup ops (cls.1, states) = .ok result) ↔
      ClassRow ops (fun func args v => runAggregate ops func args = .ok v) aggregates cls result := by
  have hlen : aggregates.length = (initStates aggregates).length := (List.length_map _).symm
  have hzip : aggregates.zip (initStates aggregates) =
      aggregates.map fun agg => (agg, (⟨agg.func, aggInit agg.func⟩ : AggCell)) := by
    clear hlen
    induction aggregates with
    | nil => rfl
    | cons agg aggregates ih => exact congrArg _ ih
  have hstates : ∀ states, cls.2.foldlM (stepStates ops aggregates) (initStates aggregates) = .ok states ↔
      List.Forall₂ (fun agg cell =>
        cls.2.foldlM (stepCell ops agg) ⟨agg.func, aggInit agg.func⟩ = .ok cell) aggregates states := by
    intro states
    refine (foldlM_stepAll_iff hlen).trans ?_
    rw [hzip, List.forall₂_map_left_iff]
  simp only [hstates, finishGroup, bind_eq_ok_iff, mapM_eq_ok_iff, ClassRow, ← stepCell_final_iff,
    ← forall₂_comp_iff]
  constructor
  · rintro ⟨states, hfolds, values, hfinals, heq⟩
    exact ⟨values, (Except.ok.inj heq).symm, states, hfolds, hfinals⟩
  · rintro ⟨values, rfl, states, hfolds, hfinals⟩
    exact ⟨states, hfolds, values, hfinals, rfl⟩

/-- The pass with its keys computed first. -/
theorem groups_iff {groupBy : List BoundExpression} {rows : List StreamRow}
    {seed groups : List (GroupKey × List AggCell)} :
    rows.foldlM (fun groups row => do
        let key ← groupKey ops groupBy row
        GroupFold.insert sameKey (initStates aggregates) (stepStates ops aggregates) key row groups) seed =
        .ok groups ↔
      ∃ keyed, keyedRows ops groupBy rows = .ok keyed ∧
        GroupFold.pass sameKey (initStates aggregates) (stepStates ops aggregates) seed keyed = .ok groups := by
  have hstep : (fun (groups : List (GroupKey × List AggCell)) row => do
      let key ← groupKey ops groupBy row
      GroupFold.insert sameKey (initStates aggregates) (stepStates ops aggregates) key row groups) =
      fun groups row => (groupKey ops groupBy row >>= fun key => .ok (key, row)) >>= fun p =>
        GroupFold.insert sameKey (initStates aggregates) (stepStates ops aggregates) p.1 p.2 groups := by
    funext groups row
    cases groupKey ops groupBy row <;> rfl
  rw [hstep]
  exact foldlM_bind_iff

/-- Without GROUP BY every key is the empty tuple. -/
theorem keys_nil {rows : List StreamRow} {keyed : List (GroupKey × StreamRow)}
    (h : keyedRows ops [] rows = .ok keyed) : ∀ row ∈ keyed, sameKey [] row.1 = true := by
  have hall := mapM_ok h
  clear h
  induction hall with
  | nil => exact fun row hrow => nomatch hrow
  | cons hrow _ ih =>
      refine List.forall_mem_cons.mpr ⟨?_, ih⟩
      rw [← Except.ok.inj hrow]
      rfl

/-- The groups that the pass makes, finished, are the rows of the classes. -/
theorem pass_finish_iff {groupBy : List BoundExpression} {rows : List StreamRow}
    {keyed : List (GroupKey × StreamRow)} {results : List (List Value)}
    (hkeyed : keyedRows ops groupBy rows = .ok keyed) :
    (∃ groups, GroupFold.pass sameKey (initStates aggregates) (stepStates ops aggregates)
          (if groupBy.isEmpty then [([], initStates aggregates)] else []) keyed = .ok groups ∧
        List.Forall₂ (fun group result => finishGroup ops group = .ok result) groups results) ↔
      List.Forall₂ (ClassRow ops (fun func args v => runAggregate ops func args = .ok v) aggregates)
        (classes groupBy keyed) results := by
  rw [classes]
  cases groupBy with
  | nil =>
      rw [List.isEmpty_nil, if_pos rfl, if_pos rfl]
      simp only [GroupFold.pass_single_iff (keys_nil hkeyed)]
      constructor
      · rintro ⟨groups, ⟨states, hfold, rfl⟩, hfinish⟩
        cases hfinish with
        | cons hresult hrest =>
            cases hrest
            exact .cons (finishGroup_iff.mp ⟨states, hfold, hresult⟩) .nil
      · intro h
        cases h with
        | cons hrow hrest =>
            cases hrest
            obtain ⟨states, hfold, hresult⟩ := finishGroup_iff.mpr hrow
            exact ⟨_, ⟨states, hfold, rfl⟩, .cons hresult .nil⟩
  | cons e groupBy =>
      rw [List.isEmpty_cons, if_neg Bool.false_ne_true, if_neg Bool.false_ne_true,
        List.forall₂_map_left_iff]
      simp only [GroupFold.pass_iff sameKey_equivalence, ← finishGroup_iff]
      rw [forall₂_comp_iff]
      have hgroup : ∀ (key : GroupKey) (result : List Value),
          (∃ group, GroupFold.Folded sameKey (initStates aggregates) (stepStates ops aggregates) keyed key
              group ∧ finishGroup ops group = .ok result) ↔
            ∃ states, (GroupFold.classOf sameKey key keyed).foldlM (stepStates ops aggregates)
                (initStates aggregates) = .ok states ∧ finishGroup ops (key, states) = .ok result := by
        intro key result
        constructor
        · rintro ⟨⟨_, states⟩, ⟨rfl, hfold⟩, hfinish⟩
          exact ⟨states, hfold, hfinish⟩
        · rintro ⟨states, hfold, hfinish⟩
          exact ⟨(key, states), ⟨rfl, hfold⟩, hfinish⟩
      simp only [hgroup]

/-- Grouping and folding in one pass is grouping, and then folding each class. -/
theorem hashAggregate_iff {groupBy : List BoundExpression} {rows : List StreamRow}
    {results : List (List Value)} :
    hashAggregate ops groupBy aggregates rows = .ok results ↔
      ∃ keyed, keyedRows ops groupBy rows = .ok keyed ∧
        List.Forall₂ (ClassRow ops (fun func args v => runAggregate ops func args = .ok v) aggregates)
          (classes groupBy keyed) results := by
  rw [hashAggregate, bind_eq_ok_iff]
  simp only [groups_iff, mapM_eq_ok_iff]
  constructor
  · rintro ⟨groups, ⟨keyed, hkeyed, hpass⟩, hfinish⟩
    exact ⟨keyed, hkeyed, (pass_finish_iff hkeyed).mp ⟨groups, hpass, hfinish⟩⟩
  · rintro ⟨keyed, hkeyed, hrows⟩
    obtain ⟨groups, hpass, hfinish⟩ := (pass_finish_iff hkeyed).mpr hrows
    exact ⟨groups, ⟨keyed, hkeyed, hpass⟩, hfinish⟩

end Classes

end QuillDb
