/-
  Plan/Predicates.lean --- which conjuncts an index can seek on.

  Source: `quilldb/plan/predicates.py`.
-/
import QuillDb.Sql.Bound

set_option autoImplicit false

namespace QuillDb

/-- `Predicate.operator`. -/
inductive SeekOperator where
  | eq
  | lt
  | le
  | gt
  | ge
  | is
  | like
  deriving DecidableEq, Repr

/-- `Predicate`: a conjunct in the order column, operator, value. -/
structure Predicate where
  column : String
  operator : SeekOperator
  value : BoundExpression
  source : BoundExpression
  tableOrdinal : Nat
  deriving DecidableEq

/-- `extract_conjuncts`. -/
def extractConjuncts : Option BoundExpression → List BoundExpression
  | none => []
  | some where_ => go where_
where
  go : BoundExpression → List BoundExpression
    | .binaryOp left .and right => go left ++ go right
    | expr => [expr]

/-- `_is_free_of`. -/
def isFreeOf (tableOrdinal : Nat) : BoundExpression → Bool
  | .column c => c.tableOrdinal ≠ tableOrdinal
  | .literal _ => true
  | .unaryOp _ operand => isFreeOf tableOrdinal operand
  | .binaryOp left _ right => isFreeOf tableOrdinal left && isFreeOf tableOrdinal right
  | .isNull operand _ => isFreeOf tableOrdinal operand

/-- `_SARGABLE_COMPARISONS`, as the operators of predicates. -/
def sargableComparison : BinaryOperator → Option SeekOperator
  | .eq => some .eq
  | .lt => some .lt
  | .le => some .le
  | .gt => some .gt
  | .ge => some .ge
  | _ => none

/-- `_FLIPPED`. -/
def SeekOperator.flipped : SeekOperator → SeekOperator
  | .lt => .gt
  | .le => .ge
  | .gt => .lt
  | .ge => .le
  | operator => operator

/-- A bare column of the table, on one side of an operator. -/
def bareColumn (tableOrdinal : Nat) : BoundExpression → Option BoundColumn
  | .column c => if c.tableOrdinal = tableOrdinal then some c else none
  | _ => none

/-- `pattern.startswith(("%", "_"))`. -/
def startsWithWildcard (pattern : String) : Bool :=
  match pattern.toList with
  | '%' :: _ => true
  | '_' :: _ => true
  | _ => false

/-- `classify_predicate`. -/
def classifyPredicate (expr : BoundExpression) (tableOrdinal : Nat) : Option Predicate :=
  match expr with
  | .isNull operand negated =>
      if negated then none
      else (bareColumn tableOrdinal operand).map fun c =>
        ⟨c.name, .is, .literal .null, expr, tableOrdinal⟩
  | .binaryOp left .like right =>
      match bareColumn tableOrdinal left, right with
      | some c, .literal (.text pattern) =>
          if startsWithWildcard pattern then none else some ⟨c.name, .like, right, expr, tableOrdinal⟩
      | _, _ => none
  | .binaryOp left operator right =>
      match sargableComparison operator with
      | none => none
      | some op =>
          match bareColumn tableOrdinal left, isFreeOf tableOrdinal right with
          | some c, true => some ⟨c.name, op, right, expr, tableOrdinal⟩
          | _, _ =>
              match bareColumn tableOrdinal right, isFreeOf tableOrdinal left with
              | some c, true => some ⟨c.name, op.flipped, left, expr, tableOrdinal⟩
              | _, _ => none
  | _ => none

/-- A Python object: its identity and what it holds. -/
structure Object (α : Type) where
  id : Nat
  val : α
  deriving DecidableEq

/-- The predicates of a list of conjuncts.  Every call of `classify_predicate` that finds one
makes a new object. -/
def classifiedPredicates (conjuncts : List BoundExpression) (tableOrdinal : Nat) :
    List (Object Predicate) :=
  (conjuncts.filterMap (classifyPredicate · tableOrdinal)).zipIdx.map fun p => ⟨p.2, p.1⟩

/-- They are different objects. -/
theorem classifiedPredicates_nodup (conjuncts : List BoundExpression) (tableOrdinal : Nat) :
    ((classifiedPredicates conjuncts tableOrdinal).map Object.id).Nodup := by
  rw [classifiedPredicates, List.map_map]
  have hids : (Object.id ∘ fun p : Predicate × Nat => (⟨p.2, p.1⟩ : Object Predicate)) = Prod.snd := rfl
  rw [hids, List.zipIdx_map_snd]
  exact List.nodup_range'

end QuillDb
