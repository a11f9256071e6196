/-
  Sql/Binder.lean --- names, parameters and constants of a statement resolved.

  Source: `bind_insert`, `bind_delete`, `bind_update`, `_expression`, `_constant`,
  `_parameter`, `require_all_parameters_consumed` and `_coerce_to_declared_type` of
  `quilldb/sql/binder.py`.

  `getTable` is the schema source, `casefold` Python's `str.casefold`.  A parameter is
  a `Value` here: `_require_bindable` turns anything else away before the rest runs.
-/
import QuillDb.Sql.Ast
import QuillDb.Exec.Expressions
import QuillDb.Lib.Prog

set_option autoImplicit false

namespace QuillDb

open Prog

/-! ## Bound statements -/

structure BoundInsert where
  table : TableSchema
  values : List Value

structure BoundAssignment where
  columnIndex : Nat
  value : BoundExpression

structure BoundDelete where
  table : TableSchema
  condition : Option BoundExpression

structure BoundUpdate where
  table : TableSchema
  assignments : List BoundAssignment
  condition : Option BoundExpression

/-! ## Declared types -/

/-- `_coerce_to_declared_type`: NULL goes into any column, an int into a REAL one as a
float. -/
def coerceToDeclaredType (ops : FloatOps) (value : Value) (dataType : DataType)
    (tableName columnName : String) : Except DbError Value :=
  match value with
  | .null => .ok .null
  | _ =>
      let place := s!"{tableName}.{columnName}"
      match dataType, value with
      | .integer, .int n => .ok (.int n)
      | .integer, _ => .error (.typeMismatch s!"{place} is INTEGER; cannot store {value.typeName}")
      | .real, .int n => .real <$> floatOfInt ops n
      | .real, .real bits => .ok (.real bits)
      | .real, _ => .error (.typeMismatch s!"{place} is REAL; cannot store {value.typeName}")
      | .text, .text s => .ok (.text s)
      | .text, _ => .error (.typeMismatch s!"{place} is TEXT; cannot store {value.typeName}")
      | .blob, .blob data => .ok (.blob data)
      | .blob, _ => .error (.typeMismatch s!"{place} is BLOB; cannot store {value.typeName}")

/-! ## The binder -/

/-- `_Binder.consumed` is the state. -/
abbrev BindM : Type → Type := Prog DbError (List Nat)

namespace Binder

section Bind

variable (casefold : String → String) (ops : FloatOps)
variable (getTable : String → Except DbError TableSchema) (parameters : List Value)

/-- `_parameter`. -/
def parameter (index : Nat) : BindM Value :=
  match parameters[index]? with
  | none => raise (.parameterCount (s!"statement uses at least {index + 1} parameters but " ++
      s!"{parameters.length} were supplied"))
  | some value => do
      update fun consumed => if index ∈ consumed then consumed else index :: consumed
      return value

/-- `_constant`. -/
def constant : Ast.Expression → BindM Value
  | .literal value => return value
  | .parameter index => parameter parameters index
  | .unaryOp .plus operand => do
      match ← constant operand with
      | .null => return .null
      | .int n => return .int n
      | .real bits => return .real bits
      | inner => raise (.typeMismatch s!"unary '+' needs a number, got {inner.typeName}")
  | .unaryOp .minus operand => do
      match ← constant operand with
      | .null => return .null
      | .int n => return .int (-n)
      | .real bits => return .real (negateBits bits)
      | inner => raise (.typeMismatch s!"unary '-' needs a number, got {inner.typeName}")
  | expression => raise (.unsupportedFeature
      s!"INSERT values must be constant; {expression.typeName} is not supported yet")

/-- `_expression`, against one table. -/
def expression (table : TableSchema) : Ast.Expression → BindM BoundExpression
  | .literal value => return .literal value
  | .parameter index => .literal <$> parameter parameters index
  | .column name _ => do
      let index ← lift (table.columnIndex casefold name)
      match table.columns[index]? with
      | some column => return .column ⟨index, column.name, column.dataType, 0⟩
      | none => raise (.indexError "tuple index out of range")
  | .unaryOp operator operand => do
      let operand ← expression table operand
      return .unaryOp operator operand
  | .binaryOp left operator right => do
      let left ← expression table left
      let right ← expression table right
      return .binaryOp left operator right
  | .isNull operand negated => do
      let operand ← expression table operand
      return .isNull operand negated
  | .functionCall _ _ _ => raise (.unsupportedFeature "cannot bind a FunctionCall expression")

def condition (table : TableSchema) : Option Ast.Expression → BindM (Option BoundExpression)
  | none => return none
  | some condition => some <$> expression casefold parameters table condition

/-- The values of an INSERT, each against its column. -/
def coerced (tableName : String) : List (Ast.Expression × ColumnSchema) → BindM (List Value)
  | [] => return []
  | (value, column) :: rest => do
      let value ← constant parameters value
      let value ← lift (coerceToDeclaredType ops value column.dataType tableName column.name)
      let values ← coerced tableName rest
      return value :: values

def bindInsert (statement : Ast.Insert) : BindM BoundInsert := do
  let table ← lift (getTable statement.table)
  raiseIf (statement.values.length ≠ table.columns.length) (.columnCount
    (s!"table {table.name} has {table.columns.length} columns " ++
      s!"but {statement.values.length} values were supplied"))
  let values ← coerced ops parameters table.name (statement.values.zip table.columns)
  return ⟨table, values⟩

def bindDelete (statement : Ast.Delete) : BindM BoundDelete := do
  let table ← lift (getTable statement.table)
  let condition ← condition casefold parameters table statement.condition
  return ⟨table, condition⟩

/-- The assignments of an UPDATE. -/
def assignments (table : TableSchema) : List Ast.Assignment → BindM (List BoundAssignment)
  | [] => return []
  | assignment :: rest => do
      let index ← lift (table.columnIndex casefold assignment.column)
      let value ← expression casefold parameters table assignment.value
      let rest ← assignments table rest
      return ⟨index, value⟩ :: rest

def bindUpdate (statement : Ast.Update) : BindM BoundUpdate := do
  let table ← lift (getTable statement.table)
  let assignments ← assignments casefold parameters table statement.assignments
  let condition ← condition casefold parameters table statement.condition
  return ⟨table, assignments, condition⟩

end Bind

/-- `bind`: run the binder and `require_all_parameters_consumed`. -/
def bind {α : Type} (parameters : List Value) (m : BindM α) : Except DbError α :=
  match m [] with
  | (.error e, _) => .error e
  | (.ok bound, consumed) =>
      if consumed.length ≠ parameters.length then
        .error (.parameterCount (s!"{parameters.length} parameters were supplied but " ++
          s!"the statement uses {consumed.length}"))
      else .ok bound

end Binder

end QuillDb
