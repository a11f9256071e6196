/-
  Sql/Ast.lean --- the syntax tree of the statements that write.

  Source: `quilldb/sql/ast.py`.

  A name is still a string here; finding its column is the binder's job.
-/
import QuillDb.Sql.Bound

set_option autoImplicit false

namespace QuillDb

namespace Ast

structure ColumnDef where
  name : String
  dataType : DataType
  deriving DecidableEq, Repr

/-- `Expression`. -/
inductive Expression where
  | literal (value : Value)
  | column (name : String) (table : Option String)
  | parameter (index : Nat)
  | unaryOp (operator : UnaryOperator) (operand : Expression)
  | binaryOp (left : Expression) (operator : BinaryOperator) (right : Expression)
  | isNull (operand : Expression) (negated : Bool)
  | functionCall (name : String) (args : List Expression) (star : Bool)

/-- `type(expression).__name__`. -/
def Expression.typeName : Expression → String
  | .literal _ => "Literal"
  | .column _ _ => "Column"
  | .parameter _ => "Parameter"
  | .unaryOp _ _ => "UnaryOp"
  | .binaryOp _ _ _ => "BinaryOp"
  | .isNull _ _ => "IsNull"
  | .functionCall _ _ _ => "FunctionCall"

structure CreateTable where
  name : String
  columns : List ColumnDef
  deriving DecidableEq

structure CreateIndex where
  name : String
  table : String
  columns : List String
  unique : Bool
  deriving DecidableEq

structure Insert where
  table : String
  values : List Expression

structure Delete where
  table : String
  condition : Option Expression

structure Assignment where
  column : String
  value : Expression

structure Update where
  table : String
  assignments : List Assignment
  condition : Option Expression

/-- `Statement`: those that write, and `other` for SELECT, EXPLAIN, BEGIN, COMMIT and
ROLLBACK. -/
inductive Statement where
  | createTable (statement : CreateTable)
  | createIndex (statement : CreateIndex)
  | insert (statement : Insert)
  | delete (statement : Delete)
  | update (statement : Update)
  | analyze (target : Option String)
  | other

end Ast

end QuillDb
