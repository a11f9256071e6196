/-
  Sql/Bound.lean --- bound expressions and the schema they are bound against.

  Source: the bound nodes of `quilldb/sql/binder.py`, `DataType` of
  `quilldb/sql/ast.py`, `quilldb/catalog/schema.py`.

  The operators are those of the parser's tables.  `casefold` is Python's
  `str.casefold`; nothing here depends on what it does.
-/
import QuillDb.Codec.Record

set_option autoImplicit false

namespace QuillDb

/-! ## Schema -/

/-- `DataType`. -/
inductive DataType where
  | integer
  | real
  | text
  | blob
  deriving DecidableEq, Repr

structure ColumnSchema where
  name : String
  dataType : DataType
  deriving DecidableEq, Repr

structure TableSchema where
  name : String
  columns : List ColumnSchema
  rootPage : Nat
  sql : String
  deriving DecidableEq, Repr

structure IndexSchema where
  name : String
  table : String
  columns : List String
  unique : Bool
  rootPage : Nat
  sql : String
  deriving DecidableEq, Repr

/-- `TableSchema.column_index`: the first column of that name, case-insensitively. -/
def TableSchema.columnIndex (casefold : String → String) (table : TableSchema) (name : String) :
    Except DbError Nat :=
  match table.columns.findIdx? fun column => casefold column.name = casefold name with
  | some index => .ok index
  | none => .error (.columnNotFound s!"no such column: {name} in table {table.name}")

/-- `column_index` finds a column that is there. -/
theorem TableSchema.columnIndex_lt {casefold : String → String} {table : TableSchema} {name : String}
    {index : Nat} (h : table.columnIndex casefold name = .ok index) : index < table.columns.length := by
  unfold columnIndex at h
  split at h
  · rename_i i hfind
    obtain rfl := Except.ok.inj h
    exact (List.findIdx?_eq_some_iff_getElem.mp hfind).1
  · cases h

/-! ## Expressions -/

/-- `BoundUnaryOp.operator`. -/
inductive UnaryOperator where
  | not
  | plus
  | minus
  deriving DecidableEq, Repr

/-- `BoundBinaryOp.operator`. -/
inductive BinaryOperator where
  | and
  | or
  | eq
  | ne
  | lt
  | le
  | gt
  | ge
  | like
  | add
  | sub
  | mul
  | div
  | mod
  deriving DecidableEq, Repr

/-- `BoundColumn`. -/
structure BoundColumn where
  index : Nat
  name : String
  dataType : DataType
  tableOrdinal : Nat
  deriving DecidableEq, Repr

/-- `BoundExpression`: `BoundLiteral`, `BoundColumn`, `BoundUnaryOp`, `BoundBinaryOp` and
`BoundIsNull`. -/
inductive BoundExpression where
  | literal (value : Value)
  | column (column : BoundColumn)
  | unaryOp (operator : UnaryOperator) (operand : BoundExpression)
  | binaryOp (left : BoundExpression) (operator : BinaryOperator) (right : BoundExpression)
  | isNull (operand : BoundExpression) (negated : Bool)
  deriving DecidableEq

end QuillDb
