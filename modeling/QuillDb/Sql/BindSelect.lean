/-
  Sql/BindSelect.lean --- a SELECT from one table, bound.

  Source: `OrderKey` and `Select` of `quilldb/sql/ast.py`; `bind_select`, `_bind_order_by`,
  `_resolve_order_by_key`, `_bind_limit` and `_bind_offset` of `quilldb/sql/binder.py`.

  Joins, GROUP BY and aggregates are bound by other methods.  The columns of a bound
  expression are columns of its table, under their names.
-/
import QuillDb.Exec.Operators
import QuillDb.Sql.Binder

set_option autoImplicit false

namespace QuillDb

open Prog

namespace Ast

structure OrderKey where
  expression : Expression
  descending : Bool

/-- A `Select` without joins, GROUP BY and HAVING; `SELECT *` has no expressions. -/
structure Select where
  expressions : Option (List Expression)
  table : TableRef
  condition : Option Expression
  distinct : Bool
  orderBy : List OrderKey
  limit : Option Expression
  offset : Option Expression

end Ast

namespace Binder

/-! ## The source -/

section Bind

variable (casefold : String → String) (getTable : String → Except DbError TableSchema) (parameters : List Value)

/-- The columns of `SELECT *`. -/
def allColumns (table : TableSchema) : List BoundExpression :=
  table.columns.zipIdx.map fun p => .column ⟨p.2, p.1.name, p.1.dataType, 0⟩

/-- The select list. -/
def expressions (table : TableSchema) : List Ast.Expression → BindM (List BoundExpression)
  | [] => return []
  | e :: rest => do
      let bound ← expression casefold parameters table e
      let rest ← expressions table rest
      return bound :: rest

/-- `_resolve_order_by_key`: the key, and the hidden columns behind it. -/
def resolveOrderByKey (table : TableSchema) (produced hidden : List BoundExpression) (item : Ast.OrderKey) :
    BindM (BoundOrderKey × List BoundExpression) :=
  match item.expression with
  | .literal (.int ordinal) => do
      raiseIf (ordinal < 1 ∨ ordinal > produced.length) (.columnNotFound
        s!"ORDER BY position {ordinal} is out of range")
      return (⟨(ordinal - 1).toNat, item.descending⟩, hidden)
  | e => do
      let bound ← expression casefold parameters table e
      match produced.findIdx? fun expression => expression.pyEq bound with
      | some i => return (⟨i, item.descending⟩, hidden)
      | none => return (⟨produced.length + hidden.length, item.descending⟩, hidden ++ [bound])

/-- `_bind_order_by`. -/
def bindOrderBy (table : TableSchema) (produced : List BoundExpression) :
    List BoundExpression → List Ast.OrderKey → BindM (List BoundOrderKey × List BoundExpression)
  | hidden, [] => return ([], hidden)
  | hidden, item :: items => do
      let (key, hidden) ← resolveOrderByKey casefold parameters table produced hidden item
      let (keys, hidden) ← bindOrderBy table produced hidden items
      return (key :: keys, hidden)

/-- What LIMIT and OFFSET count. -/
def count (clause : String) (e : Ast.Expression) : BindM Nat := do
  match ← constant parameters e with
  | .int n => do
      raiseIf (n < 0) (.typeMismatch s!"{clause} must be a non-negative integer")
      return n.toNat
  | _ => raise (.typeMismatch s!"{clause} must be a non-negative integer")

/-- `_bind_limit`. -/
def bindLimit : Option Ast.Expression → BindM (Option Nat)
  | none => return none
  | some e => some <$> count parameters "LIMIT" e

/-- `_bind_offset`. -/
def bindOffset : Option Ast.Expression → BindM Nat
  | none => return 0
  | some e => count parameters "OFFSET" e

/-- The select list of a statement. -/
def selectList (table : TableSchema) : Option (List Ast.Expression) → BindM (List BoundExpression)
  | none => return allColumns table
  | some list => expressions casefold parameters table list

def bindSelect (statement : Ast.Select) : BindM BoundSelect := do
  let table ← lift (getTable statement.table.name)
  let produced ← selectList casefold parameters table statement.expressions
  let where_ ← condition casefold parameters table statement.condition
  let (orderBy, hidden) ← bindOrderBy casefold parameters table produced [] statement.orderBy
  raiseIf (statement.distinct ∧ hidden ≠ []) (.unsupportedFeature
    "DISTINCT combined with an ORDER BY expression outside the select list is not supported yet")
  let limit ← bindLimit parameters statement.limit
  let offset ← bindOffset parameters statement.offset
  return ⟨table, produced, where_, statement.distinct, orderBy, hidden, limit, offset⟩

end Bind

end Binder

end QuillDb
