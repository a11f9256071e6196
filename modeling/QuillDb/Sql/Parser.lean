/-
  Sql/Parser.lean --- the expression parser.

  Source: `_expression`, `_prefix`, `_atom` and `_function_call` of `quilldb/sql/parser.py`.

  Precedence climbing: each recursion has the least binding power that it takes, and a
  flag of its own for the one comparison that it takes.
-/
import QuillDb.Sql.Ast
import QuillDb.Sql.Tokens
import QuillDb.Lib.Fallible

set_option autoImplicit false

namespace QuillDb

open Ast

/-! ## The tables -/

/-- `_COMPARISON_BINDING_POWER`. -/
def comparisonBindingPower : Nat := 30

/-- `_NOT_BINDING_POWER`. -/
def notBindingPower : Nat := 25

/-- `_UNARY_ARITHMETIC_BINDING_POWER`. -/
def unaryArithmeticBindingPower : Nat := 60

/-- `_BINARY_OPERATORS`. -/
def binaryOperators : TokenType → Option (Nat × BinaryOperator)
  | .or => some (10, .or)
  | .and => some (20, .and)
  | .eq => some (comparisonBindingPower, .eq)
  | .ne => some (comparisonBindingPower, .ne)
  | .lt => some (comparisonBindingPower, .lt)
  | .le => some (comparisonBindingPower, .le)
  | .gt => some (comparisonBindingPower, .gt)
  | .ge => some (comparisonBindingPower, .ge)
  | .like => some (comparisonBindingPower, .like)
  | .plus => some (40, .add)
  | .minus => some (40, .sub)
  | .star => some (50, .mul)
  | .slash => some (50, .div)
  | .percent => some (50, .mod)
  | _ => none

/-- `_UNARY_ARITHMETIC_OPERATORS`. -/
def unaryArithmeticOperators : TokenType → Option UnaryOperator
  | .plus => some .plus
  | .minus => some .minus
  | _ => none

/-! ## `Parser` -/

/-- `Parser`: the tokens from `current` on, and the parameters so far. -/
structure Parser where
  tokens : List Token
  parameterCount : Nat
  deriving DecidableEq

namespace Parser

/-- `_peek`. -/
def peek (p : Parser) : Except DbError Token :=
  match p.tokens with
  | token :: _ => .ok token
  | [] => .error (.indexError "list index out of range")

/-- `_advance`, without the token. -/
def advance (p : Parser) : Parser := { p with tokens := p.tokens.tail }

/-- The error at a token. -/
def errorAt (py : PyText) (message : String) (token : Token) : DbError :=
  .sqlSyntax s!"{message}, found {py.repr token.lexeme} at position {token.position}"

/-- `_expect`: the token and the parser behind it. -/
def expect (py : PyText) (p : Parser) (type : TokenType) (message : String) : Except DbError (Token × Parser) := do
  let token ← p.peek
  if token.type ≠ type then .error (errorAt py message token)
  else return (token, p.advance)

/-- `IS [NOT] NULL` behind its first token: whether it is negated. -/
def isNullTest (py : PyText) (p : Parser) : Except DbError (Bool × Parser) := do
  let token ← p.peek
  let negated := decide (token.type = .not)
  let (_, p) ← (if negated then p.advance else p).expect py .null "expected NULL after IS [NOT]"
  return (negated, p)

/-- The column behind `table.`. -/
def qualifiedColumn (py : PyText) (table : Token) (p : Parser) : Except DbError (Expression × Parser) := do
  let (column, p) ← p.expect py .identifier "expected a column name after '.'"
  return (.column column.lexeme (some table.lexeme), p)

section Expressions

variable (py : PyText)

def usedUp : DbError := .assertionError "the rounds are used up"

mutual

/-- `_expression`. -/
def expression : Nat → Nat → Parser → Except DbError (Expression × Parser)
  | 0, _, _ => .error usedUp
  | fuel + 1, minBindingPower, p => do
      let (left, p) ← prefixExpression fuel p
      expressionLoop fuel minBindingPower left false p

/-- The loop of `_expression`. -/
def expressionLoop : Nat → Nat → Expression → Bool → Parser → Except DbError (Expression × Parser)
  | 0, _, _, _, _ => .error usedUp
  | fuel + 1, minBindingPower, left, usedComparison, p => do
      let token ← p.peek
      if token.type = .is then
        if comparisonBindingPower < minBindingPower ∨ usedComparison then return (left, p)
        else
          let (negated, p) ← p.advance.isNullTest py
          expressionLoop fuel minBindingPower (.isNull left negated) true p
      else
        match binaryOperators token.type with
        | none => return (left, p)
        | some (bindingPower, operator) =>
            if bindingPower < minBindingPower then return (left, p)
            else if bindingPower = comparisonBindingPower ∧ usedComparison then return (left, p)
            else
              let (right, p) ← expression fuel (bindingPower + 1) p.advance
              expressionLoop fuel minBindingPower (.binaryOp left operator right)
                (usedComparison || bindingPower = comparisonBindingPower) p

/-- `_prefix`. -/
def prefixExpression : Nat → Parser → Except DbError (Expression × Parser)
  | 0, _ => .error usedUp
  | fuel + 1, p => do
      let token ← p.peek
      if token.type = .not then
        let (operand, p) ← expression fuel notBindingPower p.advance
        return (.unaryOp .not operand, p)
      else
        match unaryArithmeticOperators token.type with
        | some operator =>
            let (operand, p) ← expression fuel unaryArithmeticBindingPower p.advance
            return (.unaryOp operator operand, p)
        | none => atom fuel p

/-- `_atom`. -/
def atom : Nat → Parser → Except DbError (Expression × Parser)
  | 0, _ => .error usedUp
  | fuel + 1, p => do
      let token ← p.peek
      match token.type with
      | .integer | .real | .string => return (.literal (token.value.getD .null), p.advance)
      | .null => return (.literal .null, p.advance)
      | .identifier =>
          let next ← p.advance.peek
          if next.type = .leftParen then functionCall fuel token.lexeme p.advance.advance
          else if next.type = .dot then p.advance.advance.qualifiedColumn py token
          else return (.column token.lexeme none, p.advance)
      | .parameter =>
          return (.parameter p.parameterCount, { p.advance with parameterCount := p.parameterCount + 1 })
      | .leftParen =>
          let (operand, p) ← expression fuel 0 p.advance
          let (_, p) ← p.expect py .rightParen "expected ')' to close a parenthesized expression"
          return (operand, p)
      | _ => .error (errorAt py "expected an expression" token)

/-- `_function_call`, behind the left parenthesis. -/
def functionCall : Nat → String → Parser → Except DbError (Expression × Parser)
  | 0, _, _ => .error usedUp
  | fuel + 1, name, p => do
      let token ← p.peek
      if token.type = .star then
        let (_, p) ← p.advance.expect py .rightParen "expected ')' after '*'"
        return (.functionCall name [] true, p)
      else
        let (args, p) ← arguments fuel p
        let (_, p) ← p.expect py .rightParen "expected ')' to close a function call"
        return (.functionCall name args false, p)

/-- The loop over the arguments of `_function_call`. -/
def arguments : Nat → Parser → Except DbError (List Expression × Parser)
  | 0, _ => .error usedUp
  | fuel + 1, p => do
      let (argument, p) ← expression fuel 0 p
      let token ← p.peek
      if token.type = .comma then
        let (args, p) ← arguments fuel p.advance
        return (argument :: args, p)
      else return ([argument], p)

end

end Expressions

end Parser

end QuillDb
