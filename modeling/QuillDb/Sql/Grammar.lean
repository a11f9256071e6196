/-
  Sql/Grammar.lean --- the grammar of expressions, and what precedence climbing reads.

  Source: the precedences above `_BINARY_OPERATORS` in `quilldb/sql/parser.py`.

  A phrase is an expression with all of its tokens.  `Derives` is the documented
  grammar, tier by tier; `Reads` says which phrases the binding powers and the flag for
  one comparison let through.
-/
import QuillDb.Sql.Parser

set_option autoImplicit false

namespace QuillDb

open Ast

/-! ## Tiers -/

/-- The tiers of the grammar, from loose to tight. -/
inductive Tier where
  | or | and | not | comparison | sum | product | sign | atom
  deriving DecidableEq, Repr

namespace Tier

/-- The documented precedence. -/
def power : Tier → Nat
  | or => 10
  | and => 20
  | not => 25
  | comparison => 30
  | sum => 40
  | product => 50
  | sign => 60
  | atom => 70

def next : Tier → Tier
  | or => and
  | and => not
  | not => comparison
  | comparison => sum
  | sum => product
  | product => sign
  | sign => atom
  | atom => atom

end Tier

namespace BinaryOperator

/-- The token that stands for an operator. -/
def token : BinaryOperator → TokenType
  | or => .or
  | and => .and
  | eq => .eq
  | ne => .ne
  | lt => .lt
  | le => .le
  | gt => .gt
  | ge => .ge
  | like => .like
  | add => .plus
  | sub => .minus
  | mul => .star
  | div => .slash
  | mod => .percent

def tier : BinaryOperator → Tier
  | or => .or
  | and => .and
  | eq | ne | lt | le | gt | ge | like => .comparison
  | add | sub => .sum
  | mul | div | mod => .product

/-- The tier of the left operand: comparisons do not chain, the others associate to the left. -/
def leftTier (operator : BinaryOperator) : Tier :=
  if operator.tier = .comparison then .sum else operator.tier

end BinaryOperator

/-! ## Phrases -/

/-- An operand without operands of its own. -/
inductive Atom where
  | literal (token : Token)
  | null (token : Token)
  | column (name : Token)
  | qualified (table dot name : Token)
  | parameter (token : Token)
  | star (name left asterisk right : Token)

namespace Atom

def tokens : Atom → List Token
  | literal token => [token]
  | null token => [token]
  | column name => [name]
  | qualified table dot name => [table, dot, name]
  | parameter token => [token]
  | star name left asterisk right => [name, left, asterisk, right]

def params : Atom → Nat
  | parameter _ => 1
  | _ => 0

/-- What it stands for, with `n` parameters before it. -/
def tree (n : Nat) : Atom → Expression
  | literal token => .literal (token.value.getD .null)
  | null _ => .literal .null
  | column name => .column name.lexeme none
  | qualified table _ name => .column name.lexeme (some table.lexeme)
  | parameter _ => .parameter n
  | star name _ _ _ => .functionCall name.lexeme [] true

/-- Its tokens are what they have to be. -/
def Fits : Atom → Prop
  | literal token => token.type = .integer ∨ token.type = .real ∨ token.type = .string
  | null token => token.type = .null
  | column name => name.type = .identifier
  | qualified table dot name => table.type = .identifier ∧ dot.type = .dot ∧ name.type = .identifier
  | parameter token => token.type = .parameter
  | star name left asterisk right =>
      name.type = .identifier ∧ left.type = .leftParen ∧ asterisk.type = .star ∧ right.type = .rightParen

/-- No longer operand starts with the same token. -/
def Ends (next : TokenType) : Atom → Prop
  | column _ => next ≠ .leftParen ∧ next ≠ .dot
  | _ => True

end Atom

/-- Expressions and argument lists. -/
inductive Kind where
  | expression | arguments

/-- What a phrase stands for. -/
abbrev Kind.Tree : Kind → Type
  | expression => Expression
  | arguments => List Expression

/-- A phrase. -/
inductive Phrase : Kind → Type where
  | atom (a : Atom) : Phrase .expression
  | paren (left : Token) (inner : Phrase .expression) (right : Token) : Phrase .expression
  | call (name left : Token) (args : Phrase .arguments) (right : Token) : Phrase .expression
  | not (token : Token) (operand : Phrase .expression) : Phrase .expression
  | sign (token : Token) (operator : UnaryOperator) (operand : Phrase .expression) : Phrase .expression
  | binary (left : Phrase .expression) (token : Token) (operator : BinaryOperator)
      (right : Phrase .expression) : Phrase .expression
  | isNull (operand : Phrase .expression) (is_ : Token) (negation : Option Token) (null : Token) :
      Phrase .expression
  | one (argument : Phrase .expression) : Phrase .arguments
  | more (argument : Phrase .expression) (comma : Token) (args : Phrase .arguments) : Phrase .arguments

namespace Phrase

def tokens : {k : Kind} → Phrase k → List Token
  | _, atom a => a.tokens
  | _, paren left inner right => left :: (inner.tokens ++ [right])
  | _, call name left args right => name :: left :: (args.tokens ++ [right])
  | _, not token operand => token :: operand.tokens
  | _, sign token _ operand => token :: operand.tokens
  | _, binary left token _ right => left.tokens ++ token :: right.tokens
  | _, isNull operand is_ negation null => operand.tokens ++ is_ :: (negation.toList ++ [null])
  | _, one argument => argument.tokens
  | _, more argument comma args => argument.tokens ++ comma :: args.tokens

/-- How many parameters it has. -/
def params : {k : Kind} → Phrase k → Nat
  | _, atom a => a.params
  | _, paren _ inner _ => inner.params
  | _, call _ _ args _ => args.params
  | _, not _ operand => operand.params
  | _, sign _ _ operand => operand.params
  | _, binary left _ _ right => left.params + right.params
  | _, isNull operand _ _ _ => operand.params
  | _, one argument => argument.params
  | _, more argument _ args => argument.params + args.params

/-- What it stands for, with `n` parameters before it. -/
def tree : {k : Kind} → Nat → Phrase k → k.Tree
  | _, n, atom a => a.tree n
  | _, n, paren _ inner _ => inner.tree n
  | _, n, call name _ args _ => .functionCall name.lexeme (args.tree n) false
  | _, n, not _ operand => .unaryOp .not (operand.tree n)
  | _, n, sign _ operator operand => .unaryOp operator (operand.tree n)
  | _, n, binary left _ operator right =>
      .binaryOp (left.tree n) operator (right.tree (n + left.params))
  | _, n, isNull operand _ negation _ => .isNull (operand.tree n) negation.isSome
  | _, n, one argument => [argument.tree n]
  | _, n, more argument _ args => argument.tree n :: args.tree (n + argument.params)

/-- The tier of its outermost operator. -/
def tier : {k : Kind} → Phrase k → Tier
  | _, not _ _ => .not
  | _, sign _ _ _ => .sign
  | _, binary _ _ operator _ => operator.tier
  | _, isNull _ _ _ _ => .comparison
  | _, one _ => .or
  | _, more _ _ _ => .or
  | _, _ => .atom

end Phrase

/-! ## The documented grammar -/

/-- The phrases of a tier. -/
inductive Derives : Tier → {k : Kind} → Phrase k → Prop
  | looser {tight loose : Tier} {c : Phrase .expression} (h : Derives tight c)
      (hle : loose.power ≤ tight.power) : Derives loose c
  | atom {a : Atom} (h : a.Fits) : Derives .atom (.atom a)
  | paren {left right : Token} {inner : Phrase .expression} (hleft : left.type = .leftParen)
      (h : Derives .or inner) (hright : right.type = .rightParen) : Derives .atom (.paren left inner right)
  | call {name left right : Token} {args : Phrase .arguments} (hname : name.type = .identifier)
      (hleft : left.type = .leftParen) (h : Derives .or args) (hright : right.type = .rightParen) :
      Derives .atom (.call name left args right)
  | plus {token : Token} {operand : Phrase .expression} (htoken : token.type = .plus)
      (h : Derives .sign operand) : Derives .sign (.sign token .plus operand)
  | minus {token : Token} {operand : Phrase .expression} (htoken : token.type = .minus)
      (h : Derives .sign operand) : Derives .sign (.sign token .minus operand)
  | binary {token : Token} {operator : BinaryOperator} {left right : Phrase .expression}
      (htoken : token.type = operator.token) (hleft : Derives operator.leftTier left)
      (hright : Derives operator.tier.next right) : Derives operator.tier (.binary left token operator right)
  | isNull {operand : Phrase .expression} {is_ null : Token} {negation : Option Token}
      (h : Derives .sum operand) (his : is_.type = .is) (hnegation : ∀ t ∈ negation, t.type = .not)
      (hnull : null.type = .null) : Derives .comparison (.isNull operand is_ negation null)
  | not {token : Token} {operand : Phrase .expression} (htoken : token.type = .not)
      (h : Derives .not operand) : Derives .not (.not token operand)
  | one {argument : Phrase .expression} (h : Derives .or argument) : Derives .or (.one argument)
  | more {argument : Phrase .expression} {comma : Token} {args : Phrase .arguments}
      (h : Derives .or argument) (hcomma : comma.type = .comma) (hargs : Derives .or args) :
      Derives .or (.more argument comma args)

/-! ## Precedence climbing -/

/-- The binding power of a token behind an operand. -/
def bindingPower : TokenType → Option Nat
  | .is => some comparisonBindingPower
  | type => (binaryOperators type).map Prod.fst

/-- A recursion that has read an operand takes nothing more: the next operator binds too
loosely, or it is a second comparison. -/
def Stops (minBindingPower : Nat) (usedComparison : Bool) (next : TokenType) : Prop :=
  ∀ power, bindingPower next = some power →
    power < minBindingPower ∨ power = comparisonBindingPower ∧ usedComparison = true

namespace Phrase

/-- A comparison is among the operators that a recursion has applied. -/
def usedComparison : {k : Kind} → Phrase k → Bool
  | _, binary left _ operator _ => left.usedComparison || operator.tier = .comparison
  | _, isNull _ _ _ _ => true
  | _, _ => false

/-- A recursion with this binding power applies the operators of the phrase, one after the
other, and each operand reaches as far as it can; `next` is the token behind. -/
def Reads : {k : Kind} → Nat → Phrase k → TokenType → Prop
  | _, _, atom a, next => a.Fits ∧ a.Ends next
  | _, _, paren left inner right, _ =>
      left.type = .leftParen ∧ (inner.Reads 0 right.type ∧ Stops 0 inner.usedComparison right.type) ∧
        right.type = .rightParen
  | _, _, call name left args right, _ =>
      name.type = .identifier ∧ left.type = .leftParen ∧ args.Reads 0 right.type ∧ right.type = .rightParen
  | _, _, not token operand, next =>
      token.type = .not ∧ operand.Reads notBindingPower next ∧
        Stops notBindingPower operand.usedComparison next
  | _, _, sign token operator operand, next =>
      unaryArithmeticOperators token.type = some operator ∧
        operand.Reads unaryArithmeticBindingPower next ∧
        Stops unaryArithmeticBindingPower operand.usedComparison next
  | _, m, binary left token operator right, next =>
      ∃ power, binaryOperators token.type = some (power, operator) ∧ m ≤ power ∧
        ¬ (power = comparisonBindingPower ∧ left.usedComparison = true) ∧ left.Reads m token.type ∧
        right.Reads (power + 1) next ∧ Stops (power + 1) right.usedComparison next
  | _, m, isNull operand is_ negation null, _ =>
      is_.type = .is ∧ m ≤ comparisonBindingPower ∧ operand.usedComparison = false ∧
        operand.Reads m is_.type ∧ (∀ t ∈ negation, t.type = .not) ∧ null.type = .null
  | _, _, one argument, next =>
      (argument.Reads 0 next ∧ Stops 0 argument.usedComparison next) ∧ next ≠ .comma
  | _, _, more argument comma args, next =>
      (argument.Reads 0 comma.type ∧ Stops 0 argument.usedComparison comma.type) ∧
        comma.type = .comma ∧ args.Reads 0 next

/-- The tokens, with nothing behind them, can be read as this phrase. -/
def Reading (ts : List Token) (c : Phrase .expression) : Prop := c.tokens = ts ∧ c.Reads 0 .eof

/-! ## Misplaced operators -/

def IsNegation : {k : Kind} → Phrase k → Prop
  | _, not _ _ => True
  | _, _ => False

def IsNullTest : {k : Kind} → Phrase k → Prop
  | _, isNull _ _ _ _ => True
  | _, _ => False

/-- NOT, AND or OR, without parentheses around it. -/
def IsLogical : {k : Kind} → Phrase k → Prop
  | _, not _ _ => True
  | _, binary _ _ operator _ => operator = .and ∨ operator = .or
  | _, _ => False

/-- No NOT behind a comparison, an arithmetic operator or a sign, no arithmetic behind `IS NULL`,
and no comparison, IS or LIKE behind NOT, AND or OR with all their operands. -/
def Placed : {k : Kind} → Phrase k → Prop
  | _, atom _ => True
  | _, paren _ inner _ => inner.Placed
  | _, call _ _ args _ => args.Placed
  | _, not _ operand => operand.Placed
  | _, sign _ _ operand => operand.Placed ∧ ¬ operand.IsNegation
  | _, binary left _ operator right =>
      left.Placed ∧ right.Placed ∧ (Tier.comparison.power ≤ operator.tier.power → ¬ right.IsNegation) ∧
        (Tier.comparison.power < operator.tier.power → ¬ left.IsNullTest) ∧
        (operator.tier = .comparison → ¬ left.IsLogical)
  | _, isNull operand _ _ _ => operand.Placed ∧ ¬ operand.IsLogical
  | _, one argument => argument.Placed
  | _, more argument _ args => argument.Placed ∧ args.Placed

end Phrase

end QuillDb
