/-
  Exec/Expressions.lean --- the value of an expression on a row.

  Source: `quilldb/exec/expressions.py`.

  What a float operation returns is left to the platform: `FloatOps` stands for it.
  Comparisons need no float arithmetic.
-/
import QuillDb.Sql.Bound
import QuillDb.BTree.Key

set_option autoImplicit false

namespace QuillDb

/-- The float arithmetic of the platform, on 64 bits.  A result is missing where Python raises:
for an integer too large for a float, or a float that is no integer's neighbour. -/
structure FloatOps where
  add : BitVec 64 → BitVec 64 → BitVec 64
  sub : BitVec 64 → BitVec 64 → BitVec 64
  mul : BitVec 64 → BitVec 64 → BitVec 64
  div : BitVec 64 → BitVec 64 → BitVec 64
  /-- `float(n)` -/
  ofInt : Int → Option (BitVec 64)
  /-- `int(x)` -/
  trunc : BitVec 64 → Option Int
  /-- `n / m` of two integers -/
  intDiv : Int → Int → Option (BitVec 64)

/-- Float arithmetic for runs that do none. -/
def noFloats : FloatOps where
  add a _ := a
  sub a _ := a
  mul a _ := a
  div a _ := a
  ofInt _ := none
  trunc _ := none
  intDiv _ _ := none

/-- `type(value).__name__`. -/
def Value.typeName : Value → String
  | .null => "NoneType"
  | .int _ => "int"
  | .real _ => "float"
  | .text _ => "str"
  | .blob _ => "bytes"

/-- `_MIN_INT64` and `_MAX_INT64`. -/
def minInt64 : Int := -2 ^ 63
def maxInt64 : Int := 2 ^ 63 - 1

def fitsInt64 (n : Int) : Bool := minInt64 ≤ n && n ≤ maxInt64

/-! ## Truth -/

/-- `value != 0` of a number. -/
def Value.nonzero (value : Value) : Bool := !value.pyEq (.int 0)

/-- `_truth`. -/
def truth : Value → Option Bool
  | .null => none
  | .int n => some (Value.int n).nonzero
  | .real bits => some (Value.real bits).nonzero
  | _ => some false

/-- `where_passes`. -/
def wherePasses (value : Value) : Bool := truth value = some true

/-- `int(flag)`. -/
def ofBool (flag : Bool) : Value := .int (if flag then 1 else 0)

/-! ## LIKE -/

/-- `_like_chars_equal`. -/
def likeCharsEqual (a b : Char) : Bool :=
  a = b || (a.toNat < 128 && b.toNat < 128 && a.toLower = b.toLower)

/-- The row of the table before any character: `matched[j]` for the first `j` characters of
the pattern, after the entry `matched`. -/
def likeStart (matched : Bool) : List Char → List Bool
  | [] => [matched]
  | p :: pattern => matched :: likeStart (matched && p = '%') pattern

/-- The next row, from the entries of the row before it. -/
def likeNext (valueChar : Char) (next : Bool) : List Char → List Bool → List Bool
  | p :: pattern, matched :: rest =>
      next :: likeNext valueChar
        (if p = '%' then next || rest.head?.getD false
          else if p = '_' then matched
          else matched && likeCharsEqual p valueChar) pattern rest
  | _, _ => [next]

/-- `sql_like`. -/
def sqlLike (value pattern : String) : Bool :=
  (value.toList.foldl (fun matched c => likeNext c false pattern.toList matched)
    (likeStart true pattern.toList)).getLast?.getD false

/-! ## Comparisons -/

/-- `_apply_ordering`. -/
def applyOrdering (operator : BinaryOperator) (a b : Value) : Except DbError Bool :=
  match operator with
  | .eq => .ok (a.pyEq b)
  | .ne => .ok (!a.pyEq b)
  | .lt => .ok (a.pyLt b)
  | .le => .ok (a.pyLt b || a.pyEq b)
  | .gt => .ok (b.pyLt a)
  | .ge => .ok (b.pyLt a || a.pyEq b)
  | _ => .error (.unsupportedFeature "unknown comparison operator")

/-- `_compare`, of values that are not NULL. -/
def compareValues (operator : BinaryOperator) (left right : Value) : Except DbError Bool :=
  if left.rank ≠ right.rank then applyOrdering operator (.int left.rank) (.int right.rank)
  else applyOrdering operator left right

/-! ## Arithmetic -/

section Arithmetic

variable (ops : FloatOps)

/-- `_require_number`. -/
def requireNumber (value : Value) (context : String) : Except DbError Value :=
  match value with
  | .int _ => .ok value
  | .real _ => .ok value
  | _ => .error (.typeMismatch s!"{context} needs a number, got {value.typeName}")

/-- `float(n)`. -/
def floatOfInt (n : Int) : Except DbError (BitVec 64) :=
  match ops.ofInt n with
  | some bits => .ok bits
  | none => .error (.overflowError "int too large to convert to float")

/-- `float(value)` of a number. -/
def toFloat : Value → Except DbError (BitVec 64)
  | .int n => floatOfInt ops n
  | .real bits => .ok bits
  | _ => .error (.typeMismatch "float() needs a number")

/-- `int(value)` of a number. -/
def toInt : Value → Except DbError Int
  | .int n => .ok n
  | .real bits =>
      match ops.trunc bits with
      | some n => .ok n
      | none =>
          if realNumber bits = .nan then .error (.valueError "cannot convert float NaN to integer")
          else .error (.overflowError "cannot convert float infinity to integer")
  | _ => .error (.typeMismatch "int() needs a number")

/-- `_fit_int64`. -/
def fitInt64 : Value → Except DbError Value
  | .int n => if fitsInt64 n then .ok (.int n) else .real <$> floatOfInt ops n
  | value => .ok value

/-- Python's arithmetic of two numbers: exact on integers, else in floats. -/
def pyArith (intOp : Int → Int → Int) (floatOp : BitVec 64 → BitVec 64 → BitVec 64) :
    Value → Value → Except DbError Value
  | .int a, .int b => .ok (.int (intOp a b))
  | a, b => do
      let x ← toFloat ops a
      let y ← toFloat ops b
      .ok (.real (floatOp x y))

/-- Python's `+` of two numbers. -/
def pyAdd : Value → Value → Except DbError Value := pyArith ops (· + ·) ops.add

/-- `_divide`. -/
def divide (a b : Value) : Except DbError Value :=
  if b.pyEq (.int 0) then .ok .null
  else
    match a, b with
    | .int m, .int n =>
        let magnitude : Int := m.natAbs / n.natAbs
        fitInt64 ops (.int (if (m < 0) ≠ (n < 0) then -magnitude else magnitude))
    | a, b => do
        let x ← toFloat ops a
        let y ← toFloat ops b
        .ok (.real (ops.div x y))

/-- `_modulo`. -/
def modulo (a b : Value) : Except DbError Value := do
  let m ← toInt ops a
  let n ← toInt ops b
  if n = 0 then .ok .null
  else
    let magnitude : Int := (m.natAbs % n.natAbs : Nat)
    let remainder := if m < 0 then -magnitude else magnitude
    match a, b with
    | .int _, .int _ => .ok (.int remainder)
    | _, _ => .real <$> floatOfInt ops remainder

/-- The sign of the operator in an error. -/
def BinaryOperator.symbol : BinaryOperator → String
  | .and => "AND"
  | .or => "OR"
  | .eq => "="
  | .ne => "!="
  | .lt => "<"
  | .le => "<="
  | .gt => ">"
  | .ge => ">="
  | .like => "LIKE"
  | .add => "+"
  | .sub => "-"
  | .mul => "*"
  | .div => "/"
  | .mod => "%"

/-- `_arithmetic`. -/
def arithmetic (operator : BinaryOperator) (left right : Value) : Except DbError Value := do
  let a ← requireNumber left s!"operator '{operator.symbol}'"
  let b ← requireNumber right s!"operator '{operator.symbol}'"
  match operator with
  | .add => pyAdd ops a b >>= fitInt64 ops
  | .sub => pyArith ops (· - ·) ops.sub a b >>= fitInt64 ops
  | .mul => pyArith ops (· * ·) ops.mul a b >>= fitInt64 ops
  | .div => divide ops a b
  | _ => modulo ops a b

/-- `-x`: the sign bit flips. -/
def negateBits (bits : BitVec 64) : BitVec 64 := bits ^^^ (1 <<< 63)

/-- `_unary`, of the operand's value. -/
def unary (operator : UnaryOperator) (operand : Value) : Except DbError Value :=
  match operator with
  | .not => .ok (match truth operand with | none => .null | some flag => ofBool !flag)
  | .plus => if operand = .null then .ok .null else requireNumber operand "unary '+'"
  | .minus =>
      if operand = .null then .ok .null
      else do
        match ← requireNumber operand "unary '-'" with
        | .int n => fitInt64 ops (.int (-n))
        | .real bits => .ok (.real (negateBits bits))
        | _ => .error (.typeMismatch "unary '-' needs a number")

/-- `_binary`, of the values of its operands, except for AND and OR. -/
def binary (operator : BinaryOperator) (left right : Value) : Except DbError Value :=
  if left = .null ∨ right = .null then .ok .null
  else
    match operator with
    | .like =>
        match left, right with
        | .text value, .text pattern => .ok (ofBool (sqlLike value pattern))
        | _, _ => .error (.typeMismatch "LIKE needs text on both sides")
    | .eq | .ne | .lt | .le | .gt | .ge => ofBool <$> compareValues operator left right
    | .add | .sub | .mul | .div | .mod => arithmetic ops operator left right
    | _ => .error (.unsupportedFeature "unknown binary operator")

/-- `evaluate`. -/
def evaluate (row : List Value) : BoundExpression → Except DbError Value
  | .literal value => .ok value
  | .column c =>
      match row[c.index]? with
      | some value => .ok value
      | none => .error (.columnNotFound
          s!"column {c.name} is at index {c.index} but the row has only {row.length} values")
  | .isNull operand negated => do
      let value ← evaluate row operand
      .ok (ofBool ((value = .null) != negated))
  | .unaryOp operator operand => do
      let value ← evaluate row operand
      unary ops operator value
  -- AND and OR stop at a left operand that decides
  | .binaryOp left .and right => do
      let l := truth (← evaluate row left)
      if l = some false then .ok (.int 0)
      else
        let r := truth (← evaluate row right)
        if r = some false then .ok (.int 0)
        else .ok (if l = none ∨ r = none then .null else .int 1)
  | .binaryOp left .or right => do
      let l := truth (← evaluate row left)
      if l = some true then .ok (.int 1)
      else
        let r := truth (← evaluate row right)
        if r = some true then .ok (.int 1)
        else .ok (if l = none ∨ r = none then .null else .int 0)
  | .binaryOp left operator right => do
      let l ← evaluate row left
      let r ← evaluate row right
      binary ops operator l r

end Arithmetic

end QuillDb
