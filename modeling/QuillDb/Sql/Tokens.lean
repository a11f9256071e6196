/-
  Sql/Tokens.lean --- tokens, and the strings they are read from.

  Source: `quilldb/sql/tokens.py`, and Python's `str` methods.

  Which characters are letters or digits is for the Unicode database of the
  interpreter to say; it is pinned down on ASCII alone.
-/
import QuillDb.Codec.Record

set_option autoImplicit false

namespace QuillDb

/-! ## Characters -/

/-- `Numeric_Type`, with the value of a decimal digit. -/
inductive NumericType where
  | none
  | decimal (value : Nat)
  | digit
  | numeric
  deriving DecidableEq, Repr

/-- What Python brings along: the Unicode character database of its version, and the float
nearest to a decimal literal. -/
structure PyText where
  /-- a character of a category of letters -/
  isLetter : Char → Bool
  numericType : Char → NumericType
  casefold : String → String
  repr : String → String
  /-- `float` of a literal in ASCII digits -/
  float : String → BitVec 64
  letter_ascii : ∀ c, c.toNat < 128 → isLetter c = c.isAlpha
  numeric_ascii : ∀ c, c.toNat < 128 →
    numericType c = if c.isDigit then .decimal (c.toNat - 48) else .none
  letter_numeric : ∀ c, isLetter c = true → numericType c = .none ∨ numericType c = .numeric

namespace PyText

variable (py : PyText)

/-- `c.isdecimal()`. -/
def isdecimal (c : Char) : Bool :=
  match py.numericType c with
  | .decimal _ => true
  | _ => false

/-- `c.isdigit()`. -/
def isdigit (c : Char) : Bool :=
  match py.numericType c with
  | .decimal _ => true
  | .digit => true
  | _ => false

/-- `c.isalpha()`. -/
def isalpha (c : Char) : Bool := py.isLetter c

/-- `c.isalnum()`. -/
def isalnum (c : Char) : Bool := py.isLetter c || py.numericType c ≠ .none

/-- The value of a decimal digit. -/
def digitValue (c : Char) : Nat :=
  match py.numericType c with
  | .decimal value => value
  | _ => 0

/-- The digits that `int()` converts at most, unless told otherwise. -/
def intMaxStrDigits : Nat := 4300

/-- `int(lexeme)`, of digits. -/
def int (lexeme : List Char) : Except DbError Int :=
  if ¬ lexeme.all py.isdecimal then .error (.valueError "invalid literal for int() with base 10")
  else if intMaxStrDigits < lexeme.length then
    .error (.valueError "Exceeds the limit (4300 digits) for integer string conversion")
  else .ok (lexeme.foldl (fun acc c => acc * 10 + py.digitValue c) 0 : Nat)

/-- The digit in ASCII. -/
def toAscii (c : Char) : Char := if py.isdecimal c then Char.ofNat (48 + py.digitValue c) else c

/-- `float(lexeme)`, of digits, a point and an exponent. -/
def toFloat (lexeme : List Char) : Except DbError (BitVec 64) :=
  if lexeme.any fun c => py.isdigit c && !py.isdecimal c then
    .error (.valueError "could not convert string to float")
  else .ok (py.float (String.ofList (lexeme.map py.toAscii)))

theorem isdigit_ascii {c : Char} (h : c.toNat < 128) : py.isdigit c = c.isDigit := by
  rw [isdigit, py.numeric_ascii c h]
  cases hdigit : c.isDigit with
  | true => rfl
  | false => rfl

theorem not_isdigit_of_isalpha {c : Char} (h : py.isalpha c = true) : py.isdigit c = false := by
  unfold isdigit
  rcases py.letter_numeric c h with hn | hn
  · rw [hn]
  · rw [hn]

end PyText

/-! ## Tokens -/

/-- `TokenType`. -/
inductive TokenType where
  | eof | identifier | integer | real | string | parameter
  | leftParen | rightParen | comma | semicolon | dot | star | plus | minus | slash | percent
  | eq | ne | lt | le | gt | ge
  | create | table | insert | into | values | select | from_ | where_ | delete | update | set | index
  | on | unique | analyze | explain | begin | commit | rollback
  | integerType | realType | textType | blobType | null | true | false
  | and | or | not | is | like
  | join | left | inner | outer | group | by_ | having | order | asc | desc | limit | offset | distinct
  | as
  deriving DecidableEq, Repr

/-- `Token`. -/
structure Token where
  type : TokenType
  lexeme : String
  value : Option Value
  position : Nat
  deriving DecidableEq

/-- `KEYWORDS`. -/
def keywords : List (String × TokenType) :=
  [("create", .create), ("table", .table), ("insert", .insert), ("into", .into), ("values", .values),
   ("select", .select), ("from", .from_), ("where", .where_), ("delete", .delete), ("update", .update),
   ("set", .set), ("index", .index), ("on", .on), ("unique", .unique), ("analyze", .analyze),
   ("explain", .explain), ("begin", .begin), ("commit", .commit), ("rollback", .rollback),
   ("integer", .integerType), ("real", .realType), ("text", .textType), ("blob", .blobType),
   ("null", .null), ("true", .true), ("false", .false), ("and", .and), ("or", .or), ("not", .not),
   ("is", .is), ("like", .like), ("join", .join), ("left", .left), ("inner", .inner), ("outer", .outer),
   ("group", .group), ("by", .by_), ("having", .having), ("order", .order), ("asc", .asc),
   ("desc", .desc), ("limit", .limit), ("offset", .offset), ("distinct", .distinct), ("as", .as)]

end QuillDb
