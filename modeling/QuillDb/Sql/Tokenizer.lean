/-
  Sql/Tokenizer.lean --- the scanner.

  Source: `quilldb/sql/tokenizer.py`.

  Text is a list of characters.  A round of the loop reads one token, one comment or
  one blank from the text at `i` on; the lexical grammar says which pieces there are.
-/
import QuillDb.Sql.Tokens
import QuillDb.Lib.Fallible

set_option autoImplicit false

namespace QuillDb

/-! ## The source -/

namespace Tokenizer

/-- `_line_and_column`. -/
def lineAndColumn (sql : List Char) (position : Nat) : Nat × Nat :=
  let before := sql.take position
  (before.count '\n' + 1, (before.reverse.takeWhile (· ≠ '\n')).length + 1)

/-- `SQLSyntaxError(f"{message} at line {line}, column {column}")`. -/
def syntaxError (sql : List Char) (message : String) (position : Nat) : DbError :=
  let place := lineAndColumn sql position
  .sqlSyntax s!"{message} at line {place.1}, column {place.2}"

/-- `two_char_operators`. -/
def twoCharOperators : List (List Char × TokenType) :=
  [(['!', '='], .ne), (['<', '>'], .ne), (['<', '='], .le), (['>', '='], .ge)]

/-- `one_char_operators`. -/
def oneCharOperators : List (Char × TokenType) :=
  [('(', .leftParen), (')', .rightParen), (',', .comma), (';', .semicolon), ('.', .dot), ('*', .star),
   ('+', .plus), ('-', .minus), ('/', .slash), ('%', .percent), ('=', .eq), ('<', .lt), ('>', .gt)]

/-- The entry of a table. -/
def entry {α : Type} [DecidableEq α] (table : List (α × TokenType)) (key : α) : Option TokenType :=
  (table.find? fun p => p.1 = key).map Prod.snd

/-- `c in " \t\r\n"`. -/
def isBlank (c : Char) : Bool := c = ' ' || c = '\t' || c = '\r' || c = '\n'

/-- `text.find("*/")`. -/
def findClose : List Char → Option Nat
  | [] => none
  | c :: rest => if c = '*' ∧ rest.head? = some '/' then some 0 else (findClose rest).map (· + 1)

/-- `_scan_string` behind the opening quote: the contents, and how far the closing one is. -/
def scanString : List Char → Option (List Char × Nat)
  | [] => none
  | '\'' :: '\'' :: rest => (scanString rest).map fun r => ('\'' :: r.1, r.2 + 2)
  | '\'' :: _ => some ([], 1)
  | c :: rest => (scanString rest).map fun r => (c :: r.1, r.2 + 1)

section Scan

variable (py : PyText)

/-- The point of a number and the digits behind it. -/
def scanFraction : List Char → List Char
  | '.' :: rest => '.' :: rest.takeWhile py.isdigit
  | _ => []

/-- The sign of an exponent. -/
def scanSign : List Char → List Char
  | '+' :: _ => ['+']
  | '-' :: _ => ['-']
  | _ => []

/-- The exponent of a number: none where the marker has no digits behind it. -/
def scanExponent : List Char → Option (List Char)
  | [] => some []
  | c :: rest =>
      if c = 'e' ∨ c = 'E' then
        let sign := scanSign rest
        let digits := (rest.drop sign.length).takeWhile py.isdigit
        if digits = [] then none else some (c :: (sign ++ digits))
      else some []

/-- `_scan_number`: the value and the length of the literal. -/
def scanNumber (sql : List Char) (start : Nat) (rest : List Char) : Except DbError (Value × Nat) :=
  let whole := rest.takeWhile py.isdigit
  let fraction := scanFraction py (rest.drop whole.length)
  let front := whole ++ fraction
  match scanExponent py (rest.drop front.length) with
  | none => .error (syntaxError sql "malformed exponent" (start + front.length))
  | some exponent =>
      let lexeme := front ++ exponent
      if fraction = [] ∧ exponent = [] then do
        let value ← py.int lexeme
        return (.int value, lexeme.length)
      else do
        let value ← py.toFloat lexeme
        return (.real value, lexeme.length)

/-- `isinstance(number_value, float)`. -/
def numberType : Value → TokenType
  | .real _ => .real
  | _ => .integer

/-- A digit, or a point and a digit. -/
def startsNumber : List Char → Bool
  | [] => false
  | c :: rest => py.isdigit c || (c = '.' && rest.head?.any py.isdigit)

/-- `sql[end].isalnum() or sql[end] == "_"`. -/
def isWordChar (c : Char) : Bool := py.isalnum c || c = '_'

/-- The token of an operator, if `rest` starts with one. -/
def scanOperator (sql : List Char) (i : Nat) (c : Char) (rest : List Char) :
    Except DbError (Option Token × Nat) :=
  let two := (c :: rest).take 2
  match entry twoCharOperators two with
  | some type => .ok (some ⟨type, String.ofList two, none, i⟩, 2)
  | none =>
      match entry oneCharOperators c with
      | some type => .ok (some ⟨type, String.ofList [c], none, i⟩, 1)
      | none => .error (syntaxError sql s!"unexpected character {py.repr (String.ofList [c])}" i)

/-- The token of a number. -/
def scanNumberToken (sql : List Char) (i : Nat) (rest : List Char) : Except DbError (Option Token × Nat) := do
  let (value, length) ← scanNumber py sql i rest
  return (some ⟨numberType value, String.ofList (rest.take length), some value, i⟩, length)

/-- The token of a keyword or an identifier. -/
def scanWord (i : Nat) (c : Char) (rest : List Char) : Option Token × Nat :=
  let lexeme := c :: rest.takeWhile (isWordChar py)
  let type := (entry keywords (py.casefold (String.ofList lexeme))).getD .identifier
  (some ⟨type, String.ofList lexeme, none, i⟩, lexeme.length)

/-- The round behind the branches for blanks, comments and strings. -/
def scanPlain (sql : List Char) (i : Nat) (c : Char) (rest : List Char) : Except DbError (Option Token × Nat) :=
  if startsNumber py (c :: rest) then scanNumberToken py sql i (c :: rest)
  else if py.isalpha c ∨ c = '_' then .ok (scanWord py i c rest)
  else if c = '?' then .ok (some ⟨.parameter, "?", none, i⟩, 1)
  else scanOperator py sql i c rest

/-- One round of the loop of `tokenize`, at `sql[i:] = c :: rest`: the token that is read, if
any, and how many characters it takes. -/
def scanToken (sql : List Char) (i : Nat) (c : Char) (rest : List Char) :
    Except DbError (Option Token × Nat) :=
  if isBlank c then .ok (none, 1)
  else if c = '-' ∧ rest.head? = some '-' then .ok (none, ((c :: rest).takeWhile (· ≠ '\n')).length)
  else if c = '/' ∧ rest.head? = some '*' then
    match findClose rest.tail with
    | none => .error (syntaxError sql "unterminated block comment" i)
    | some length => .ok (none, length + 4)
  else if c = '\'' then
    match scanString rest with
    | none => .error (syntaxError sql "unterminated string literal starting" i)
    | some (contents, length) =>
        .ok (some ⟨.string, String.ofList ((c :: rest).take (length + 1)),
          some (.text (String.ofList contents)), i⟩, length + 1)
  else scanPlain py sql i c rest

/-- The loop of `tokenize` from `sql[i:]` on. -/
def scanAll (sql : List Char) : Nat → Nat → List Char → Except DbError (List Token)
  | _, i, [] => .ok [⟨.eof, "", none, i⟩]
  | 0, _, _ :: _ => .error (.assertionError "the rounds are used up")
  | fuel + 1, i, c :: rest => do
      let (token, length) ← scanToken py sql i c rest
      let tokens ← scanAll sql fuel (i + length) ((c :: rest).drop length)
      return token.toList ++ tokens

/-- `tokenize`. -/
def tokenize (sql : List Char) : Except DbError (List Token) := scanAll py sql sql.length 0 sql

end Scan

/-! ## The lexical grammar -/

/-- The contents of a string with its quotes doubled. -/
def doubled (contents : List Char) : List Char :=
  contents.flatMap fun c => if c = '\'' then ['\'', '\''] else [c]

/-- A blank or a comment, with what comes after it. -/
inductive Blank : List Char → List Char → Prop
  | space {c : Char} {after : List Char} (h : isBlank c = true) : Blank [c] after
  | line {body after : List Char} (hbody : '\n' ∉ body) (hend : after.head? = none ∨ after.head? = some '\n') :
      Blank ('-' :: '-' :: body) after
  | block {body after : List Char} (hbody : ¬ ['*', '/'] <:+: body) :
      Blank ('/' :: '*' :: (body ++ ['*', '/'])) after

/-- Text of nothing but blanks and comments. -/
inductive Blanks : List Char → List Char → Prop
  | nil {after : List Char} : Blanks [] after
  | cons {text more after : List Char} (h : Blank text (more ++ after)) (hmore : Blanks more after) :
      Blanks (text ++ more) after

/-- The first character is one of those. -/
def Starts (p : Char → Bool) (text : List Char) : Prop := text.head?.any p = true

section Grammar

variable (py : PyText)

/-- The fraction of a number: as many digits as there are. -/
inductive Fraction : List Char → List Char → Prop
  | none {after : List Char} (h : after.head? ≠ some '.') : Fraction [] after
  | point {digits after : List Char} (hdigits : ∀ d ∈ digits, py.isdigit d = true)
      (hend : ¬ Starts py.isdigit after) : Fraction ('.' :: digits) after

/-- The exponent of a number, with at least one digit. -/
inductive Exponent : List Char → List Char → Prop
  | none {after : List Char} (h : after.head? ≠ some 'e') (h' : after.head? ≠ some 'E') : Exponent [] after
  | marker {e : Char} {sign digits after : List Char} (he : e = 'e' ∨ e = 'E')
      (hsign : sign = [] ∨ sign = ['+'] ∨ sign = ['-']) (hne : digits ≠ [])
      (hdigits : ∀ d ∈ digits, py.isdigit d = true) (hend : ¬ Starts py.isdigit after) :
      Exponent (e :: (sign ++ digits)) after

/-- The three parts of a number literal. -/
structure Number (whole fraction exponent after : List Char) : Prop where
  starts : whole ≠ [] ∨ ∃ d digits, fraction = '.' :: d :: digits
  digits : ∀ d ∈ whole, py.isdigit d = true
  longest : ¬ Starts py.isdigit (fraction ++ (exponent ++ after))
  fraction : Fraction py fraction (exponent ++ after)
  exponent : Exponent py exponent after

/-- A token of the text, with what comes after it. -/
inductive Lexeme : List Char → List Char → Prop
  | string {contents after : List Char} (hend : after.head? ≠ some '\'') :
      Lexeme ('\'' :: (doubled contents ++ ['\''])) after
  | number {whole fraction exponent after : List Char} (h : Number py whole fraction exponent after) :
      Lexeme (whole ++ (fraction ++ exponent)) after
  | word {c : Char} {cs after : List Char} (hfirst : py.isalpha c = true ∨ c = '_')
      (hrest : ∀ d ∈ cs, isWordChar py d = true) (hend : ¬ Starts (isWordChar py) after) :
      Lexeme (c :: cs) after
  | parameter {after : List Char} : Lexeme ['?'] after
  | twoChar {text after : List Char} {type : TokenType} (h : entry twoCharOperators text = some type) :
      Lexeme text after
  | oneChar {c : Char} {after : List Char} {type : TokenType} (h : entry oneCharOperators c = some type)
      (htwo : entry twoCharOperators ((c :: after).take 2) = none)
      (hline : c = '-' → after.head? ≠ some '-') (hblock : c = '/' → after.head? ≠ some '*')
      (hpoint : c = '.' → ¬ Starts py.isdigit after) : Lexeme [c] after

/-- The text is read piece by piece up to here, whether or not its numbers convert. -/
inductive Reads (sql : List Char) : List Char → List Char → Prop
  | start : Reads sql [] sql
  | piece {before text after : List Char} (h : Reads sql before (text ++ after))
      (hpiece : Blank text after ∨ Lexeme py text after) : Reads sql (before ++ text) after

/-- A number that `int` or `float` takes: decimal digits only, and an integer of at most
`intMaxStrDigits` of them. -/
def Converts (whole fraction exponent : List Char) : Prop :=
  (∀ c ∈ whole ++ (fraction ++ exponent), py.isdigit c = true → py.isdecimal c = true) ∧
    (fraction = [] → exponent = [] → whole.length ≤ PyText.intMaxStrDigits)

/-- Every number of the text converts. -/
def NumbersConvert (sql : List Char) : Prop :=
  ∀ before whole fraction exponent after,
    Reads py sql before (whole ++ (fraction ++ exponent) ++ after) →
      Number py whole fraction exponent after → Converts py whole fraction exponent

end Grammar

end Tokenizer

end QuillDb
