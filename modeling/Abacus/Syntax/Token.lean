import Abacus.Error
import Abacus.Decimal.Read
import Abacus.Text.Cut

/-!
# Tokens

An expression text is cut into tokens from left to right, each time taking the longest token at
the head of what is left, after skipping a run of the blanks space, tab, carriage return, line
feed and form feed. The tokens are numbers, names and the one-character operators
`+ - ~ * / ^ ( )`, where `~` is a minus that takes one operand.

A number is one of four forms: digits; digits, a point and digits; a point and digits; or
digits, each of the last three optionally followed by an exponent of `e` or `E`, an optional
sign and digits. Since the longest form wins, `1.5e` is the number `1.5` followed by the name
`e`, and a point that no digit follows stands alone and is refused. A name is an ASCII letter
followed by ASCII letters, digits and underscores.

Each token carries the byte offset of its first character. A character that starts no token
stops the scan with that character and its offset. After the scan a `-` that begins the
expression or follows an operator or an opening parenthesis is marked as taking one operand.
-/
namespace Abacus.Syntax

open Text

/-- The tokens of an expression. -/
inductive Token where
  | number (value : Float)
  | name (text : String)
  | plus
  | minus
  | negate
  | star
  | slash
  | caret
  | lparen
  | rparen
  deriving Repr, Inhabited

/-- A token and the byte offset where its text starts. -/
structure Lexeme where
  token : Token
  column : Nat
  deriving Repr, Inhabited

namespace Token

/-- Whether an operand is due after the token: after an operator or an opening parenthesis a
`-` takes one operand. -/
def expectsOperand : Token → Bool
  | plus | minus | negate | star | slash | caret | lparen => true
  | _ => false

/-- How a token is named in a report: a number by its decimal text, a name by itself, both
minus signs as `-` and each other operator by its symbol. -/
def describe : Token → String
  | number value => Decimal.text value
  | name text => text
  | plus => "+"
  | minus | negate => "-"
  | star => "*"
  | slash => "/"
  | caret => "^"
  | lparen => "("
  | rparen => ")"

/-- The token of a one-character operator. -/
def ofSymbol? : Char → Option Token
  | '+' => some plus
  | '-' => some minus
  | '~' => some negate
  | '*' => some star
  | '/' => some slash
  | '^' => some caret
  | '(' => some lparen
  | ')' => some rparen
  | _ => none

/-- The blanks between tokens. -/
def isSpacing (c : Char) : Bool :=
  c == ' ' || c == '\t' || c == '\r' || c == '\n' || c == '\x0c'

/-- The characters after the first of a name. -/
def isNameChar (c : Char) : Bool := c.isAlphanum || c == '_'

/-- Whether a text starts with a digit. -/
def startsWithDigit (cs : List Char) : Bool := (cs.head?.map Char.isDigit).getD false

/-- The longest exponent at the head of a text: how many characters it takes and its value,
or `(0, 0)` when the text starts with none. -/
def exponent (cs : List Char) : Nat × Int :=
  match cs with
  | e :: r =>
    if e == 'e' || e == 'E' then
      let (signLength, neg, t) : Nat × Bool × List Char := match r with
        | '+' :: t => (1, false, t)
        | '-' :: t => (1, true, t)
        | t => (0, false, t)
      let ds := t.takeWhile Char.isDigit
      if ds.isEmpty then (0, 0)
      else
        let v := Decimal.digitsValue ds
        (1 + signLength + ds.length, if neg then -(v : Int) else v)
    else (0, 0)
  | [] => (0, 0)

/-- A number from its integer digits, fraction digits and exponent. -/
def numberOf (whole frac : List Char) (exp : Int) : Token :=
  number (Decimal.scientific (Decimal.digitsValue (whole ++ frac)) (exp - frac.length))

/-- What follows the integer digits of a number: a point and fraction digits, if a digit follows
the point, then an optional exponent. Gives the fraction digits, how many characters are taken
and the exponent. -/
def afterDigits (cs : List Char) : List Char × Nat × Int :=
  match cs with
  | '.' :: r =>
    if startsWithDigit r then
      let frac := r.takeWhile Char.isDigit
      let (n, e) := exponent (r.dropWhile Char.isDigit)
      (frac, 1 + frac.length + n, e)
    else ([], exponent cs)
  | _ => ([], exponent cs)

end Token

/-- The tokens of a text, with `column` the byte offset of its first character. Every character
that a token or a blank takes is ASCII, so offsets advance by one per character. -/
def scanFrom (cs : List Char) (column : Nat) : Except Error (List Lexeme) :=
  match cs with
  | [] => .ok []
  | c :: rest =>
    if Token.isSpacing c then
      let skipped := rest.takeWhile Token.isSpacing
      scanFrom (rest.dropWhile Token.isSpacing) (column + 1 + skipped.length)
    else match Token.ofSymbol? c with
      | some t => (scanFrom rest (column + 1)).map (⟨t, column⟩ :: ·)
      | none =>
        if c.isDigit then
          let whole := c :: rest.takeWhile Char.isDigit
          let after := rest.dropWhile Char.isDigit
          let (frac, n, e) := Token.afterDigits after
          (scanFrom (after.drop n) (column + whole.length + n)).map
            (⟨Token.numberOf whole frac e, column⟩ :: ·)
        else if c == '.' && Token.startsWithDigit rest then
          let frac := rest.takeWhile Char.isDigit
          let after := rest.dropWhile Char.isDigit
          let (n, e) := Token.exponent after
          (scanFrom (after.drop n) (column + 1 + frac.length + n)).map
            (⟨Token.numberOf [] frac e, column⟩ :: ·)
        else if c.isAlpha then
          let text := c :: rest.takeWhile Token.isNameChar
          (scanFrom (rest.dropWhile Token.isNameChar) (column + text.length)).map
            (⟨.name (String.ofList text), column⟩ :: ·)
        else .error (.unexpectedToken (String.singleton c) column)
termination_by cs.length
decreasing_by
  all_goals simp only [List.length_cons, List.length_drop]
  all_goals
    first
    | have := length_dropWhile_le Token.isSpacing rest; omega
    | have := length_dropWhile_le Char.isDigit rest; omega
    | have := length_dropWhile_le Token.isNameChar rest; omega
    | omega

/-- Marks each `-` that begins the tokens or follows a token after which an operand is due as
taking one operand; `previous` is the token before the list. -/
def markUnary (previous : Option Token) : List Lexeme → List Lexeme
  | [] => []
  | l :: ls =>
    let t := match l.token with
      | .minus => if previous.all Token.expectsOperand then .negate else .minus
      | t => t
    ⟨t, l.column⟩ :: markUnary (some t) ls

/-- The tokens of an expression text, with unary minus marked. -/
def tokenize (s : String) : Except Error (List Lexeme) :=
  (scanFrom s.toList 0).map (markUnary none)

/-- The first name among the tokens, if any. -/
def firstName? : List Lexeme → Option String
  | [] => none
  | ⟨.name text, _⟩ :: _ => some text
  | _ :: ls => firstName? ls

end Abacus.Syntax
