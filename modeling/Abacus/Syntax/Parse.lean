import Abacus.Syntax.Token
import Abacus.Syntax.Expr

/-!
# Parsing

Tokens are read by the grammar

    sum     := product (("+" | "-") product)*
    product := power (("*" | "/") power)*
    power   := atom ("^" power)?
    atom    := "(" sum ")" | "~" atom | number

so that `+ - * /` group to the left, `^` groups to the right and binds tighter than both,
and a unary minus takes the atom right after it (`~2^2` is `(-2)^2`). A name is no atom: the
names of an expression are replaced by values before it is parsed.

Each rule returns its tree with the tokens after it, and those are fewer than the tokens it was
given, since every atom takes at least one token. The rules are one well-founded definition on
the number of tokens and the level of the rule. A parse fails where an atom is due and the
tokens end or another token stands, where a group is not closed, and where tokens are left
after the whole sum.
-/
namespace Abacus.Syntax

/-- The operation of a token between two products. -/
def Token.sumOp? : Token → Option Op
  | .plus => some .add
  | .minus => some .sub
  | _ => none

/-- The operation of a token between two powers. -/
def Token.productOp? : Token → Option Op
  | .star => some .mul
  | .slash => some .div
  | _ => none

/-- A tree and the tokens after it, fewer than `n`. -/
abbrev Parsed (n : Nat) := Expr × { rest : List Lexeme // rest.length < n }

mutual

/-- `atom := "(" sum ")" | "~" atom | number`. -/
def atom (ts : List Lexeme) : Except Error (Parsed ts.length) :=
  match ts with
  | ⟨.lparen, column⟩ :: r =>
    match sum r with
    | .ok (e, ⟨⟨.rparen, _⟩ :: r', h⟩) =>
      .ok (e, ⟨r', by simp only [List.length_cons] at h ⊢; omega⟩)
    | .ok _ => .error (.missingClosingParen column)
    | .error err => .error err
  | ⟨.negate, _⟩ :: r =>
    match atom r with
    | .ok (e, ⟨r', h⟩) => .ok (.neg e, ⟨r', by simp only [List.length_cons]; omega⟩)
    | .error err => .error err
  | ⟨.number value, _⟩ :: r => .ok (.num value, ⟨r, by simp⟩)
  | l :: _ => .error (.expectedNumber (some l.token.describe))
  | [] => .error (.expectedNumber none)
termination_by (ts.length, 0)

/-- `power := atom ("^" power)?`. -/
def power (ts : List Lexeme) : Except Error (Parsed ts.length) :=
  match atom ts with
  | .ok (base, ⟨⟨.caret, _⟩ :: r, h⟩) =>
    match power r with
    | .ok (exponent, ⟨r', h'⟩) =>
      .ok (.binary .pow base exponent, ⟨r', by simp only [List.length_cons] at h; omega⟩)
    | .error err => .error err
  | .ok parsed => .ok parsed
  | .error err => .error err
termination_by (ts.length, 1)
decreasing_by
  all_goals (try simp only [List.length_cons] at *)
  all_goals first
    | (apply Prod.Lex.left; omega)
    | (apply Prod.Lex.right; omega)

/-- The `(("*" | "/") power)*` loop after `left`, on tokens `ts`. -/
def productRest (left : Expr) (ts : List Lexeme) :
    Except Error (Expr × { rest : List Lexeme // rest.length ≤ ts.length }) :=
  match ts with
  | l :: r =>
    match l.token.productOp? with
    | some op =>
      match power r with
      | .ok (right, ⟨r', h⟩) =>
        match productRest (.binary op left right) r' with
        | .ok (e, ⟨r'', h'⟩) => .ok (e, ⟨r'', by simp only [List.length_cons]; omega⟩)
        | .error err => .error err
      | .error err => .error err
    | none => .ok (left, ⟨l :: r, Nat.le_refl _⟩)
  | [] => .ok (left, ⟨[], Nat.le_refl _⟩)
termination_by (ts.length, 2)

/-- `product := power (("*" | "/") power)*`. -/
def product (ts : List Lexeme) : Except Error (Parsed ts.length) :=
  match power ts with
  | .ok (left, ⟨r, h⟩) =>
    match productRest left r with
    | .ok (e, ⟨r', h'⟩) => .ok (e, ⟨r', by omega⟩)
    | .error err => .error err
  | .error err => .error err
termination_by (ts.length, 3)

/-- The `(("+" | "-") product)*` loop after `left`, on tokens `ts`. -/
def sumRest (left : Expr) (ts : List Lexeme) :
    Except Error (Expr × { rest : List Lexeme // rest.length ≤ ts.length }) :=
  match ts with
  | l :: r =>
    match l.token.sumOp? with
    | some op =>
      match product r with
      | .ok (right, ⟨r', h⟩) =>
        match sumRest (.binary op left right) r' with
        | .ok (e, ⟨r'', h'⟩) => .ok (e, ⟨r'', by simp only [List.length_cons]; omega⟩)
        | .error err => .error err
      | .error err => .error err
    | none => .ok (left, ⟨l :: r, Nat.le_refl _⟩)
  | [] => .ok (left, ⟨[], Nat.le_refl _⟩)
termination_by (ts.length, 4)

/-- `sum := product (("+" | "-") product)*`. -/
def sum (ts : List Lexeme) : Except Error (Parsed ts.length) :=
  match product ts with
  | .ok (left, ⟨r, h⟩) =>
    match sumRest left r with
    | .ok (e, ⟨r', h'⟩) => .ok (e, ⟨r', by omega⟩)
    | .error err => .error err
  | .error err => .error err
termination_by (ts.length, 5)

end

/-- The tree of a whole token list: a sum after which no token is left. -/
def parse (ts : List Lexeme) : Except Error Expr :=
  match sum ts with
  | .ok (e, ⟨[], _⟩) => .ok e
  | .ok (_, ⟨l :: _, _⟩) => .error (.unexpectedToken l.token.describe l.column)
  | .error err => .error err

end Abacus.Syntax
