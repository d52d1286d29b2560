/-!
# Expressions

The trees that the parser builds: numbers, negation and the five binary operations. A tree is
evaluated in binary64 arithmetic, each operation rounding once, and powers by the platform's
`pow`.
-/
namespace Abacus.Syntax

/-- The binary operations. -/
inductive Op where
  | add
  | sub
  | mul
  | div
  | pow
  deriving DecidableEq, Repr, Inhabited

/-- Expression trees. -/
inductive Expr where
  | num (value : Float)
  | neg (operand : Expr)
  | binary (op : Op) (left right : Expr)
  deriving Repr, Inhabited

/-- An operation on doubles. -/
def Op.apply : Op → Float → Float → Float
  | .add, a, b => a + b
  | .sub, a, b => a - b
  | .mul, a, b => a * b
  | .div, a, b => a / b
  | .pow, a, b => Float.pow a b

/-- The value of a tree. -/
def Expr.eval : Expr → Float
  | .num value => value
  | .neg operand => -operand.eval
  | .binary op left right => op.apply left.eval right.eval

end Abacus.Syntax
