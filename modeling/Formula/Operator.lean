import Formula.Error

/-!
# Operators

The table of binary operators: how tightly each binds, how a chain of it groups, what it computes
and how it is typeset. Brackets around an operand that binds less tightly are the business of
`Formula.Latex`; an operator whose typeset form has a box for each operand needs none.
-/

namespace Formula

/-- A side of an operator: the side on which an operand is, or toward which a chain groups. -/
inductive Side
  | left
  | right
  deriving DecidableEq, Repr

/-- A binary operator. -/
structure Operator where
  /-- the one character that writes it -/
  symbol : Char
  /-- how tightly it binds; a higher number is tighter -/
  precedence : Nat
  /-- the side toward which a chain of operators of one precedence groups -/
  grouping : Side
  /-- whether the typeset form has a box of its own for each operand -/
  delimits : Bool
  /-- the value for two operands -/
  apply : Float → Float → Except Failure Float
  /-- the typeset form of two typeset operands -/
  typeset : String → String → String

namespace Operator

/-! ## 1. Rules -/

/-- Division, which refuses a zero divisor of either sign. -/
def divide (x y : Float) : Except Failure Float :=
  if Double.isZero y then .error (.divisionByZero x) else .ok (x / y)

/-- Remainder, which refuses a zero divisor of either sign. -/
def modulo (x y : Float) : Except Failure Float :=
  if Double.isZero y then .error (.remainderByZero x) else .ok (Double.remainder x y)

/-- A subtraction without a left operand is a negation. -/
def typesetSubtraction (left right : String) : String :=
  if left.isEmpty then "-" ++ right else left ++ " - " ++ right

/-! ## 2. The table -/

/-- The operators, in the order in which they are listed. -/
def table : List Operator :=
  [ { symbol := '+', precedence := 20, grouping := .left, delimits := false
      apply := fun x y => .ok (x + y)
      typeset := fun l r => l ++ " + " ++ r },
    { symbol := '-', precedence := 20, grouping := .left, delimits := false
      apply := fun x y => .ok (x - y)
      typeset := typesetSubtraction },
    { symbol := '*', precedence := 40, grouping := .left, delimits := false
      apply := fun x y => .ok (x * y)
      typeset := fun l r => l ++ " \\cdot " ++ r },
    { symbol := '/', precedence := 40, grouping := .left, delimits := true
      apply := divide
      typeset := fun l r => "\\frac\x7b" ++ l ++ "\x7d\x7b" ++ r ++ "\x7d" },
    { symbol := '%', precedence := 40, grouping := .left, delimits := false
      apply := modulo
      typeset := fun l r => l ++ " \\bmod " ++ r },
    { symbol := '^', precedence := 60, grouping := .right, delimits := false
      apply := fun x y => .ok (Float.pow x y)
      typeset := fun l r => "\x7b" ++ l ++ "\x7d^\x7b" ++ r ++ "\x7d" } ]

/-- The operator that a character writes. -/
def find? (symbol : Char) : Option Operator := table.find? (·.symbol == symbol)

/-- The operator between two values that stand side by side. -/
def juxtaposition : Char := '*'

/-- The weakest precedence that the right operand of an operator may have without brackets. -/
def rightPrecedence (op : Operator) : Nat :=
  match op.grouping with
  | .left => op.precedence + 1
  | .right => op.precedence

theorem find?_symbol {symbol : Char} {op : Operator} (h : find? symbol = some op) :
    op.symbol = symbol := by
  simpa using List.find?_some h

theorem find?_mem {symbol : Char} {op : Operator} (h : find? symbol = some op) : op ∈ table :=
  List.mem_of_find?_eq_some h

end Operator

end Formula
