import Formula.Function.Sum

/-!
# Builtin functions

The functions that every formula can call: the trigonometric functions, rounding and roots, the
largest and smallest of some arguments, sums, logarithms, and `noerr`, which turns a failure into
zero. A rule checks the number of its arguments itself, also where the arity already has.
-/

namespace Formula.Builtin

/-! ## 1. Functions of one argument -/

/-- The rule of a function of one argument. -/
def single (name : String) (next : Float → Rule) : List Expr → Rule
  | [_] => .argument 0 next
  | arguments => .fail (.wrongArgumentCount name (.exactly 1) arguments.length)

/-- A numeric function of one argument. -/
def numeric (name : String) (f : Float → Float) (row : Row) : String × Function :=
  (name, ⟨.exactly 1, single name fun x => .value (f x), some row.form⟩)

/-- A numeric function of an angle, typeset as a command applied to it. -/
def trigonometric (name command : String) (f : Float → Float) : String × Function :=
  (name,
    ⟨.exactly 1,
      single name fun x => .askAngle fun angle => .value (f (angle.toRadians x)),
      some (Row.applied command).form⟩)

/-- Turns a failure into zero and records it. -/
def suppress : Outcome → Rule
  | .ok x => .value x
  | .error failure => .record (.suppressed failure) (.value 0.0)

/-- The rule that evaluates its argument and gives zero if that fails. -/
def noerr : List Expr → Rule
  | [_] => .evaluate [0] suppress
  | arguments => .fail (.wrongArgumentCount "noerr" (.exactly 1) arguments.length)

/-! ## 2. Functions of several arguments -/

/-- The rule that chooses among its arguments, left to right. -/
def choice (name : String) (choose : Float → Float → Float) : List Expr → Rule
  | [] => .fail (.refused name .noArgument)
  | _ :: rest => .argument 0 (Rule.foldArguments choose .value rest.length 1)

/-- A choice among any number of arguments. -/
def choosing (name command : String) (choose : Float → Float → Float) : String × Function :=
  (name, ⟨.variadic, choice name choose, some (Row.applied command).form⟩)

/-- The logarithm of its second argument to the base of its first. -/
def logarithm : List Expr → Rule
  | [_, _] => .argument 0 fun base => .argument 1 fun x => .value (x.log / base.log)
  | arguments => .fail (.wrongArgumentCount "log" (.exactly 2) arguments.length)

/-- How a logarithm is typeset. -/
def logarithmRow : Row
  | [_, _] => [.text "\\log_\x7b", .argument 0, .text "\x7d\\left(", .argument 1, .text "\\right)"]
  | _ => []

/-! ## 3. The table -/

/-- The builtin functions in the order in which they are listed. -/
def table : List (String × Function) :=
  [ trigonometric "sin" "\\sin" Float.sin,
    trigonometric "cos" "\\cos" Float.cos,
    trigonometric "tan" "\\tan" Float.tan,
    trigonometric "cot" "\\cot" fun x => 1.0 / x.tan,
    trigonometric "sec" "\\sec" fun x => 1.0 / x.cos,
    trigonometric "csc" "\\csc" fun x => 1.0 / x.sin,
    numeric "abs" Float.abs (Row.delimited "\\left|" "\\right|"),
    numeric "ceil" Double.ceiling (Row.delimited "\\left\\lceil " "\\right\\rceil"),
    numeric "floor" Double.floor (Row.delimited "\\left\\lfloor " "\\right\\rfloor"),
    numeric "round" Double.round (Row.applied "\\operatorname\x7bround\x7d"),
    numeric "sqrt" Float.sqrt (Row.delimited "\\sqrt\x7b" "\x7d"),
    numeric "cbrt" Double.cubeRoot (Row.delimited "\\sqrt[3]\x7b" "\x7d"),
    ("noerr", ⟨.exactly 1, noerr, none⟩),
    choosing "max" "\\max" Double.larger,
    choosing "min" "\\min" Double.smaller,
    ("sum", ⟨.variadic, Sum.rule, some Sum.row.form⟩),
    ("log", ⟨.exactly 2, logarithm, some logarithmRow.form⟩) ]

/-- The names of the builtin functions. -/
def names : List String := table.map (·.1)

end Formula.Builtin
