import Formula.Rule

/-!
# Functions

A function has an arity, a rule and perhaps a form in which calls of it are typeset. Both look at the
arguments as formulas.

* Most forms are a row of pieces, each a fixed text or an argument (`Row`). A form may also typeset any
  node of the arguments, look at the text, and go on as the text says (`Writer`). Nothing is evaluated
  while a call is typeset.
* `Stock` holds ready-made rules and forms for functions that are registered during a session.
-/

namespace Formula

/-! ## 1. Rows of pieces -/

/-- A piece of a typeset call. -/
inductive Piece
  /-- A fixed text. -/
  | text (text : String)
  /-- An argument, numbered from zero, in its typeset form. -/
  | argument (index : Nat)
  deriving DecidableEq, Repr

namespace Piece

/-- The arguments from `index` on, with a text between any two. -/
def separated (separator : String) : (count index : Nat) → List Piece
  | 0, _ => []
  | 1, index => [.argument index]
  | count + 2, index =>
    .argument index :: .text separator :: separated separator (count + 1) (index + 1)

/-- The number of arguments among pieces that are to be typeset. -/
def argumentIndices : List Piece → List Nat
  | [] => []
  | .text _ :: pieces => argumentIndices pieces
  | .argument index :: pieces => index :: argumentIndices pieces

/-- Puts pieces together, with the given typeset arguments. An argument that was not supplied is
    typeset as nothing. -/
def join (arguments : List String) : List Piece → String
  | [] => ""
  | .text fixed :: pieces => fixed ++ join arguments pieces
  | .argument index :: pieces => arguments[index]?.getD "" ++ join arguments pieces

/-- What a row takes of each argument that it typesets, strung together. -/
def gather (arguments : List (List String)) (pieces : List Piece) : List String :=
  (argumentIndices pieces).flatMap fun index => arguments[index]?.getD []

end Piece

/-! ## 2. Forms -/

/-- A node of a formula as a form meets it: its text, and the functions that were looked for in vain on
    the way to it. Both are only worked out where they are asked for. -/
structure Shape where
  text : Unit → String
  missing : Unit → List String

/-- How one call is typeset. A node is named by its path, as it is in a rule. -/
inductive Writer
  /-- The call is a row of pieces. -/
  | row (pieces : List Piece)
  /-- Typesets the node at a path and goes on as its text says. -/
  | typeset (path : List Nat) (next : String → Writer)

namespace Writer

/-- The text of the node at a path. One that is not there is typeset as nothing. -/
def textAt (arguments : List (Rose Shape)) (path : List Nat) : String :=
  ((Rose.at? arguments path).map fun shape => shape.text ()).getD ""

/-- What is missing in the node at a path. -/
def missingAt (arguments : List (Rose Shape)) (path : List Nat) : List String :=
  ((Rose.at? arguments path).map fun shape => shape.missing ()).getD []

/-- The text that is written. -/
def run (arguments : List (Rose Shape)) : Writer → String
  | row pieces => Piece.join (arguments.map fun a => a.label.text ()) pieces
  | typeset path next => run arguments (next (textAt arguments path))

/-- What is missing in the nodes that are typeset, in their order. -/
def missing (arguments : List (Rose Shape)) : Writer → List String
  | row pieces => Piece.gather (arguments.map fun a => a.label.missing ()) pieces
  | typeset path next => missingAt arguments path ++ missing arguments (next (textAt arguments path))

end Writer

/-- How calls of a function are typeset. -/
abbrev Form := List Expr → Writer

/-- How calls of a function are typeset if they are rows of pieces. -/
abbrev Row := List Expr → List Piece

namespace Row

/-- The form of a row. -/
def form (row : Row) : Form := fun arguments => .row (row arguments)

theorem form_injective {row other : Row} (h : row.form = other.form) : row = other :=
  funext fun arguments => Writer.row.inj (congrFun h arguments)

/-- A command applied to its arguments in brackets. -/
def applied (command : String) : Row := fun arguments =>
  .text (command ++ "\\left(") :: Piece.separated ", " arguments.length 0 ++ [.text "\\right)"]

/-- One argument between two delimiters; nothing for any other number of arguments. -/
def delimited (opening closing : String) : Row
  | [_] => [.text opening, .argument 0, .text closing]
  | _ => []

end Row

/-- A function of the language. -/
structure Function where
  /-- the argument counts that it accepts -/
  arity : Arity
  /-- what it does with its arguments -/
  rule : List Expr → Rule
  /-- how a call of it is typeset; without a form a call is typeset as nothing -/
  form : Option Form

/-! ## 3. Stock rules and forms

They evaluate no more of their arguments than they need, and an argument that is needed and missing is a
failure. -/

namespace Stock

/-- The number of arguments, none of them evaluated. -/
def count (arguments : List Expr) : Rule := .value (Float.ofNat arguments.length)

/-- The first argument. -/
def first (_ : List Expr) : Rule := .argument 0 .value

/-- Twice the first argument. -/
def twice (_ : List Expr) : Rule := .argument 0 fun x => .value (2.0 * x)

/-- The sum of all arguments, left to right from zero. -/
def total (arguments : List Expr) : Rule :=
  Rule.foldArguments (· + ·) .value arguments.length 0 0.0

/-- The second argument if the first is not zero, else the third; the other one is not evaluated. -/
def branch (_ : List Expr) : Rule :=
  .argument 0 fun x => if Double.isZero x then .argument 2 .value else .argument 1 .value

/-- The second argument with the variable `t` bound to the first. -/
def bindFirst (_ : List Expr) : Rule :=
  .argument 0 fun x => .within "t" x (.argument 1 .value) .answer

/-- Binds the variable `s` to the first argument for good. The value is the one that `s` had before,
    or -1. -/
def store (_ : List Expr) : Rule :=
  .argument 0 fun x => .assign "s" x fun earlier => .value (earlier.getD (-1.0))

/-- No value at all. -/
def failing (_ : List Expr) : Rule := .fail (.refused "fail" .always)

/-- The arguments in brackets after a function sign. -/
def appliedForm : Form := (Row.applied "\\fn").form

/-- The arguments with semicolons between them. -/
def joinedForm : Form := Row.form fun arguments => Piece.separated ";" arguments.length 0

/-- The number of arguments. -/
def countForm : Form := Row.form fun arguments => [.text s!"\\#{arguments.length}"]

end Stock

end Formula
