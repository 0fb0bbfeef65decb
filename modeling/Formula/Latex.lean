import Formula.Operator
import Formula.Registry

/-!
# Typeset formulas

`Latex.ofExpr` writes a formula in LaTeX. It always succeeds: an operator that is not in the table, a
call of a function that is not registered or does not accept the number of arguments, and a call of a
function without a form are written as nothing.

* An operand that is itself an application of an operator gets brackets if that operator binds less
  tightly, or as tightly on the side away from the grouping (`needsBrackets`); in a form with boxes
  nothing gets brackets.
* A number is written with its own digits, so a negation, whose zero has none, shows only its sign.
* `Latex.unregistered` lists the functions that were looked for in vain, in the order in which they
  are met.
* `Latex.typeset` does both: it writes a formula and records what could not be typeset.
* A form names nodes by their paths, and what it meets there is the typeset node (`at?_shapes`).
-/

namespace Formula.Latex

/-- The name of a variable without the sigils in front of it. -/
def withoutSigil (name : String) : String := String.ofList (name.toList.dropWhile (· == '#'))

/-! ## 1. Brackets -/

/-- Whether an operator needs brackets as the operand of another one on the given side. -/
def isLooser (parent child : Operator) (side : Side) : Bool :=
  decide (child.precedence < parent.precedence) ||
    (child.precedence == parent.precedence && side != parent.grouping)

/-- Whether an operand needs brackets on the given side of an operator. -/
def needsBrackets (parent : Operator) (side : Side) : Expr → Bool
  | .binary symbol _ _ =>
    !parent.delimits &&
      match Operator.find? symbol with
      | some child => isLooser parent child side
      | none => false
  | _ => false

/-- A text in brackets that grow with it. -/
def bracketed (text : String) : String := "\\left(" ++ text ++ "\\right)"

/-- The typeset form of an operand. -/
def operand (parent : Operator) (side : Side) (e : Expr) (text : String) : String :=
  if needsBrackets parent side e then bracketed text else text

/-! ## 2. Formulas -/

mutual

/-- The LaTeX of a formula. -/
def ofExpr (registry : Registry) : Expr → String
  | .number _ text => text
  | .constant name _ =>
    match registry.constant? name with
    | some found => found.display
    | none => name
  | .var name => withoutSigil name
  | .binary symbol left right =>
    match Operator.find? symbol with
    | none => ""
    | some op =>
      op.typeset (operand op .left left (ofExpr registry left))
        (operand op .right right (ofExpr registry right))
  | .call name arguments =>
    match registry.function? name with
    | none => ""
    | some function =>
      if function.arity.accepts arguments.length then
        match function.form with
        | none => ""
        | some form => (form arguments).run (shapes registry arguments)
      else ""

/-- The names of functions that are called and not registered, in the order in which typesetting
    meets them. -/
def unregistered (registry : Registry) : Expr → List String
  | .number _ _ | .constant _ _ | .var _ => []
  | .binary symbol left right =>
    match Operator.find? symbol with
    | none => []
    | some _ => unregistered registry left ++ unregistered registry right
  | .call name arguments =>
    match registry.function? name with
    | none => [name]
    | some function =>
      if function.arity.accepts arguments.length then
        match function.form with
        | none => []
        | some form => (form arguments).missing (shapes registry arguments)
      else []

/-- The arguments of a call as its form meets them. -/
def shapes (registry : Registry) : List Expr → List (Rose Shape)
  | [] => []
  | e :: rest =>
    ⟨⟨fun _ => ofExpr registry e, fun _ => unregistered registry e⟩, innerShapes registry e⟩ ::
      shapes registry rest

/-- The parts of a formula as the form of a call around it meets them. -/
def innerShapes (registry : Registry) : Expr → List (Rose Shape)
  | .number _ _ | .constant _ _ | .var _ => []
  | .binary _ left right =>
    [⟨⟨fun _ => ofExpr registry left, fun _ => unregistered registry left⟩,
        innerShapes registry left⟩,
      ⟨⟨fun _ => ofExpr registry right, fun _ => unregistered registry right⟩,
        innerShapes registry right⟩]
  | .call _ arguments => shapes registry arguments

end

/-- A formula as the form of a call around it meets it. -/
def shape (registry : Registry) (e : Expr) : Rose Shape :=
  ⟨⟨fun _ => ofExpr registry e, fun _ => unregistered registry e⟩, innerShapes registry e⟩

theorem shapes_eq_map (registry : Registry) (arguments : List Expr) :
    shapes registry arguments = arguments.map (shape registry) := by
  induction arguments with
  | nil => rw [shapes, List.map_nil]
  | cons e rest ih => rw [shapes, ih, List.map_cons, shape]

theorem innerShapes_eq_map (registry : Registry) (e : Expr) :
    innerShapes registry e = e.parts.map (shape registry) := by
  cases e with
  | number | constant | var | binary => rfl
  | call name arguments => rw [innerShapes, shapes_eq_map, Expr.parts]

/-- **A form meets the nodes of the arguments at their paths.** -/
theorem at?_shapes (registry : Registry) (arguments : List Expr) (path : List Nat) :
    Rose.at? (shapes registry arguments) path =
      (Expr.at? arguments path).map fun e => (shape registry e).label := by
  rw [shapes_eq_map]
  exact Rose.at?_map (innerShapes_eq_map registry) arguments path

/-- The LaTeX of a call of a function, without looking at its arity. -/
def ofCall (registry : Registry) (form : Form) (arguments : List Expr) : String :=
  (form arguments).run (shapes registry arguments)

/-- A call whose form comes to a row is typeset as its pieces. -/
theorem ofCall_of_row {registry : Registry} {form : Form} {arguments : List Expr}
    {pieces : List Piece} (h : form arguments = .row pieces) :
    ofCall registry form arguments = Piece.join (arguments.map (ofExpr registry)) pieces := by
  rw [ofCall, h, Writer.run, shapes_eq_map, List.map_map]
  rfl

/-- The names that a call of a function adds, without looking at its arity. -/
def unregisteredInCall (registry : Registry) (form : Form) (arguments : List Expr) : List String :=
  (form arguments).missing (shapes registry arguments)

/-! ## 3. Typesetting and recording -/

/-- Typesets a formula. -/
def typeset (registry : Registry) (e : Expr) : Typesetting := fun s =>
  (ofExpr registry e, s.recordUntypeset (unregistered registry e))

/-- Typesets a call without looking at the arity of the function. -/
def typesetCall (registry : Registry) (form : Form) (arguments : List Expr) : Typesetting := fun s =>
  (ofCall registry form arguments, s.recordUntypeset (unregisteredInCall registry form arguments))

end Formula.Latex
