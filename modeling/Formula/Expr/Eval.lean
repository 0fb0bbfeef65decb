import Formula.Latex

/-!
# The value of a formula

A formula is evaluated under a registry and a unit of angles. Operands are evaluated left to right
and before the operator looks at them; a call hands its arguments, as formulas, to the rule of its
function. Everything is looked up again while evaluating, since a tree may be made by hand: an
operator that is not in the table, a function that is not registered and a number of arguments that
is not accepted are failures.

The evaluation of a call is a function of the evaluations of the nodes of its arguments (`Rule.run`), so
the recursion follows the tree, however often a rule evaluates a node. A rule names nodes by their paths,
and what it meets there is the node's own evaluation (`at?_evalAll`).
-/

namespace Formula.Expr

mutual

/-- Evaluates a formula. -/
def eval (registry : Registry) (angle : Angle) : Expr → Evaluation
  | number value _, s => (.ok value, s)
  | constant _ value, s => (.ok value, s)
  | var name, s => (.ok (s.context.value name), s)
  | binary symbol left right, s =>
    match Operator.find? symbol with
    | none => (.error (.unknownOperator symbol), s)
    | some op =>
      match left.eval registry angle s with
      | (.error failure, s) => (.error failure, s)
      | (.ok x, s) =>
        match right.eval registry angle s with
        | (.error failure, s) => (.error failure, s)
        | (.ok y, s) => (op.apply x y, s)
  | call name arguments, s =>
    match registry.function? name with
    | none => (.error (.unknownFunction name), s)
    | some function =>
      if function.arity.accepts arguments.length then
        Rule.run angle (evalAll registry angle arguments) (function.rule arguments) s
      else (.error (.wrongArgumentCount name function.arity arguments.length), s)

/-- The arguments of a call as its rule meets them, none of them evaluated yet. -/
def evalAll (registry : Registry) (angle : Angle) : List Expr → List (Rose Node)
  | [] => []
  | e :: rest =>
    ⟨⟨e.eval registry angle, Latex.typeset registry e⟩, e.evalParts registry angle⟩ ::
      evalAll registry angle rest

/-- The parts of a formula as the rule of a call around it meets them. -/
def evalParts (registry : Registry) (angle : Angle) : Expr → List (Rose Node)
  | number _ _ | constant _ _ | var _ => []
  | binary _ left right =>
    [⟨⟨left.eval registry angle, Latex.typeset registry left⟩, left.evalParts registry angle⟩,
      ⟨⟨right.eval registry angle, Latex.typeset registry right⟩, right.evalParts registry angle⟩]
  | call _ arguments => evalAll registry angle arguments

end

/-- A formula as the rule of a call around it meets it. -/
def node (registry : Registry) (angle : Angle) (e : Expr) : Rose Node :=
  ⟨⟨e.eval registry angle, Latex.typeset registry e⟩, e.evalParts registry angle⟩

theorem evalAll_eq_map (registry : Registry) (angle : Angle) (arguments : List Expr) :
    evalAll registry angle arguments = arguments.map (node registry angle) := by
  induction arguments with
  | nil => rw [evalAll, List.map_nil]
  | cons e rest ih => rw [evalAll, ih, List.map_cons, node]

theorem evalParts_eq_map (registry : Registry) (angle : Angle) (e : Expr) :
    e.evalParts registry angle = e.parts.map (node registry angle) := by
  cases e with
  | number | constant | var | binary => rfl
  | call name arguments => rw [evalParts, evalAll_eq_map, parts]

/-- **A rule meets the nodes of the arguments at their paths.** -/
theorem at?_evalAll (registry : Registry) (angle : Angle) (arguments : List Expr)
    (path : List Nat) :
    Rose.at? (evalAll registry angle arguments) path =
      (at? arguments path).map fun e => (e.node registry angle).label := by
  rw [evalAll_eq_map]
  exact Rose.at?_map (evalParts_eq_map registry angle) arguments path

/-- Calls a function on arguments without looking at its arity. -/
def apply (registry : Registry) (angle : Angle) (function : Function) (arguments : List Expr) :
    Evaluation :=
  Rule.run angle (evalAll registry angle arguments) (function.rule arguments)

end Formula.Expr
