import Formula.Expr
import Formula.Log

/-!
# Rules

A function receives its arguments as formulas and decides itself which of them to evaluate, how
often, and under which bindings. It may go further down and evaluate any node of an argument, look at
the typeset form of a node, and read and replace the variables. What it does is a `Rule`: a
description, step by step, of the only things that a function can do, where each step may depend on
what came out of the earlier ones. `Rule.run` carries a rule out.

* A rule meets the nodes of its arguments only by evaluating and typesetting them. It names a node by
  its path (`Expr.at?`). Evaluating a node that is not there fails.
* `within` binds a name while a part of the rule runs and restores the earlier binding after it,
  whether that part had a value or failed. Only `replace` leaves a trace in the context.
* State is kept on failure: what happened before a failure has happened.
-/

namespace Formula

/-- The state of an evaluation: the bindings, and what has been recorded so far. -/
structure Scope where
  context : Context
  log : Log

/-- A value, or the reason why there is none. -/
abbrev Outcome := Except Failure Float

/-- An evaluation: it has an outcome and leaves a state behind. -/
abbrev Evaluation := Scope → Outcome × Scope

/-- The typesetting of a formula: it gives a text, and it may record what could not be typeset. -/
abbrev Typesetting := Scope → String × Scope

/-- A node of a formula as a rule meets it: what happens when it is evaluated, and when it is typeset. -/
structure Node where
  evaluate : Evaluation
  typeset : Typesetting

/-- What a function does with its arguments. -/
inductive Rule
  /-- The rule is done. -/
  | answer (outcome : Outcome)
  /-- Evaluates the node at a path. -/
  | evaluate (path : List Nat) (next : Outcome → Rule)
  /-- Typesets the node at a path. -/
  | typeset (path : List Nat) (next : String → Rule)
  /-- Looks at the variables. -/
  | read (next : Context → Rule)
  /-- Puts other variables in the place of all. -/
  | replace (context : Context) (next : Rule)
  /-- Runs a part with a name bound to a value. -/
  | within (name : String) (value : Float) (part : Rule) (next : Outcome → Rule)
  /-- Records an event. -/
  | record (event : Event) (next : Rule)
  /-- Asks for the unit of angles. -/
  | askAngle (next : Angle → Rule)

namespace Scope

/-- Records an event. -/
def record (s : Scope) (event : Event) : Scope := { s with log := event :: s.log }

/-- Records the functions that could not be typeset. -/
def recordUntypeset (s : Scope) (names : List String) : Scope :=
  names.foldl (fun s name => s.record (.untypeset name)) s

/-- Binds a name for a while. -/
def bind (s : Scope) (name : String) (value : Float) : Scope :=
  { s with context := s.context.set name value }.record (.bound name value)

/-- Ends a binding: the name has its earlier binding again. -/
def release (s : Scope) (name : String) (earlier : Option Float) : Scope :=
  { s with context := s.context.restore name earlier }.record (.released name)

@[simp] theorem context_record (s : Scope) (event : Event) : (s.record event).context = s.context :=
  rfl

@[simp] theorem context_recordUntypeset (s : Scope) (names : List String) :
    (s.recordUntypeset names).context = s.context := by
  unfold recordUntypeset
  induction names generalizing s with
  | nil => rfl
  | cons name names ih => exact ih _

@[simp] theorem context_bind (s : Scope) (name : String) (value : Float) :
    (s.bind name value).context = s.context.set name value := rfl

@[simp] theorem context_release (s : Scope) (name : String) (earlier : Option Float) :
    (s.release name earlier).context = s.context.restore name earlier := rfl

end Scope

namespace Rule

/-! ## 1. Steps that most rules are made of -/

/-- The rule that gives a value. -/
def value (x : Float) : Rule := answer (.ok x)

/-- The rule that fails. -/
def fail (failure : Failure) : Rule := answer (.error failure)

/-- Hands a value on and lets a failure through. -/
def onValue (next : Float → Rule) : Outcome → Rule
  | .ok x => next x
  | .error failure => fail failure

/-- Evaluates an argument, numbered from zero; a failure of it is a failure of the rule. -/
def argument (index : Nat) (next : Float → Rule) : Rule := evaluate [index] (onValue next)

/-- Binds a variable for good and hands on the value that was bound to it before. -/
def assign (name : String) (value : Float) (next : Option Float → Rule) : Rule :=
  read fun context => replace (context.set name value) (next (context.get? name))

/-- Evaluates `count` arguments from `index` on, left to right, and combines each value with what
    came out so far. -/
def foldArguments (combine : Float → Float → Float) (next : Float → Rule) :
    (count index : Nat) → Float → Rule
  | 0, _, x => next x
  | count + 1, index, x =>
    argument index fun y => foldArguments combine next count (index + 1) (combine x y)

/-! ## 2. Carrying a rule out -/

/-- The evaluation of the node at a path. -/
def supplied (nodes : List (Rose Node)) (path : List Nat) (s : Scope) : Outcome × Scope :=
  match Rose.at? nodes path with
  | some node => node.evaluate s
  | none => (.error (.refused "rule" (.missingArgument (path.headD 0))), s)

/-- The typesetting of the node at a path. One that is not there is typeset as nothing. -/
def shown (nodes : List (Rose Node)) (path : List Nat) (s : Scope) : String × Scope :=
  match Rose.at? nodes path with
  | some node => node.typeset s
  | none => ("", s)

/-- Carries a rule out on its arguments. -/
def run (angle : Angle) (nodes : List (Rose Node)) : Rule → Evaluation
  | answer outcome, s => (outcome, s)
  | evaluate path next, s =>
    let r := supplied nodes path s
    run angle nodes (next r.1) r.2
  | typeset path next, s =>
    let r := shown nodes path s
    run angle nodes (next r.1) r.2
  | read next, s => run angle nodes (next s.context) s
  | replace context next, s => run angle nodes next { s with context }
  | within name value part next, s =>
    let r := run angle nodes part (s.bind name value)
    run angle nodes (next r.1) (r.2.release name (s.context.get? name))
  | record event next, s => run angle nodes next (s.record event)
  | askAngle next, s => run angle nodes (next angle) s

end Rule

end Formula
