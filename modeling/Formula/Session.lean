import Formula.Expr.Eval
import Formula.Expr.Parse

/-!
# Sessions

A session holds all that an answer can depend on: the registry, the unit of angles, the variables and
the log. Each operation here takes a session and gives an answer and the session after it.
-/

namespace Formula

/-- The state of a session. -/
structure Session where
  registry : Registry
  angle : Angle
  scope : Scope

namespace Session

/-- A session in which nothing has happened. -/
def fresh : Session := ⟨.standard, .radians, ⟨.empty, []⟩⟩

/-- The variables of the session. -/
def context (s : Session) : Context := s.scope.context

/-- The events of the session, in order. -/
def events (s : Session) : List Event := s.scope.log.inOrder

/-! ## 1. State -/

/-- Records an event. -/
def record (s : Session) (event : Event) : Session := { s with scope := s.scope.record event }

/-- The session with other variables. -/
def withContext (s : Session) (context : Context) : Session :=
  { s with scope := { s.scope with context } }

/-- Chooses the unit of angles. -/
def setAngle (s : Session) (angle : Angle) : Session :=
  { s with angle }.record (.angleSet angle)

/-- Binds a name for a while. -/
def bind (s : Session) (name : String) (value : Float) : Session :=
  { s with scope := s.scope.bind name value }

/-- Ends a binding: the name has its earlier binding again. -/
def release (s : Session) (name : String) (earlier : Option Float) : Session :=
  { s with scope := s.scope.release name earlier }

/-- Begins a session with variables and perhaps a unit of angles. -/
def start (bindings : List (String × Float)) (angle : Option Angle) : Session :=
  let s := fresh.withContext (.ofList bindings)
  match angle with
  | some angle => s.setAngle angle
  | none => s

/-- Registers a constant; without a form of its own it is typeset as its name. -/
def registerConstant (s : Session) (name : String) (value : Float) (display : Option String) :
    Except Rejection Session :=
  (s.registry.addConstant name ⟨value, display.getD name⟩).map fun registry =>
    { s with registry }.record (.constantRegistered name value)

/-- Registers a function. -/
def registerFunction (s : Session) (name : String) (function : Function) :
    Except Rejection Session :=
  (s.registry.addFunction name function).map fun registry =>
    { s with registry }.record (.functionRegistered name function.arity)

/-! ## 2. Formulas -/

/-- Evaluates a formula. -/
def evaluateTree (s : Session) (e : Expr) : Outcome × Session :=
  let r := e.eval s.registry s.angle s.scope
  (r.1, { s with scope := r.2 })

/-- Calls a function without looking at its arity. -/
def call (s : Session) (function : Function) (arguments : List Expr) : Outcome × Session :=
  let r := Expr.apply s.registry s.angle function arguments s.scope
  (r.1, { s with scope := r.2 })

/-- Typesets a formula. -/
def typesetTree (s : Session) (e : Expr) : String × Session :=
  let r := Latex.typeset s.registry e s.scope
  (r.1, { s with scope := r.2 })

/-- Typesets a call without looking at the arity of the function. -/
def typesetCall (s : Session) (form : Form) (arguments : List Expr) : String × Session :=
  let r := Latex.typesetCall s.registry form arguments s.scope
  (r.1, { s with scope := r.2 })

/-! ## 3. Sources -/

/-- The formula that a source writes. -/
def parse (s : Session) (source : String) : Except Fault Expr := Expr.ofSource s.registry source

/-- Evaluates the formula of a source. -/
def evaluate (s : Session) (source : String) : Except Error Float × Session :=
  match s.parse source with
  | .error fault => (.error (.fault source fault), s)
  | .ok e =>
    match (s.record (.parsed source e.depth)).evaluateTree e with
    | (.error failure, s) => (.error (.failure failure), s)
    | (.ok x, s) => (.ok x, s)

/-- Typesets the formula of a source. -/
def typeset (s : Session) (source : String) : Except Error String × Session :=
  match s.parse source with
  | .error fault => (.error (.fault source fault), s)
  | .ok e =>
    let r := s.typesetTree e
    (.ok r.1, r.2)

end Session

end Formula
