import Formula.Session

/-!
# Requests

What can be asked of a session, and the answers. Requests run one after the other and share the
session; one that fails does not stop those after it. With each answer comes the context after it.

`Request.bind` runs requests with a name bound to a value and gives the name its earlier binding back
after the last of them.
-/

namespace Formula

/-- Something asked of a session. -/
inductive Request
  /-- The tokens of a source, perhaps each with whether it is a certain symbol. -/
  | tokenize (source : String) (asked : Option Char)
  /-- The formula of a source. -/
  | parse (source : String)
  /-- The formula of tokens made by hand; the source tells where they end. -/
  | parseTokens (tokens : List Token) (source : String)
  /-- The height of the formula of a source. -/
  | depth (source : String)
  /-- The value of a source. -/
  | evaluate (source : String)
  /-- The typeset form of a source. -/
  | typeset (source : String)
  /-- The value of a source, or the error in full. -/
  | diagnose (source : String)
  /-- All there is to say of a formula. -/
  | examine (tree : Expr)
  /-- The value and the typeset form of a function called with any number of arguments. -/
  | call (function : Function) (arguments : List Expr)
  /-- An operator, applied to two values and to two typeset operands. -/
  | operator (symbol : Char) (left right : Float) (leftText rightText : String)
  /-- The text of a number. -/
  | write (x : Float)
  /-- An angle in radians. -/
  | toRadians (x : Float)
  /-- A source with a caret under a place. -/
  | pointer (source : String) (place : Nat)
  /-- The arity that a number stands for, tried on argument counts. -/
  | arity (number : Int) (counts : List Nat)
  /-- What a name is registered as. -/
  | lookUp (name : String)
  /-- All operators and functions. -/
  | tables
  /-- Binds a variable for good. -/
  | set (name : String) (value : Float)
  /-- The binding of a variable. -/
  | get (name : String)
  /-- The number of variables. -/
  | size
  /-- Forgets all variables. -/
  | clear
  /-- The unit of angles, changed before if one is given. -/
  | angle (unit : Option Angle)
  /-- Requests with a variable bound while they run. -/
  | bind (name : String) (value : Float) (requests : List Request)
  | registerConstant (name : String) (value : Float) (display : Option String)
  | registerFunction (name : String) (arity : Int) (rule : List Expr → Rule) (form : Option Form)

/-- What is answered to a request. -/
inductive Answer
  | error (error : Error)
  | rejection (rejection : Rejection)
  | tokens (tokens : List Token) (asked : Option Char)
  | tree (tree : Expr)
  | depth (depth : Nat)
  | value (x : Float)
  | latex (latex : String)
  | diagnosis (error : Error)
  | examined (depth : Nat) (latex : String) (outcome : Outcome) (agrees : Bool)
  | called (outcome : Outcome) (latex : Option String)
  | noOperator
  | operator (operator : Operator) (outcome : Outcome) (latex : String)
  | text (text : String)
  | arity (arity : Arity) (accepted : List Bool)
  | entries (function : Option Function) (constant : Option Constant)
  | tables (operators : List Char) (juxtaposition : Char) (builtins functions : List String)
      (index : String)
  | previous (value : Option Float)
  | binding (value : Option Float)
  | size (size : Nat)
  | cleared (wasEmpty : Bool)
  | angle (unit : Angle)
  | registered
  | steps (steps : List (Answer × Context))

namespace Answer

/-- The answer to a source that should be a formula. -/
def ofParse (source : String) (answer : Expr → Answer) : Except Fault Expr → Answer
  | .ok e => answer e
  | .error fault => .error (.fault source fault)

/-- The answer that is a value or an error. -/
def ofValue : Except Error Float → Answer
  | .ok x => .value x
  | .error e => .error e

end Answer

namespace Request

/-- The answer to a registration. -/
def registration (s : Session) : Except Rejection Session → Answer × Session
  | .ok s => (.registered, s)
  | .error rejection => (.rejection rejection, s)

mutual

/-- Answers a request. -/
def answer : Request → Session → Answer × Session
  | tokenize source asked, s =>
    match Token.ofSource source with
    | .ok tokens => (.tokens tokens asked, s)
    | .error fault => (.error (.fault source fault), s)
  | parse source, s => (.ofParse source .tree (s.parse source), s)
  | parseTokens tokens source, s =>
    (.ofParse source .tree (Expr.ofTokens s.registry (Source.width source.toList) tokens), s)
  | depth source, s => (.ofParse source (fun e => .depth e.depth) (s.parse source), s)
  | evaluate source, s =>
    let r := s.evaluate source
    (.ofValue r.1, r.2)
  | typeset source, s =>
    match s.typeset source with
    | (.ok latex, s) => (.latex latex, s)
    | (.error error, s) => (.error error, s)
  | diagnose source, s =>
    match s.evaluate source with
    | (.ok x, s) => (.value x, s)
    | (.error error, s) => (.diagnosis error, s)
  | examine tree, s =>
    let typeset := s.typesetTree tree
    let evaluated := typeset.2.evaluateTree tree
    (.examined tree.depth typeset.1 evaluated.1 (tree.agrees tree), evaluated.2)
  | call function arguments, s =>
    let evaluated := s.call function arguments
    match function.form with
    | none => (.called evaluated.1 none, evaluated.2)
    | some form =>
      let typeset := evaluated.2.typesetCall form arguments
      (.called evaluated.1 (some typeset.1), typeset.2)
  | operator symbol left right leftText rightText, s =>
    match Operator.find? symbol with
    | none => (.noOperator, s)
    | some op => (.operator op (op.apply left right) (op.typeset leftText rightText), s)
  | write x, s => (.text (Spelling.answer.write x), s)
  | toRadians x, s => (.value (s.angle.toRadians x), s)
  | pointer source place, s => (.text (Source.pointer source place), s)
  | arity number counts, s =>
    match Arity.ofInt number with
    | .ok accepted => (.arity accepted (counts.map accepted.accepts), s)
    | .error rejection => (.rejection rejection, s)
  | lookUp name, s => (.entries (s.registry.function? name) (s.registry.constant? name), s)
  | tables, s =>
    (.tables (Operator.table.map (·.symbol)) Operator.juxtaposition Builtin.names
      s.registry.functionNames Sum.index, s)
  | set name value, s =>
    (.previous (s.context.get? name), s.withContext (s.context.set name value))
  | get name, s => (.binding (s.context.get? name), s)
  | size, s => (.size s.context.size, s)
  | clear, s => (.cleared (s.context.size == 0), s.withContext .empty)
  | angle none, s => (.angle s.angle, s)
  | angle (some unit), s => (.angle unit, s.setAngle unit)
  | bind name value requests, s =>
    let r := answerAll requests (s.bind name value)
    (.steps r.1, r.2.release name (s.context.get? name))
  | registerConstant name value display, s =>
    registration s (s.registerConstant name value display)
  | registerFunction name number rule form, s =>
    match Arity.ofInt number with
    | .ok accepted => registration s (s.registerFunction name ⟨accepted, rule, form⟩)
    | .error rejection => (.rejection rejection, s)

/-- Answers requests one after the other, each with the context after it. -/
def answerAll : List Request → Session → List (Answer × Context) × Session
  | [], s => ([], s)
  | request :: requests, s =>
    let r := answer request s
    let rs := answerAll requests r.2
    ((r.1, r.2.context) :: rs.1, rs.2)

end

end Request

end Formula
