import Formula.Context
import Formula.Error

/-!
# The log

What happens on the way to an answer is recorded as events. An event knows its level and its text;
a log holds events with the latest first.
-/

namespace Formula

/-- How much detail a log record is. -/
inductive Level
  | debug
  | trace
  deriving DecidableEq, Repr

def Level.text : Level → String
  | debug => "DEBUG"
  | trace => "TRACE"

/-- Something worth recording. -/
inductive Event
  /-- A source was read as a formula of the given height. -/
  | parsed (source : String) (depth : Nat)
  /-- A name was bound for a while. -/
  | bound (name : String) (value : Float)
  /-- The binding of a name ended. -/
  | released (name : String)
  /-- A failure was turned into a value. -/
  | suppressed (failure : Failure)
  /-- A call could not be typeset, since its function is not registered. -/
  | untypeset (name : String)
  | constantRegistered (name : String) (value : Float)
  | functionRegistered (name : String) (arity : Arity)
  | angleSet (angle : Angle)
  deriving DecidableEq

namespace Event

def level : Event → Level
  | constantRegistered .. | functionRegistered .. | angleSet _ => .debug
  | _ => .trace

def text : Event → String
  | parsed source depth => s!"parsed '{source}' into a tree of depth {depth}"
  | bound name value => s!"bind transient {name} = {Spelling.message.write value}"
  | released name => s!"release transient {name}"
  | suppressed failure =>
    let kind := if failure.isArithmetic then "arithmetic" else "evaluation"
    s!"noerr suppressed {kind} failure: {failure.message}"
  | untypeset name => s!"no renderer for unknown function '{name}'"
  | constantRegistered name value =>
    s!"registered constant '{name}' = {Spelling.message.write value}"
  | functionRegistered name arity => s!"registered function '{name}' taking {arity.text}"
  | angleSet angle => s!"angle mode set to {angle.text}"

end Event

/-- Events, the latest first. -/
abbrev Log := List Event

/-- The events of a log in the order in which they happened. -/
def Log.inOrder (log : Log) : List Event := log.reverse

end Formula
