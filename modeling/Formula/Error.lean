import Formula.Decimal
import Formula.Source

/-!
# What can go wrong

* A `Rejection` is the reason for refusing to register a name. A name is registered once and for all.
* A `Failure` is the reason why a formula has no value. It is arithmetic if an operator refused its
  operands; every other failure comes from a call, or from a tree that no source writes.
* A `Fault` is what is wrong with a text that should be a formula, a cause and a place. `Fault.line`
  names it in one line, and `Fault.message` adds the source with a caret under the place.
* An `Error` is why a source has no value: it is no formula, or the formula has no value. It can be told
  as a chain of messages, from the whole down to its cause.
-/

namespace Formula

/-! ## 1. Rejections of names -/

/-- Why a registration is refused. -/
inductive Rejection
  | duplicateName (name : String)
  | emptyName
  | invalidName (name : String)
  | invalidArity (arity : Int)
  deriving DecidableEq, Repr

namespace Rejection

def message : Rejection → String
  | duplicateName name => s!"Name '{name}' is already registered."
  | emptyName => "A registered name cannot be empty."
  | invalidName name =>
    s!"Name '{name}' must start with an ASCII letter and contain only letters and digits."
  | invalidArity arity =>
    s!"Arity {arity} is invalid, it should be -1 (variadic), 0, or a positive integer."

end Rejection

/-! ## 2. Arities

How many arguments a function takes: an exact number, or any. -/

/-- The argument counts a function accepts. -/
inductive Arity
  | exactly (count : Nat)
  | variadic
  deriving DecidableEq, Repr

namespace Arity

/-- Whether a number of arguments is accepted. -/
def accepts : Arity → Nat → Bool
  | exactly count, n => n == count
  | variadic, _ => true

@[simp] theorem accepts_exactly (count n : Nat) : (exactly count).accepts n = (n == count) := rfl

@[simp] theorem accepts_variadic (n : Nat) : variadic.accepts n = true := rfl

/-- The arity as it is named in messages. -/
def text : Arity → String
  | exactly 1 => "1 argument"
  | exactly count => s!"{count} arguments"
  | variadic => "any number of arguments"

/-- The arity that a number stands for: -1 for any number of arguments, and a count for itself. -/
def ofInt : Int → Except Rejection Arity
  | .ofNat count => .ok (exactly count)
  | .negSucc 0 => .ok variadic
  | n => .error (.invalidArity n)

end Arity

/-! ## 3. Failures of an evaluation -/

/-- Why a function refused its arguments. -/
inductive Refusal
  /-- a choice among no arguments -/
  | noArgument
  /-- a sum with a wrong number of arguments -/
  | sumArguments (found : Nat)
  /-- a sum up to a bound that has to be evaluated -/
  | symbolicBound
  /-- a sum up to infinity or up to what is not a number -/
  | endNotFinite
  /-- a sum from infinity or from what is not a number -/
  | startNotFinite
  /-- an argument that was asked for and not supplied -/
  | missingArgument (index : Nat)
  /-- a function without values -/
  | always
  /-- a reason that a function gives in its own words -/
  | stated (message : String)
  deriving DecidableEq, Repr

def Refusal.text : Refusal → String
  | noArgument => "expects at least one argument"
  | sumArguments found => s!"expects 2 or 3 arguments, but {found} were given"
  | symbolicBound => "the end bound must be a number literal, cannot iterate symbolically"
  | endNotFinite => "the end bound must be finite"
  | startNotFinite => "the start bound must be finite"
  | missingArgument index => s!"missing argument {index}"
  | always => "always"
  | stated message => message

/-- Why a formula has no value. -/
inductive Failure
  | divisionByZero (dividend : Float)
  | remainderByZero (dividend : Float)
  | refused (function : String) (reason : Refusal)
  | wrongArgumentCount (name : String) (expected : Arity) (found : Nat)
  | unknownFunction (name : String)
  | unknownOperator (symbol : Char)
  deriving DecidableEq

namespace Failure

/-- Whether an operator refused its operands. -/
def isArithmetic : Failure → Bool
  | divisionByZero _ | remainderByZero _ => true
  | _ => false

def message : Failure → String
  | divisionByZero dividend =>
    s!"Arithmetic error: {Spelling.message.write dividend} / 0, the divisor cannot be 0."
  | remainderByZero dividend =>
    s!"Arithmetic error: {Spelling.message.write dividend} % 0, the divisor cannot be 0."
  | refused function reason => s!"Evaluation error in '{function}': {reason.text}."
  | wrongArgumentCount name expected found =>
    s!"Function '{name}' expects {expected.text}, but {found} were given."
  | unknownFunction name => s!"Unknown function '{name}'."
  | unknownOperator symbol => s!"Unknown operator '{symbol}'."

end Failure

/-! ## 4. Faults of a source -/

namespace Fault

/-- What is wrong. -/
inductive Cause
  | unknownCharacter (character : Char)
  | unexpectedToken (text : String)
  | unexpectedEnd
  | unclosedParenthesis
  | malformedLiteral (text : String)
  | unknownConstant (name : String)
  | unknownFunction (name : String)
  | wrongArgumentCount (name : String) (expected : Arity) (found : Nat)
  deriving DecidableEq, Repr

def Cause.text : Cause → String
  | unknownCharacter character => s!"Unknown symbol '{character}'."
  | unexpectedToken text => s!"Unexpected token: {text}."
  | unexpectedEnd => "Unexpected end of input."
  | unclosedParenthesis => "Expected closing parenthesis ')' but none found."
  | malformedLiteral text => s!"Invalid number literal '{text}'."
  | unknownConstant name => s!"Unknown constant '{name}'."
  | unknownFunction name => s!"Unknown function '{name}'."
  | wrongArgumentCount name expected found =>
    s!"Function '{name}' expects {expected.text}, but {found} were given."

end Fault

/-- What is wrong with a source, and the byte offset where it shows. -/
structure Fault where
  cause : Fault.Cause
  position : Nat
  deriving DecidableEq, Repr

namespace Fault

/-- The fault in one line. -/
def line (fault : Fault) : String := s!"Error at position {fault.position}: {fault.cause.text}"

/-- The source with a caret where the fault is. -/
def pointer (fault : Fault) (source : String) : String := Source.pointer source fault.position

/-- The line of the fault with the pointer below. -/
def message (fault : Fault) (source : String) : String := fault.line ++ "\n" ++ fault.pointer source

end Fault

/-! ## 5. Errors -/

/-- Why a source has no value. -/
inductive Error
  /-- The source is no formula. -/
  | fault (source : String) (fault : Fault)
  /-- The formula has no value. -/
  | failure (failure : Failure)
  deriving DecidableEq

namespace Error

/-- The error, with the source and a caret in it if the source is no formula. -/
def message : Error → String
  | fault source f => f.message source
  | failure f => f.message

/-- The messages of the error, of what is wrong with the source, and of the fault alone. A failure
    has no source to point into. -/
def chain : Error → List String
  | fault source f => [f.message source, f.message source, f.line]
  | failure f => [f.message, f.message]

/-- The source with a caret, if the source is no formula. -/
def pointer : Error → Option String
  | fault source f => some (f.pointer source)
  | failure _ => none

end Error

end Formula
