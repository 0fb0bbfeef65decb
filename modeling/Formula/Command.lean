import Formula.Session
import Formula.Terminal

/-!
# The command line

The arguments `[--var NAME=VALUE]... [-d] [-l] [-v]... [--] EXPRESSION` ask for the value of an
expression, or with `-l` for its typeset form. `Command.run` is the whole program as a function from
arguments to what is written and the exit code.

* Arguments are read one at a time. The value of `--var` is only checked when the next argument that
  is understood comes, or at the end, so an argument that is not understood is reported first.
* Exit code 2 is for arguments that make no sense, 1 for an expression without an answer.
* A complaint about arguments quotes them without control sequences (`Terminal.plain`); an expression
  is written as it was given.
* Log records go to the error output: with `-vv` those of level `DEBUG`, with `-vvv` all.
-/

namespace Formula

/-! ## 1. Blanks

The characters that count as blank around a value given on the command line: those with the Unicode
property White_Space. -/

namespace Blank

/-- The blank characters. -/
def table : List Nat :=
  [0x9, 0xa, 0xb, 0xc, 0xd, 0x20, 0x85, 0xa0, 0x1680, 0x2000, 0x2001, 0x2002, 0x2003, 0x2004, 0x2005,
    0x2006, 0x2007, 0x2008, 0x2009, 0x200a, 0x2028, 0x2029, 0x202f, 0x205f, 0x3000]

/-- Whether a character is blank. -/
def isBlank (c : Char) : Bool := c.toNat ∈ table

/-- A text without the blanks at its ends. -/
def trim (text : List Char) : List Char :=
  ((text.dropWhile isBlank).reverse.dropWhile isBlank).reverse

end Blank

namespace Command

/-! ## 2. Errors of usage -/

/-- Why the value of `--var` is no binding. -/
inductive BadBinding
  | noEquals (text : String)
  | badValue (name : String) (reason : NotANumber)
  deriving DecidableEq, Repr

def BadBinding.message : BadBinding → String
  | noEquals text => s!"expected NAME=VALUE, found '{text}'"
  | badValue name reason => s!"invalid value for '{name}': {reason.message}"

/-- Why arguments make no sense. -/
inductive Misuse
  | missingExpression
  | unexpectedArgument (text : String)
  | badBinding (text : String) (reason : BadBinding)
  | missingBinding
  | repeatedFlag (flag : String)
  | unexpectedValue (flag value : String)
  deriving DecidableEq, Repr

/-- What is wrong, with `more` after it, in runs of text that differ in style from run to run. -/
def Misuse.runs (more : String) : Misuse → List String
  | missingExpression =>
    ["the following required arguments were not provided:\n  ", "<EXPRESSION>", more]
  | unexpectedArgument text => ["unexpected argument '", text, "' found" ++ more]
  | badBinding text reason =>
    ["invalid value '", text, "' for '", "--var <NAME=VALUE>", "': " ++ reason.message ++ more]
  | missingBinding =>
    ["a value is required for '", "--var <NAME=VALUE>", "' but none was supplied" ++ more]
  | repeatedFlag flag => ["the argument '", flag, "' cannot be used multiple times" ++ more]
  | unexpectedValue flag value =>
    ["unexpected value '", value, "' for '", flag, "' found; no more were expected" ++ more]

/-- The complaint, and below it where to find help. Every change of style ends a control sequence that
    is still open, so each run is stripped by itself. -/
def Misuse.message (misuse : Misuse) : String :=
  let runs := misuse.runs "\n\nFor more information, try '" ++ ["--help", "'.\n"]
  "error: " ++ String.join (runs.map Terminal.plain)

/-- Why the reading of arguments stops early. -/
inductive Stop
  /-- Help was asked for. -/
  | help
  /-- The version was asked for. -/
  | version
  | misuse (misuse : Misuse)
  deriving DecidableEq, Repr

/-! ## 3. Reading arguments -/

/-- Where the reading of `--var` stands. -/
inductive Pending
  | nothing
  /-- The next argument is the value. -/
  | awaited
  /-- The value is there and not yet checked. -/
  | given (text : String)
  deriving DecidableEq, Repr

/-- What has been read of the arguments. -/
structure Options where
  bindings : List (String × Float) := []
  degrees : Bool := false
  latex : Bool := false
  verbosity : Nat := 0
  expression : Option String := none
  pending : Pending := .nothing

/-- The options without a value. -/
inductive Flag
  | degrees
  | latex
  | verbose
  | help
  | version
  deriving DecidableEq, Repr

namespace Flag

/-- The flag as it is named in complaints; the dots say that it may be repeated. -/
def text : Flag → String
  | degrees => "--degrees"
  | latex => "--latex"
  | verbose => "--verbose..."
  | help => "--help"
  | version => "--version"

def ofLetter? : Char → Option Flag
  | 'd' => some degrees
  | 'l' => some latex
  | 'v' => some verbose
  | 'h' => some help
  | 'V' => some version
  | _ => none

def ofName? : String → Option Flag
  | "degrees" => some degrees
  | "latex" => some latex
  | "verbose" => some verbose
  | "help" => some help
  | "version" => some version
  | _ => none

end Flag

/-- Reads `NAME=VALUE`, cut at the first equals sign. Blanks around either part do not count. -/
def readBinding (text : String) : Except BadBinding (String × Float) :=
  match text.toList.dropWhile (· ≠ '=') with
  | [] => .error (.noEquals text)
  | _ :: value =>
    let name := text.toList.takeWhile (· ≠ '=')
    match Double.read (String.ofList (Blank.trim value)) with
    | .ok x => .ok (String.ofList (Blank.trim name), x)
    | .error reason => .error (.badValue (String.ofList name) reason)

namespace Options

/-- Adds a binding. -/
def bind (o : Options) (text : String) : Except Stop Options :=
  match readBinding text with
  | .ok binding => .ok { o with bindings := o.bindings ++ [binding] }
  | .error reason => .error (.misuse (.badBinding text reason))

/-- Checks what is pending of `--var`. -/
def settle (o : Options) : Except Stop Options :=
  match o.pending with
  | .nothing => .ok o
  | .awaited => .error (.misuse .missingBinding)
  | .given text => bind { o with pending := .nothing } text

/-- Sets a flag. -/
def set (o : Options) (flag : Flag) : Except Stop Options :=
  match flag with
  | .degrees =>
    if o.degrees then .error (.misuse (.repeatedFlag flag.text)) else .ok { o with degrees := true }
  | .latex =>
    if o.latex then .error (.misuse (.repeatedFlag flag.text)) else .ok { o with latex := true }
  | .verbose => .ok { o with verbosity := o.verbosity + 1 }
  | .help => .error .help
  | .version => .error .version

/-- Reads an argument that is no option. -/
def readExpression (o : Options) (text : String) : Except Stop Options :=
  match o.expression with
  | some _ => .error (.misuse (.unexpectedArgument text))
  | none => o.settle.map fun o => { o with expression := some text }

/-- Reads a long option, without its two dashes and cut at its first equals sign. -/
def readLong (o : Options) (name : String) (value : Option String) : Except Stop Options :=
  if name = "var" then
    match value with
    | some text => o.settle.bind fun o => o.bind text
    | none => o.settle.map fun o => { o with pending := .awaited }
  else
    match Flag.ofName? name, value with
    | some flag, none => o.settle.bind fun o => o.set flag
    | some flag, some value => .error (.misuse (.unexpectedValue flag.text value))
    | none, _ => .error (.misuse (.unexpectedArgument ("--" ++ name)))

/-- Reads short options, one letter each. -/
def readShort (o : Options) : List Char → Except Stop Options
  | [] => .ok o
  | c :: letters =>
    match Flag.ofLetter? c with
    | some flag => (o.settle.bind fun o => o.set flag).bind fun o => readShort o letters
    | none => .error (.misuse (.unexpectedArgument (String.ofList ['-', c])))

/-- Reads arguments after `--`, none of which is an option. -/
def readRest (o : Options) : List String → Except Stop Options
  | [] => o.settle
  | text :: rest => (o.readExpression text).bind fun o => readRest o rest

/-- Reads arguments. -/
def read (o : Options) : List String → Except Stop Options
  | [] => o.settle
  | text :: rest =>
    match text.toList with
    | ['-', '-'] => o.readRest rest
    | '-' :: '-' :: option =>
      let name := String.ofList (option.takeWhile (· ≠ '='))
      let value := (option.dropWhile (· ≠ '=')).tail?.map String.ofList
      (o.readLong name value).bind fun o => read o rest
    | '-' :: c :: letters => (o.readShort (c :: letters)).bind fun o => read o rest
    | _ =>
      if o.pending = .awaited then read { o with pending := .given text } rest
      else (o.readExpression text).bind fun o => read o rest

end Options

/-! ## 4. Running -/

/-- What a run writes, and its exit code. -/
structure Report where
  code : Nat
  output : String
  errors : String
  deriving DecidableEq, Repr

/-- Whether a run of the given verbosity shows records of a level. -/
def shows (verbosity : Nat) : Level → Bool
  | .debug => decide (2 ≤ verbosity)
  | .trace => decide (3 ≤ verbosity)

/-- The lines of the records that are shown. -/
def logLines (verbosity : Nat) (events : List Event) : String :=
  String.join ((events.filter fun e => shows verbosity e.level).map fun e =>
    "[" ++ e.level.text ++ "] " ++ e.text ++ "\n")

/-- Answers an expression. -/
def answer (o : Options) (expression : String) : Report :=
  let s := Session.start o.bindings (if o.degrees then some .degrees else none)
  let (result, s) :=
    if o.latex then s.typeset expression
    else
      match s.evaluate expression with
      | (.ok x, s) => (.ok (Spelling.answer.write x), s)
      | (.error error, s) => (.error error, s)
  let log := logLines o.verbosity s.events
  match result with
  | .ok text => ⟨0, text ++ "\n", log⟩
  | .error error => ⟨1, "", log ++ error.message ++ "\n"⟩

/-- The version line. -/
def version : String := "mathtex 0.1.0\n"

/-- What the options are. -/
def help : String := String.intercalate "\n"
  [ "A small math-expression language: tokenizer, precedence parser, evaluator and LaTeX renderer.",
    "",
    "Usage: mathtex [OPTIONS] <EXPRESSION>",
    "",
    "Arguments:",
    "  <EXPRESSION>  ",
    "",
    "Options:",
    "      --var <NAME=VALUE>  Binds a variable read as `$name`, e.g. `--var x=2.5`. May be repeated",
    "  -d, --degrees           Interprets trigonometric arguments in degrees instead of radians",
    "  -l, --latex             Prints the LaTeX form of the expression instead of its value",
    "  -v, --verbose...        Raises the log level on stderr; repeat for more detail",
    "  -h, --help              Print help",
    "  -V, --version           Print version",
    "" ]

/-- The program. -/
def run (arguments : List String) : Report :=
  match Options.read {} arguments with
  | .error .help => ⟨0, help, ""⟩
  | .error .version => ⟨0, version, ""⟩
  | .error (.misuse misuse) => ⟨2, "", misuse.message⟩
  | .ok o =>
    match o.expression with
    | none => ⟨2, "", Misuse.missingExpression.message⟩
    | some expression => answer o expression

end Command

end Formula
