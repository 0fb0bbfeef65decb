/-!
# Text without control sequences

A terminal takes some characters as commands: control characters, and sequences that begin with the
escape character. This file removes them and leaves what a terminal would show.

    sequence := ESC intermediate* final
              | ESC [ (parameter | intermediate)* final
              | ESC ] command BEL
              | ESC P (parameter | intermediate)* final string ST
              | ESC (X | ^ | _) string ST

* `step` reads one character: it says which sequence is open after it and whether it is shown.
* A sequence may be cut short. The escape character begins a new one at any place, and the characters
  `CAN` and `SUB` end one.
* A blank control such as a line feed only interrupts a sequence that is not a string. What follows is
  shown; the next control character that is not blank takes the sequence up again, and a character
  outside ASCII gives it up.
-/

namespace Formula.Terminal

/-! ## 1. Characters -/

/-- The control characters of ASCII. -/
def isControl (c : Char) : Bool := decide (c.toNat < 0x20) || c.toNat == 0x7f

/-- The control characters that move on without a command. -/
def isBlankControl (c : Char) : Bool := c ∈ ['\t', '\n', '\x0c', '\r']

/-- The characters that are shown where no sequence is open. -/
def isShown (c : Char) : Bool := !isControl c || isBlankControl c

/-- Whether a character ends a control string. What does is the byte `0x9c`, also where it is part of
    a longer character. -/
def endsString (c : Char) : Bool := (String.utf8EncodeChar c).contains 0x9c

/-! ## 2. Sequences -/

/-- The sequence that is open. -/
inductive Sequence
  /-- None. -/
  | closed
  /-- The escape character, and nothing after it yet. -/
  | escape
  /-- A short sequence with an intermediate. -/
  | intermediate
  /-- A control sequence. -/
  | control
  /-- A command to the operating system. -/
  | command
  /-- A device string, in front of its parameters. -/
  | device
  /-- A device string, in its parameters. -/
  | deviceParameter
  /-- A device string, in its intermediates. -/
  | deviceIntermediate
  /-- A string that is not shown. -/
  | string
  deriving DecidableEq, Repr

namespace Sequence

/-- The sequence that is open after a character. The characters that act in every sequence are no
    business of this function. -/
def next (s : Sequence) (c : Char) : Sequence :=
  let n := c.toNat
  let foreign := isControl c || decide (0x7f < n)
  match s with
  | closed => closed
  | escape =>
    if foreign then escape
    else if n < 0x30 then intermediate
    else if c = '[' then control
    else if c = ']' then command
    else if c = 'P' then device
    else if c = 'X' ∨ c = '^' ∨ c = '_' then string
    else closed
  | intermediate => if foreign ∨ n < 0x30 then intermediate else closed
  | control => if foreign ∨ n < 0x40 then control else closed
  | command => if c = '\x07' then closed else command
  | device =>
    if foreign then device
    else if n < 0x30 then deviceIntermediate
    else if n < 0x40 then deviceParameter
    else string
  | deviceParameter =>
    if foreign then deviceParameter
    else if n < 0x30 then deviceIntermediate
    else if n < 0x3c then deviceParameter
    else string
  | deviceIntermediate => if foreign ∨ n < 0x30 then deviceIntermediate else string
  | string => if endsString c then closed else string

/-- Whether a blank control interrupts a sequence. -/
def yields : Sequence → Bool
  | escape | intermediate | control => true
  | _ => false

end Sequence

/-- Where a text stands: the sequence that is open, and whether it is interrupted. -/
structure State where
  sequence : Sequence := .closed
  interrupted : Bool := false
  deriving DecidableEq, Repr

/-- Reads a character: the state after it, and whether it is shown. -/
def step (s : State) (c : Char) : State × Bool :=
  if c = '\x1b' then (⟨.escape, false⟩, false)
  else if c = '\x18' ∨ c = '\x1a' then (⟨.closed, false⟩, false)
  else if s.interrupted && isShown c then
    (if c.toNat ≤ 0x7f then s else ⟨.closed, false⟩, true)
  else if s.sequence.yields && isBlankControl c then (⟨s.sequence, true⟩, true)
  else (⟨s.sequence.next c, false⟩, s.sequence == .closed && isShown c)

/-! ## 3. Texts -/

/-- The characters of a text that are shown. -/
def strip : State → List Char → List Char
  | _, [] => []
  | s, c :: text =>
    if (step s c).2 then c :: strip (step s c).1 text else strip (step s c).1 text

/-- A text without control sequences. -/
def plain (text : String) : String := String.ofList (strip {} text.toList)

end Formula.Terminal
