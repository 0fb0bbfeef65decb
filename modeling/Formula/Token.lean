import Formula.Error

/-!
# Tokens

A token is a piece of a source with its kind and the byte offset where it begins. Tokens may also be
made by hand, with any text, so the two tests on operator tokens look at the text.

A source is cut into lexemes, with blanks between them left out. At each place the longest lexeme
that can begin there is taken:

* a symbol is one of `+ - * / % ^ ( )`, and a comma stands for itself;
* a literal is a digit and then digits, points and digit separators `_`, with an exponent if `e`, an
  optional sign and a digit follow;
* an identifier is an ASCII letter and then ASCII letters and digits;
* a variable is one of the sigils `$` and `#` with the one character after it, whatever that is.

`lexeme?` finds the lexeme at the beginning of a text and `scan` strings lexemes together. A
character that begins no lexeme is a fault, and so is a sigil at the end.
-/

namespace Formula

/-! ## 1. Tokens -/

namespace Token

/-- What a token is. -/
inductive Kind
  /-- an operator or a parenthesis -/
  | operator
  /-- a number -/
  | literal
  /-- the name of a constant or a function -/
  | identifier
  /-- the comma between arguments -/
  | comma
  /-- a sigil and the one character that it marks as a variable -/
  | var
  deriving DecidableEq, Repr

end Token

/-- A token of a source. The text of a literal is without its digit separators. -/
structure Token where
  text : String
  kind : Token.Kind
  position : Nat
  deriving DecidableEq, Repr

namespace Token

/-- Whether the token is the operator or parenthesis written with one character of one byte. -/
def isSymbol (token : Token) (symbol : Char) : Bool :=
  decide (token.kind = .operator ∧ token.text.toList = [symbol] ∧ symbol.utf8Size = 1)

/-- The first character of an operator token. -/
def symbol? (token : Token) : Option Char :=
  if token.kind = .operator then token.text.toList.head? else none

/-- Whether the token begins a value, so that it multiplies a value directly before it. -/
def startsOperand (token : Token) : Bool :=
  match token.kind with
  | .literal | .identifier | .var => true
  | .operator => token.isSymbol '('
  | .comma => false

/-! ## 2. Character classes -/

/-- The characters that separate lexemes and are left out. -/
def isBlank (c : Char) : Bool := c ∈ [' ', '\t', '\n', '\x0b', '\x0c', '\r']

/-- The characters that are operators or parentheses. -/
def isOperator (c : Char) : Bool := c ∈ ['+', '-', '*', '/', '%', '^', '(', ')']

/-- The characters that mark a variable. -/
def isSigil (c : Char) : Bool := c ∈ ['$', '#']

/-- The characters that continue the digits of an exponent. -/
def continuesExponent (c : Char) : Bool := c.isDigit || c == '_'

/-- The characters that continue the digits of a literal. -/
def continuesLiteral (c : Char) : Bool := c.isDigit || c == '_' || c == '.'

/-! ## 3. Lexemes -/

/-- The exponent at the beginning of a text and the text after it. Without a digit after the `e` and
    its sign there is no exponent. -/
def splitExponent (text : List Char) : List Char × List Char :=
  match text with
  | 'e' :: c :: rest =>
    if c.isDigit then
      ('e' :: c :: rest.takeWhile continuesExponent, rest.dropWhile continuesExponent)
    else if c = '+' ∨ c = '-' then
      match rest with
      | d :: rest =>
        if d.isDigit then
          ('e' :: c :: d :: rest.takeWhile continuesExponent, rest.dropWhile continuesExponent)
        else ([], text)
      | [] => ([], text)
    else ([], text)
  | _ => ([], text)

/-- The lexeme at the beginning of a text, with its kind, and the text after it. -/
def lexeme? : List Char → Option (Kind × List Char × List Char)
  | [] => none
  | c :: text =>
    if isOperator c then some (.operator, [c], text)
    else if c.isDigit then
      let split := splitExponent (text.dropWhile continuesLiteral)
      some (.literal, c :: text.takeWhile continuesLiteral ++ split.1, split.2)
    else if c = ',' then some (.comma, [c], text)
    else if isSigil c then
      match text with
      | [] => none
      | d :: text => some (.var, [c, d], text)
    else if c.isAlpha then
      some (.identifier, c :: text.takeWhile Char.isAlphanum, text.dropWhile Char.isAlphanum)
    else none

theorem splitExponent_append (text : List Char) :
    (splitExponent text).1 ++ (splitExponent text).2 = text := by
  unfold splitExponent
  repeat' split
  all_goals simp

/-- **A lexeme is what its text begins with, and it is not empty.** -/
theorem lexeme?_append {text lexeme rest : List Char} {kind : Kind}
    (h : lexeme? text = some (kind, lexeme, rest)) : lexeme ≠ [] ∧ lexeme ++ rest = text := by
  unfold lexeme? at h
  split at h
  · simp at h
  · rename_i c text
    have hs := splitExponent_append (text.dropWhile continuesLiteral)
    repeat' split at h
    all_goals simp only [Option.some.injEq, Prod.mk.injEq, reduceCtorEq] at h
    all_goals obtain ⟨_, rfl, rfl⟩ := h
    all_goals simp [hs]

theorem lexeme?_shorter {text lexeme rest : List Char} {kind : Kind}
    (h : lexeme? text = some (kind, lexeme, rest)) : rest.length < text.length := by
  obtain ⟨hne, rfl⟩ := lexeme?_append h
  have := List.length_pos_iff.2 hne
  simp only [List.length_append]
  omega

/-! ## 4. Scanning -/

/-- The token of a lexeme. -/
def ofLexeme (kind : Kind) (lexeme : List Char) (position : Nat) : Token :=
  let text := if kind = .literal then lexeme.filter (· ≠ '_') else lexeme
  ⟨String.ofList text, kind, position⟩

/-- The tokens of a text that begins at `position` of its source. -/
def scan (position : Nat) (text : List Char) : Except Fault (List Token) :=
  match text with
  | [] => .ok []
  | c :: rest =>
    if isBlank c then scan (position + c.utf8Size) rest
    else
      match _h : lexeme? (c :: rest) with
      | none => .error ⟨.unknownCharacter c, position⟩
      | some (kind, lexeme, after) =>
        match scan (position + Source.width lexeme) after with
        | .error fault => .error fault
        | .ok tokens => .ok (ofLexeme kind lexeme position :: tokens)
termination_by text.length
decreasing_by
  · simp
  · exact lexeme?_shorter _h

/-- The tokens of a source. -/
def ofSource (source : String) : Except Fault (List Token) := scan 0 source.toList

end Token

end Formula
