import Formula.Operator
import Formula.Registry
import Formula.Token

/-!
# The formula of a row of tokens

Formulas are read by precedence climbing:

    binary p  := unary chain p
    chain p   := ((operator of precedence at least p | nothing) binary p')*
    unary     := (- | +) unary | primary
    primary   := literal | variable | constant | function ( arguments ) | ( binary 0 )
    arguments := (binary 0 (, binary 0)*)?

* A value directly after a value multiplies it; the operator between them is that of `*`.
* The right operand of an operator that groups to the left is read one precedence tighter (`p'`), so
  that an equal operator after it belongs to the chain.
* A sign binds tighter than any operator, so `-2^2` is the square of `-2`.
* Functions and constants are looked up while reading. The name of a function is looked up before its
  arguments are read and their number is checked after.

Every step hands on fewer tokens than it was given (`Reading.fewer`), or for `chain`, not more. So
the number of tokens, with the order `primary < unary < binary < chain` among calls on the same
tokens, bounds the recursion.
-/

namespace Formula

/-- What a step of reading hands on: a value, and the tokens left over, fewer than `bound`. -/
structure Reading (α : Type) (bound : Nat) where
  value : α
  rest : List Token
  fewer : rest.length < bound

/-- The same result under a larger bound. -/
def Reading.widen {α : Type} {m n : Nat} (h : m ≤ n) (r : Reading α m) : Reading α n :=
  ⟨r.value, r.rest, Nat.lt_of_lt_of_le r.fewer h⟩

/-- How a token continues a formula after a complete operand: the operator, and whether the token
    writes it. -/
structure Joint where
  operator : Operator
  written : Bool

namespace Joint

/-- The joint that a token makes. A token that begins a value makes an unwritten multiplication. -/
def ofToken? (token : Token) : Option Joint :=
  if token.startsOperand then
    (Operator.find? Operator.juxtaposition).map fun operator => ⟨operator, false⟩
  else (token.symbol?.bind Operator.find?).map fun operator => ⟨operator, true⟩

/-- The tokens at which the right operand begins. -/
def operandTokens (joint : Joint) (token : Token) (rest : List Token) : List Token :=
  if joint.written then rest else token :: rest

theorem operandTokens_length_le (joint : Joint) (token : Token) (rest : List Token) :
    (joint.operandTokens token rest).length ≤ rest.length + 1 := by
  unfold operandTokens
  split <;> simp

end Joint

namespace Expr

/-! ## 1. Steps without recursion -/

/-- The fault of a token that cannot stand where it is. -/
def unexpected (token : Token) : Fault := ⟨.unexpectedToken token.text, token.position⟩

/-- The variable of a token: `$x` reads the binding of `x`, while a name under `#` keeps the sigil,
    so that the two never meet. -/
def variableName (text : String) : String :=
  match text.toList with
  | '$' :: name => String.ofList name
  | _ => text

/-- The number of a literal. -/
def ofLiteral (token : Token) : Except Fault Expr :=
  match Double.read token.text with
  | .ok value => .ok (.number value token.text)
  | .error _ => .error ⟨.malformedLiteral token.text, token.position⟩

/-- The constant of an identifier. -/
def ofName (registry : Registry) (token : Token) : Except Fault Expr :=
  match registry.constant? token.text with
  | some found => .ok (.constant token.text found.value)
  | none => .error ⟨.unknownConstant token.text, token.position⟩

/-- A leaf of one token, in front of the tokens left over. -/
def leaf (rest : List Token) : Except Fault Expr → Except Fault (Reading Expr (rest.length + 1))
  | .ok e => .ok ⟨e, rest, Nat.lt_succ_self _⟩
  | .error fault => .error fault

/-! ## 2. Precedence climbing -/

mutual

/-- Reads an operand with the signs before it. -/
def readUnary (registry : Registry) (stop : Nat) (tokens : List Token) :
    Except Fault (Reading Expr tokens.length) :=
  match tokens with
  | [] => .error ⟨.unexpectedEnd, stop⟩
  | token :: rest =>
    if token.isSymbol '-' then
      match readUnary registry stop rest with
      | .error fault => .error fault
      | .ok e => .ok ⟨.negation e.value, e.rest, Nat.lt_succ_of_lt e.fewer⟩
    else if token.isSymbol '+' then
      match readUnary registry stop rest with
      | .error fault => .error fault
      | .ok e => .ok (e.widen (Nat.le_succ _))
    else readPrimary registry stop token rest
termination_by 4 * tokens.length + 1
decreasing_by all_goals simp only [List.length_cons]; omega

/-- Reads a value that begins with the given token. -/
def readPrimary (registry : Registry) (stop : Nat) (token : Token) (rest : List Token) :
    Except Fault (Reading Expr (rest.length + 1)) :=
  match token.kind with
  | .literal => leaf rest (ofLiteral token)
  | .var => leaf rest (.ok (.var (variableName token.text)))
  | .comma => .error (unexpected token)
  | .operator =>
    if token.isSymbol '(' then
      match readBinary registry stop 0 rest with
      | .error fault => .error fault
      | .ok ⟨_, [], _⟩ => .error ⟨.unclosedParenthesis, stop⟩
      | .ok ⟨e, closing :: after, h⟩ =>
        if closing.isSymbol ')' then .ok ⟨e, after, by simp only [List.length_cons] at h; omega⟩
        else .error (unexpected closing)
    else .error (unexpected token)
  | .identifier =>
    match rest with
    | [] => leaf [] (ofName registry token)
    | next :: after =>
      if next.isSymbol '(' then
        match registry.function? token.text with
        | none => .error ⟨.unknownFunction token.text, token.position⟩
        | some function =>
          match readArguments registry stop after with
          | .error fault => .error fault
          | .ok ⟨arguments, left, h⟩ =>
            if function.arity.accepts arguments.length then
              .ok ⟨.call token.text arguments, left, by simp only [List.length_cons]; omega⟩
            else
              .error ⟨.wrongArgumentCount token.text function.arity arguments.length,
                token.position⟩
      else leaf (next :: after) (ofName registry token)
termination_by 4 * rest.length + 4
decreasing_by all_goals (try simp only [List.length_cons]); omega

/-- Reads arguments up to and with the closing parenthesis. -/
def readArguments (registry : Registry) (stop : Nat) (tokens : List Token) :
    Except Fault (Reading (List Expr) tokens.length) :=
  match tokens with
  | [] => readItems registry stop []
  | token :: rest =>
    if token.isSymbol ')' then .ok ⟨[], rest, Nat.lt_succ_self _⟩
    else readItems registry stop (token :: rest)
termination_by 4 * tokens.length + 4
decreasing_by all_goals simp only [List.length_cons, List.length_nil]; omega

/-- Reads at least one argument. -/
def readItems (registry : Registry) (stop : Nat) (tokens : List Token) :
    Except Fault (Reading (List Expr) tokens.length) :=
  match readBinary registry stop 0 tokens with
  | .error fault => .error fault
  | .ok ⟨_, [], _⟩ => .error ⟨.unclosedParenthesis, stop⟩
  | .ok ⟨e, token :: rest, h⟩ =>
    have hrest : rest.length < tokens.length := by simp only [List.length_cons] at h; omega
    if token.isSymbol ')' then .ok ⟨[e], rest, hrest⟩
    else if token.kind = .comma then
      match readItems registry stop rest with
      | .error fault => .error fault
      | .ok es => .ok ⟨e :: es.value, es.rest, Nat.lt_trans es.fewer hrest⟩
    else .error (unexpected token)
termination_by 4 * tokens.length + 3
decreasing_by all_goals omega

/-- Reads a formula whose operators outside of brackets have at least a given precedence. -/
def readBinary (registry : Registry) (stop : Nat) (weakest : Nat) (tokens : List Token) :
    Except Fault (Reading Expr tokens.length) :=
  match readUnary registry stop tokens with
  | .error fault => .error fault
  | .ok ⟨left, rest, h⟩ =>
    match readChain registry stop weakest left rest with
    | .error fault => .error fault
    | .ok e => .ok (e.widen h)
termination_by 4 * tokens.length + 2
decreasing_by all_goals omega

/-- Reads the operators and operands that continue a formula. -/
def readChain (registry : Registry) (stop : Nat) (weakest : Nat) (left : Expr)
    (tokens : List Token) : Except Fault (Reading Expr (tokens.length + 1)) :=
  match tokens with
  | [] => .ok ⟨left, [], Nat.lt_succ_self _⟩
  | token :: rest =>
    match Joint.ofToken? token with
    | none => .ok ⟨left, token :: rest, Nat.lt_succ_self _⟩
    | some joint =>
      if joint.operator.precedence < weakest then .ok ⟨left, token :: rest, Nat.lt_succ_self _⟩
      else
        have hlen := joint.operandTokens_length_le token rest
        match readBinary registry stop joint.operator.rightPrecedence
            (joint.operandTokens token rest) with
        | .error fault => .error fault
        | .ok ⟨right, after, h⟩ =>
          match readChain registry stop weakest (.binary joint.operator.symbol left right)
              after with
          | .error fault => .error fault
          | .ok e => .ok (e.widen (by simp only [List.length_cons]; omega))
termination_by 4 * tokens.length + 3
decreasing_by all_goals simp only [List.length_cons]; omega

end

/-! ## 3. Whole formulas -/

/-- The formula of a row of tokens. The source ends at byte `stop`. -/
def ofTokens (registry : Registry) (stop : Nat) (tokens : List Token) : Except Fault Expr :=
  match readBinary registry stop 0 tokens with
  | .error fault => .error fault
  | .ok ⟨e, [], _⟩ => .ok e
  | .ok ⟨_, token :: _, _⟩ => .error (unexpected token)

/-- The formula of a source. -/
def ofSource (registry : Registry) (source : String) : Except Fault Expr :=
  match Token.ofSource source with
  | .error fault => .error fault
  | .ok tokens => ofTokens registry (Source.width source.toList) tokens

end Expr

end Formula
