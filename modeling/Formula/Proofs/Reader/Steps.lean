import Formula.Expr.Parse

/-!
# The reader, step by step

`Formula.Expr` reads tokens by six functions whose results carry their own bound. Here the bound is
dropped: a step of the reader gives a value and the tokens left over, and nothing else.

* `unary`, `primary`, `arguments`, `items`, `binary` and `chain` are the six steps; each has one
  equation per shape of its input (`unary_cons`, `binary_eq`, …) that never mentions a bound.
* `unary_fewer` and its companions give the bound back where it is needed.
* `Closed` is induction along the calls of the reader: seven cases, each with the steps it calls.
-/

namespace Formula.Reader

/-- What a step of the reader gives. -/
abbrev Step (α : Type) := Except Fault (α × List Token)

/-- A result of reading without its bound. -/
def forget {α : Type} {n : Nat} : Except Fault (Reading α n) → Step α
  | .ok r => .ok (r.value, r.rest)
  | .error fault => .error fault

@[simp] theorem forget_ok {α : Type} {n : Nat} (r : Reading α n) :
    forget (.ok r) = .ok (r.value, r.rest) := rfl

theorem forget_fewer {α : Type} {n : Nat} {x : Except Fault (Reading α n)} {a : α}
    {rest : List Token} (h : forget x = .ok (a, rest)) : rest.length < n := by
  cases x with
  | error fault => cases h
  | ok r =>
    cases h
    exact r.fewer

variable (registry : Registry) (stop : Nat)

/-! ## 1. The steps -/

/-- Reads an operand with the signs before it. -/
def unary (tokens : List Token) : Step Expr := forget (Expr.readUnary registry stop tokens)

/-- Reads a value that begins with the given token. -/
def primary (token : Token) (rest : List Token) : Step Expr :=
  forget (Expr.readPrimary registry stop token rest)

/-- Reads arguments up to and with the closing parenthesis. -/
def arguments (tokens : List Token) : Step (List Expr) :=
  forget (Expr.readArguments registry stop tokens)

/-- Reads at least one argument. -/
def items (tokens : List Token) : Step (List Expr) := forget (Expr.readItems registry stop tokens)

/-- Reads a formula whose operators outside of brackets have at least a given precedence. -/
def binary (weakest : Nat) (tokens : List Token) : Step Expr :=
  forget (Expr.readBinary registry stop weakest tokens)

/-- Reads the operators and operands that continue a formula. -/
def chain (weakest : Nat) (left : Expr) (tokens : List Token) : Step Expr :=
  forget (Expr.readChain registry stop weakest left tokens)

/-! ## 2. What follows an operand -/

/-- A leaf of one token, in front of the tokens left over. -/
def leaf (rest : List Token) : Except Fault Expr → Step Expr
  | .ok e => .ok (e, rest)
  | .error fault => .error fault

theorem leaf_eq_map (rest : List Token) (x : Except Fault Expr) :
    leaf rest x = x.map fun e => (e, rest) := by
  cases x <;> rfl

/-- Closes a bracketed formula. -/
def close (stop : Nat) : Expr × List Token → Step Expr
  | (_, []) => .error ⟨.unclosedParenthesis, stop⟩
  | (e, token :: rest) =>
    if token.isSymbol ')' then .ok (e, rest) else .error (Expr.unexpected token)

/-- A call, once its arguments are read. -/
def finishCall (name : Token) (function : Function) : List Expr × List Token → Step Expr
  | (es, rest) =>
    if function.arity.accepts es.length then .ok (.call name.text es, rest)
    else .error ⟨.wrongArgumentCount name.text function.arity es.length, name.position⟩

/-- A call whose opening parenthesis is already taken. -/
def call (name : Token) (tokens : List Token) : Step Expr :=
  match registry.function? name.text with
  | none => .error ⟨.unknownFunction name.text, name.position⟩
  | some function => (arguments registry stop tokens).bind (finishCall name function)

/-- The rest of the arguments after one of them. -/
def nextItem : Expr × List Token → Step (List Expr)
  | (_, []) => .error ⟨.unclosedParenthesis, stop⟩
  | (e, token :: rest) =>
    if token.isSymbol ')' then .ok ([e], rest)
    else if token.kind = .comma then
      (items registry stop rest).map fun r => (e :: r.1, r.2)
    else .error (Expr.unexpected token)

/-! ## 3. The equations of the steps -/

theorem unary_nil : unary registry stop [] = .error ⟨.unexpectedEnd, stop⟩ := by
  rw [unary, Expr.readUnary]
  rfl

theorem unary_cons (token : Token) (rest : List Token) :
    unary registry stop (token :: rest) =
      if token.isSymbol '-' then
        (unary registry stop rest).map fun r => (.negation r.1, r.2)
      else if token.isSymbol '+' then unary registry stop rest
      else primary registry stop token rest := by
  rw [unary, Expr.readUnary, unary, primary]
  split
  · cases Expr.readUnary registry stop rest <;> rfl
  · split
    · cases Expr.readUnary registry stop rest <;> rfl
    · rfl

theorem primary_literal {token : Token} (h : token.kind = .literal) (rest : List Token) :
    primary registry stop token rest = leaf rest (Expr.ofLiteral token) := by
  rw [primary, Expr.readPrimary.eq_def, h]
  cases Expr.ofLiteral token <;> rfl

theorem primary_var {token : Token} (h : token.kind = .var) (rest : List Token) :
    primary registry stop token rest = .ok (.var (Expr.variableName token.text), rest) := by
  rw [primary, Expr.readPrimary.eq_def, h]
  rfl

theorem primary_comma {token : Token} (h : token.kind = .comma) (rest : List Token) :
    primary registry stop token rest = .error (Expr.unexpected token) := by
  rw [primary, Expr.readPrimary.eq_def, h]
  rfl

theorem primary_operator {token : Token} (h : token.kind = .operator) (rest : List Token) :
    primary registry stop token rest =
      if token.isSymbol '(' then (binary registry stop 0 rest).bind (close stop)
      else .error (Expr.unexpected token) := by
  rw [primary, Expr.readPrimary.eq_def, h, binary]
  dsimp only
  split
  · rcases Expr.readBinary registry stop 0 rest with fault | ⟨e, _ | ⟨closing, after⟩, hlt⟩
    · rfl
    · rfl
    · simp only [forget_ok, Except.bind, close]
      split <;> rfl
  · rfl

theorem primary_name_nil {token : Token} (h : token.kind = .identifier) :
    primary registry stop token [] = leaf [] (Expr.ofName registry token) := by
  rw [primary, Expr.readPrimary.eq_def, h]
  dsimp only
  cases Expr.ofName registry token <;> rfl

theorem primary_name_cons {token : Token} (h : token.kind = .identifier) (next : Token)
    (after : List Token) :
    primary registry stop token (next :: after) =
      if next.isSymbol '(' then call registry stop token after
      else leaf (next :: after) (Expr.ofName registry token) := by
  rw [primary, Expr.readPrimary.eq_def, h]
  dsimp only
  split
  · rw [call, arguments]
    cases registry.function? token.text with
    | none => rfl
    | some function =>
      rcases Expr.readArguments registry stop after with fault | ⟨es, left, hlt⟩
      · rfl
      · simp only [forget_ok, Except.bind, finishCall]
        split <;> rfl
  · cases Expr.ofName registry token <;> rfl

theorem arguments_nil : arguments registry stop [] = items registry stop [] := by
  rw [arguments, Expr.readArguments, items]

theorem arguments_cons (token : Token) (rest : List Token) :
    arguments registry stop (token :: rest) =
      if token.isSymbol ')' then .ok ([], rest) else items registry stop (token :: rest) := by
  rw [arguments, Expr.readArguments, items]
  split <;> rfl

theorem items_eq (tokens : List Token) :
    items registry stop tokens =
      (binary registry stop 0 tokens).bind (nextItem registry stop) := by
  rw [items, Expr.readItems, binary]
  rcases Expr.readBinary registry stop 0 tokens with fault | ⟨e, _ | ⟨token, rest⟩, hlt⟩
  · rfl
  · rfl
  · simp only [forget_ok, Except.bind, nextItem, items]
    split
    · rfl
    · split
      · cases Expr.readItems registry stop rest <;> rfl
      · rfl

theorem binary_eq (weakest : Nat) (tokens : List Token) :
    binary registry stop weakest tokens =
      (unary registry stop tokens).bind fun r => chain registry stop weakest r.1 r.2 := by
  rw [binary, Expr.readBinary, unary]
  rcases Expr.readUnary registry stop tokens with fault | ⟨left, rest, hlt⟩
  · rfl
  · simp only [forget_ok, Except.bind, chain]
    cases Expr.readChain registry stop weakest left rest <;> rfl

theorem chain_nil (weakest : Nat) (left : Expr) :
    chain registry stop weakest left [] = .ok (left, []) := by
  rw [chain, Expr.readChain]
  rfl

theorem chain_cons (weakest : Nat) (left : Expr) (token : Token) (rest : List Token) :
    chain registry stop weakest left (token :: rest) =
      match Joint.ofToken? token with
      | none => .ok (left, token :: rest)
      | some joint =>
        if joint.operator.precedence < weakest then .ok (left, token :: rest)
        else
          (binary registry stop joint.operator.rightPrecedence
            (joint.operandTokens token rest)).bind fun r =>
              chain registry stop weakest (.binary joint.operator.symbol left r.1) r.2 := by
  rw [chain, Expr.readChain]
  cases Joint.ofToken? token with
  | none => rfl
  | some joint =>
    dsimp only
    split
    · rfl
    · rw [binary]
      rcases Expr.readBinary registry stop joint.operator.rightPrecedence
        (joint.operandTokens token rest) with fault | ⟨right, after, hlt⟩
      · rfl
      · simp only [forget_ok, Except.bind, chain]
        cases Expr.readChain registry stop weakest (.binary joint.operator.symbol left right)
          after <;> rfl

/-- A whole formula is a formula of any precedence with nothing after it. -/
theorem ofTokens_eq (tokens : List Token) :
    Expr.ofTokens registry stop tokens =
      (binary registry stop 0 tokens).bind fun r =>
        match r.2 with
        | [] => .ok r.1
        | token :: _ => .error (Expr.unexpected token) := by
  rw [Expr.ofTokens, binary]
  rcases Expr.readBinary registry stop 0 tokens with fault | ⟨e, _ | ⟨token, rest⟩, hlt⟩ <;> rfl

/-! ## 4. Progress and induction -/

variable {registry stop}

theorem unary_fewer {tokens rest : List Token} {e : Expr}
    (h : unary registry stop tokens = .ok (e, rest)) : rest.length < tokens.length :=
  forget_fewer h

theorem binary_fewer {weakest : Nat} {tokens rest : List Token} {e : Expr}
    (h : binary registry stop weakest tokens = .ok (e, rest)) : rest.length < tokens.length :=
  forget_fewer h

/-- Claims about the six steps that follow, step by step, from the claims about the steps called,
    whatever those give. -/
structure Closed (registry : Registry) (stop : Nat) (U : List Token → Prop)
    (P : Token → List Token → Prop) (A I : List Token → Prop) (B : Nat → List Token → Prop)
    (C : Nat → Expr → List Token → Prop) : Prop where
  unary_nil : U []
  unary_cons : ∀ token rest, U rest → P token rest → U (token :: rest)
  primary : ∀ token rest, B 0 rest → (∀ next after, rest = next :: after → A after) →
    P token rest
  arguments : ∀ tokens, I tokens → A tokens
  items : ∀ tokens, B 0 tokens →
    (∀ e token rest, Reader.binary registry stop 0 tokens = .ok (e, token :: rest) → I rest) →
    I tokens
  binary : ∀ weakest tokens, U tokens →
    (∀ left rest, Reader.unary registry stop tokens = .ok (left, rest) → C weakest left rest) →
    B weakest tokens
  chain : ∀ weakest left tokens,
    (∀ token rest joint, tokens = token :: rest → Joint.ofToken? token = some joint →
      B joint.operator.rightPrecedence (joint.operandTokens token rest) ∧
      ∀ right after,
        Reader.binary registry stop joint.operator.rightPrecedence
          (joint.operandTokens token rest) = .ok (right, after) →
        C weakest (.binary joint.operator.symbol left right) after) →
    C weakest left tokens

namespace Closed

variable {U : List Token → Prop} {P : Token → List Token → Prop} {A I : List Token → Prop}
  {B : Nat → List Token → Prop} {C : Nat → Expr → List Token → Prop}

mutual

theorem at_unary (h : Closed registry stop U P A I B C) : ∀ tokens, U tokens
  | [] => h.unary_nil
  | token :: rest => h.unary_cons token rest (h.at_unary rest) (h.at_primary token rest)
termination_by tokens => 4 * tokens.length + 1
decreasing_by all_goals simp only [List.length_cons]; omega

theorem at_primary (h : Closed registry stop U P A I B C) (token : Token) (rest : List Token) :
    P token rest :=
  h.primary token rest (h.at_binary 0 rest) fun _ after _ => h.at_arguments after
termination_by 4 * rest.length + 4
decreasing_by all_goals (try subst rest; simp only [List.length_cons]); omega

theorem at_arguments (h : Closed registry stop U P A I B C) (tokens : List Token) : A tokens :=
  h.arguments tokens (h.at_items tokens)
termination_by 4 * tokens.length + 4

theorem at_items (h : Closed registry stop U P A I B C) (tokens : List Token) : I tokens :=
  h.items tokens (h.at_binary 0 tokens) fun _ _ rest hread =>
    have := binary_fewer hread
    h.at_items rest
termination_by 4 * tokens.length + 3
decreasing_by all_goals (try simp only [List.length_cons] at *); omega

theorem at_binary (h : Closed registry stop U P A I B C) (weakest : Nat) (tokens : List Token) :
    B weakest tokens :=
  h.binary weakest tokens (h.at_unary tokens) fun left rest hread =>
    have := unary_fewer hread
    h.at_chain weakest left rest
termination_by 4 * tokens.length + 2
decreasing_by all_goals omega

theorem at_chain (h : Closed registry stop U P A I B C) (weakest : Nat) (left : Expr)
    (tokens : List Token) : C weakest left tokens :=
  h.chain weakest left tokens fun token rest joint _ _ =>
    have := joint.operandTokens_length_le token rest
    ⟨h.at_binary _ (joint.operandTokens token rest), fun right after hread =>
      have := binary_fewer hread
      h.at_chain weakest (.binary joint.operator.symbol left right) after⟩
termination_by 4 * tokens.length + 3
decreasing_by all_goals subst tokens; simp only [List.length_cons]; omega

end

end Closed

end Formula.Reader
