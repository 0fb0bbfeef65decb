import Formula.Proofs.Grammar.Completeness

/-!
# Writing multiplications out

Two values side by side are multiplied, although no token says so. Whether two neighbouring tokens are
joined in this way can be seen from the two alone, so the missing `*` can be written between them
before anything is read; reading then gives the same, a fault and its place included.

* `Token.adjoins`: the first token may end a value and the second begins one. Only a name in front
  of an opening parenthesis is not the end of a value, but the beginning of a call.
* `Token.writeOut` puts a `*` between any two such neighbours.
* `Reader.resume`: a step that ends behind a value ends in front of the new `*`, if there is one.
  Each step of the reader gives the same on both rows of tokens up to this (`resumed_closed`).

Nothing is asked of the tokens: they may be made by hand.
-/

namespace Formula

namespace Token

/-! ## 1. Neighbours -/

/-- Whether the token may be the last one of a value. -/
def endsOperand (token : Token) : Bool :=
  match token.kind with
  | .literal | .identifier | .var => true
  | .operator => token.isSymbol ')'
  | .comma => false

/-- Whether two neighbours are values side by side. -/
def adjoins (first second : Token) : Bool :=
  first.endsOperand && second.startsOperand &&
    !(decide (first.kind = .identifier) && second.isSymbol '(')

/-- The token that writes a multiplication. -/
def times (position : Nat) : Token := ⟨"*", .operator, position⟩

/-- The tokens with a `*` between any two values side by side. The one in front of the last `n`
    tokens is placed at `place n`. -/
def writeOut (place : Nat → Nat) : List Token → List Token
  | [] => []
  | [token] => [token]
  | token :: next :: rest =>
    if token.adjoins next then
      token :: times (place (rest.length + 1)) :: writeOut place (next :: rest)
    else token :: writeOut place (next :: rest)

theorem isSymbol_times (position : Nat) : (times position).isSymbol '*' = true :=
  isSymbol_iff.2 ⟨rfl, by simp [times], by decide⟩

theorem writeOut_head (place : Nat → Nat) (token : Token) (rest : List Token) :
    ∃ tail, writeOut place (token :: rest) = token :: tail := by
  cases rest with
  | nil => exact ⟨[], rfl⟩
  | cons next rest =>
    rw [writeOut]
    split
    · exact ⟨_, rfl⟩
    · exact ⟨_, rfl⟩

theorem endsOperand_of_isSymbol {token : Token} {symbol : Char}
    (h : token.isSymbol symbol = true) (hne : symbol ≠ ')') : token.endsOperand = false := by
  rw [endsOperand, (isSymbol_iff.1 h).1]
  exact isSymbol_ne h hne

theorem endsOperand_closing {token : Token} (h : token.isSymbol ')' = true) :
    token.endsOperand = true := by
  rw [endsOperand, (isSymbol_iff.1 h).1]
  exact h

/-- A token that joins two operands by being written does not end a value. -/
theorem endsOperand_of_joint {token : Token} {op : Operator}
    (h : Joint.ofToken? token = some ⟨op, true⟩) : token.endsOperand = false := by
  cases hends : token.endsOperand with
  | false => rfl
  | true =>
    exfalso
    by_cases hkind : token.kind = .operator
    · have hclosing : token.isSymbol ')' = true := by
        rw [endsOperand, hkind] at hends
        exact hends
      rw [Joint.ofToken?_of_isSymbol hclosing (by decide)] at h
      cases h
    · have hstarts : token.startsOperand = true := by
        cases htoken : token.kind <;> simp_all [startsOperand, endsOperand]
      rw [Joint.ofToken?_of_startsOperand hstarts] at h
      cases h

end Token

namespace Reader

open Token

variable {registry : Registry} {stop : Nat} {place : Nat → Nat} {α β : Type}

/-! ## 2. Behind a value -/

/-- What is left of the written-out tokens where `tokens` are left behind a value. -/
def resume (place : Nat → Nat) : List Token → List Token
  | [] => []
  | next :: rest =>
    if next.startsOperand then times (place (rest.length + 1)) :: writeOut place (next :: rest)
    else writeOut place (next :: rest)

/-- What is left over as it is left over of the written-out tokens. -/
def resumed (place : Nat → Nat) (x : Step α) : Step α := x.map fun r => (r.1, resume place r.2)

theorem resume_of_starts {next : Token} (h : next.startsOperand = true) (rest : List Token) :
    resume place (next :: rest) =
      times (place (rest.length + 1)) :: writeOut place (next :: rest) := by
  rw [resume, if_pos h]

theorem resume_of_not_starts {next : Token} (h : next.startsOperand = false) (rest : List Token) :
    resume place (next :: rest) = writeOut place (next :: rest) := by
  simp [resume, h]

/-- Where no operator goes on, nothing is written in. -/
theorem resume_of_stops (place : Nat → Nat) {tokens : List Token} (h : Stops 0 tokens) :
    resume place tokens = writeOut place tokens := by
  cases tokens with
  | nil => rfl
  | cons token rest =>
    refine resume_of_not_starts ?_ rest
    cases hstarts : token.startsOperand with
    | false => rfl
    | true =>
      have hjoint := Joint.ofToken?_of_startsOperand hstarts
      obtain ⟨op, hfind, _⟩ := Operator.find?_star
      rw [hfind] at hjoint
      exact absurd (stops_cons.1 h _ hjoint) (Nat.not_lt_zero _)

/-- A token that does not end a value has nothing written behind it. -/
theorem writeOut_cons {token : Token} (h : token.endsOperand = false) (rest : List Token) :
    writeOut place (token :: rest) = token :: writeOut place rest := by
  cases rest with
  | nil => rfl
  | cons next rest => simp [writeOut, adjoins, h]

/-- A token that ends a value is followed by what is left behind a value. -/
theorem writeOut_value {token : Token} {rest : List Token} (h : token.endsOperand = true)
    (hname : token.kind = .identifier → ∀ next ∈ rest.head?, next.isSymbol '(' = false) :
    writeOut place (token :: rest) = token :: resume place rest := by
  cases rest with
  | nil => rfl
  | cons next rest =>
    have hcall : (decide (token.kind = .identifier) && next.isSymbol '(') = false := by
      by_cases hkind : token.kind = .identifier
      · simp [hname hkind next rfl]
      · simp [hkind]
    rw [writeOut, resume, adjoins, h, hcall]
    cases next.startsOperand <;> rfl

/-- Nothing is written between a name and the opening parenthesis of its arguments. -/
theorem writeOut_call {name opening : Token} (hname : name.kind = .identifier)
    (hopening : opening.isSymbol '(' = true) (rest : List Token) :
    writeOut place (name :: opening :: rest) = name :: opening :: writeOut place rest := by
  have hends := endsOperand_of_isSymbol hopening (by decide)
  rw [writeOut, adjoins, decide_eq_true hname, hopening, Bool.and_self, Bool.not_true, Bool.and_false,
    writeOut_cons hends]
  rfl

theorem head?_resume {rest : List Token} (h : ∀ next ∈ rest.head?, next.isSymbol '(' = false) :
    ∀ next ∈ (resume place rest).head?, next.isSymbol '(' = false := by
  cases rest with
  | nil => simp [resume]
  | cons token rest =>
    obtain ⟨tail, htail⟩ := writeOut_head place token rest
    intro next hnext
    rw [resume] at hnext
    split at hnext
    · cases hnext
      exact isSymbol_ne (isSymbol_times _) (by decide)
    · rw [htail] at hnext
      exact h next hnext

/-! ## 3. Steps -/

/-- **Steps that agree up to `resume` are followed by steps that do.** -/
theorem resumed_bind {x : Step α} {f g : α × List Token → Step β}
    (h : ∀ a rest, x = .ok (a, rest) → f (a, resume place rest) = resumed place (g (a, rest))) :
    (resumed place x).bind f = resumed place (x.bind g) := by
  cases x with
  | error fault => rfl
  | ok r => exact h r.1 r.2 rfl

theorem resumed_map (place : Nat → Nat) (f : α → β) (x : Step α) :
    (resumed place x).map (fun r => (f r.1, r.2)) = resumed place (x.map fun r => (f r.1, r.2)) := by
  cases x <;> rfl

theorem resumed_leaf (rest : List Token) (x : Except Fault Expr) :
    leaf (resume place rest) x = resumed place (leaf rest x) := by
  cases x <;> rfl

/-- A bracketed formula is closed by the same token. -/
theorem resumed_close {e : Expr} {rest : List Token} (h : Stops 0 rest) :
    close stop (e, resume place rest) = resumed place (close stop (e, rest)) := by
  rw [resume_of_stops place h]
  cases rest with
  | nil => rfl
  | cons token rest =>
    cases hclosing : token.isSymbol ')' with
    | true =>
      have hkind := (isSymbol_iff.1 hclosing).1
      rw [writeOut_value (endsOperand_closing hclosing) (by simp [hkind])]
      simp [close, hclosing, resumed, Except.map]
    | false =>
      obtain ⟨tail, htail⟩ := writeOut_head place token rest
      rw [htail]
      simp [close, hclosing, resumed, Except.map]

/-- The arguments go on behind the same comma, or end at the same parenthesis. -/
theorem resumed_nextItem {e : Expr} {tokens : List Token} (h : Stops 0 tokens)
    (hitems : ∀ token rest, tokens = token :: rest →
      items registry stop (writeOut place rest) = resumed place (items registry stop rest)) :
    nextItem registry stop (e, resume place tokens) =
      resumed place (nextItem registry stop (e, tokens)) := by
  rw [resume_of_stops place h]
  cases tokens with
  | nil => rfl
  | cons token rest =>
    by_cases hclosing : token.isSymbol ')' = true
    · have hkind := (isSymbol_iff.1 hclosing).1
      rw [writeOut_value (endsOperand_closing hclosing) (by simp [hkind])]
      simp [nextItem, hclosing, resumed, Except.map]
    · by_cases hcomma : token.kind = .comma
      · have hends : token.endsOperand = false := by simp [endsOperand, hcomma]
        have hmore := resumed_map place (e :: ·) (items registry stop rest)
        rw [writeOut_cons hends]
        simp [nextItem, hclosing, hcomma, hitems token rest rfl, hmore]
      · obtain ⟨tail, htail⟩ := writeOut_head place token rest
        rw [htail]
        simp [nextItem, hclosing, hcomma, resumed, Except.map]

theorem resumed_unary {token : Token} {rest : List Token}
    (hunary : unary registry stop (writeOut place rest) = resumed place (unary registry stop rest))
    (hprimary : ∀ tail, writeOut place (token :: rest) = token :: tail →
      primary registry stop token tail = resumed place (primary registry stop token rest)) :
    unary registry stop (writeOut place (token :: rest)) =
      resumed place (unary registry stop (token :: rest)) := by
  by_cases hminus : token.isSymbol '-' = true
  · have hends := endsOperand_of_isSymbol hminus (by decide)
    rw [writeOut_cons hends, unary_cons, unary_cons, if_pos hminus, if_pos hminus, hunary]
    exact resumed_map place Expr.negation _
  · by_cases hplus : token.isSymbol '+' = true
    · have hends := endsOperand_of_isSymbol hplus (by decide)
      rw [writeOut_cons hends, unary_cons, unary_cons, if_neg hminus, if_neg hminus, if_pos hplus,
        if_pos hplus, hunary]
    · obtain ⟨tail, htail⟩ := writeOut_head place token rest
      rw [htail, unary_cons, unary_cons, if_neg hminus, if_neg hminus, if_neg hplus, if_neg hplus]
      exact hprimary tail htail

theorem resumed_call {name : Token} {tokens : List Token}
    (harguments : arguments registry stop (writeOut place tokens) =
      resumed place (arguments registry stop tokens)) :
    call registry stop name (writeOut place tokens) =
      resumed place (call registry stop name tokens) := by
  unfold call
  cases registry.function? name.text with
  | none => rfl
  | some function =>
    dsimp only
    rw [harguments]
    refine resumed_bind fun es rest _ => ?_
    rw [finishCall, finishCall]
    split
    · rfl
    · rfl

theorem resumed_primary {token : Token} {rest tail : List Token}
    (htail : writeOut place (token :: rest) = token :: tail)
    (hbinary : binary registry stop 0 (writeOut place rest) =
      resumed place (binary registry stop 0 rest))
    (harguments : ∀ next after, rest = next :: after →
      arguments registry stop (writeOut place after) =
        resumed place (arguments registry stop after)) :
    primary registry stop token tail = resumed place (primary registry stop token rest) := by
  cases hkind : token.kind with
  | literal =>
    rw [writeOut_value (by simp [endsOperand, hkind]) (by simp [hkind])] at htail
    cases htail
    rw [primary_literal _ _ hkind, primary_literal _ _ hkind, resumed_leaf]
  | var =>
    rw [writeOut_value (by simp [endsOperand, hkind]) (by simp [hkind])] at htail
    cases htail
    rw [primary_var _ _ hkind, primary_var _ _ hkind]
    rfl
  | comma =>
    rw [primary_comma _ _ hkind, primary_comma _ _ hkind]
    rfl
  | operator =>
    rw [primary_operator _ _ hkind, primary_operator _ _ hkind]
    by_cases hopening : token.isSymbol '(' = true
    · rw [writeOut_cons (endsOperand_of_isSymbol hopening (by decide))] at htail
      cases htail
      rw [if_pos hopening, if_pos hopening, hbinary]
      exact resumed_bind fun e after hread => resumed_close (binary_stops hread)
    · rw [if_neg hopening, if_neg hopening]
      rfl
  | identifier =>
    by_cases hcall : ∃ opening after, rest = opening :: after ∧ opening.isSymbol '(' = true
    · obtain ⟨opening, after, rfl, hopening⟩ := hcall
      rw [writeOut_call hkind hopening] at htail
      cases htail
      rw [primary_name_cons _ _ hkind, primary_name_cons _ _ hkind, if_pos hopening, if_pos hopening]
      exact resumed_call (harguments opening after rfl)
    · have hnext : ∀ next ∈ rest.head?, next.isSymbol '(' = false := by
        intro next hnext
        obtain ⟨after, rfl⟩ := List.head?_eq_some_iff.1 hnext
        cases hopening : next.isSymbol '(' with
        | false => rfl
        | true => exact absurd ⟨next, after, rfl, hopening⟩ hcall
      rw [writeOut_value (by simp [endsOperand, hkind]) fun _ => hnext] at htail
      cases htail
      rw [Grammar.primary_of_name hkind (head?_resume hnext), Grammar.primary_of_name hkind hnext,
        resumed_leaf]

theorem resumed_arguments {tokens : List Token}
    (hitems : items registry stop (writeOut place tokens) =
      resumed place (items registry stop tokens)) :
    arguments registry stop (writeOut place tokens) =
      resumed place (arguments registry stop tokens) := by
  cases tokens with
  | nil =>
    rw [arguments_nil]
    exact (arguments_nil registry stop).trans hitems
  | cons token rest =>
    by_cases hclosing : token.isSymbol ')' = true
    · have hkind := (isSymbol_iff.1 hclosing).1
      rw [writeOut_value (endsOperand_closing hclosing) (by simp [hkind]), arguments_cons,
        arguments_cons, if_pos hclosing, if_pos hclosing]
      rfl
    · obtain ⟨tail, htail⟩ := writeOut_head place token rest
      rw [htail] at hitems ⊢
      rw [arguments_cons, arguments_cons, if_neg hclosing, if_neg hclosing, hitems]

/-- An operator that is reached behind a value is written behind it, and its right operand begins
    at the same token. -/
theorem resume_joint (place : Nat → Nat) {token : Token} {joint : Joint}
    (h : Joint.ofToken? token = some joint) (rest : List Token) :
    ∃ first, Joint.ofToken? first = some ⟨joint.operator, true⟩ ∧
      resume place (token :: rest) =
        first :: writeOut place (joint.operandTokens token rest) := by
  cases hstarts : token.startsOperand with
  | true =>
    rw [Joint.ofToken?_of_startsOperand hstarts] at h
    obtain ⟨op, hfind, rfl⟩ := Option.map_eq_some_iff.1 h
    refine ⟨times (place (rest.length + 1)), ?_, resume_of_starts hstarts rest⟩
    rw [Joint.ofToken?_of_isSymbol (isSymbol_times _) (by decide), hfind]
    rfl
  | false =>
    have hwritten := h
    rw [Joint.ofToken?, hstarts] at hwritten
    obtain ⟨op, -, rfl⟩ := Option.map_eq_some_iff.1 hwritten
    refine ⟨token, h, ?_⟩
    rw [resume_of_not_starts hstarts, writeOut_cons (endsOperand_of_joint h)]
    rfl

/-- A chain finds the same operators, whether they were written from the beginning or not. -/
theorem resumed_chain {weakest : Nat} {left : Expr} {tokens : List Token}
    (hnext : ∀ token rest joint, tokens = token :: rest → Joint.ofToken? token = some joint →
      binary registry stop joint.operator.rightPrecedence
          (writeOut place (joint.operandTokens token rest)) =
        resumed place (binary registry stop joint.operator.rightPrecedence
          (joint.operandTokens token rest)) ∧
      ∀ right after,
        binary registry stop joint.operator.rightPrecedence
          (joint.operandTokens token rest) = .ok (right, after) →
        chain registry stop weakest (.binary joint.operator.symbol left right)
            (resume place after) =
          resumed place (chain registry stop weakest (.binary joint.operator.symbol left right)
            after)) :
    chain registry stop weakest left (resume place tokens) =
      resumed place (chain registry stop weakest left tokens) := by
  cases tokens with
  | nil =>
    rw [chain_nil]
    exact chain_nil registry stop weakest left
  | cons token rest =>
    cases hjoint : Joint.ofToken? token with
    | none =>
      have hstarts : token.startsOperand = false := by
        cases hstarts : token.startsOperand with
        | false => rfl
        | true =>
          rw [Joint.ofToken?_of_startsOperand hstarts] at hjoint
          cases hjoint
      obtain ⟨tail, htail⟩ := writeOut_head place token rest
      have hresume := (resume_of_not_starts hstarts rest).trans htail
      have hstops (rest : List Token) : Stops weakest (token :: rest) :=
        Grammar.stops_of_none hjoint weakest rest
      rw [chain_of_stops (hstops rest), hresume, chain_of_stops (hstops tail), resumed, Except.map,
        hresume]
    | some joint =>
      obtain ⟨first, hfirst, hresume⟩ := resume_joint place hjoint rest
      obtain ⟨hright, hchain⟩ := hnext token rest joint rfl hjoint
      by_cases hweakest : weakest ≤ joint.operator.precedence
      · rw [hresume, chain_of_joint hfirst hweakest, chain_of_joint hjoint hweakest]
        have hbinary : binary registry stop joint.operator.rightPrecedence
            (Joint.operandTokens ⟨joint.operator, true⟩ first
              (writeOut place (joint.operandTokens token rest))) =
            resumed place (binary registry stop joint.operator.rightPrecedence
              (joint.operandTokens token rest)) := hright
        rw [hbinary]
        exact resumed_bind fun right after hread => hchain right after hread
      · have hlow := Nat.not_le.1 hweakest
        rw [chain_of_stops (Grammar.stops_of_joint hjoint hlow rest), hresume,
          chain_of_stops (Grammar.stops_of_joint hfirst hlow _), resumed, Except.map, hresume]

/-- **Each step gives the same on both rows of tokens, up to `resume`, if the steps that it calls
    do.** -/
theorem resumed_closed (registry : Registry) (stop : Nat) (place : Nat → Nat) : Closed registry stop
    (fun tokens => unary registry stop (writeOut place tokens) =
      resumed place (unary registry stop tokens))
    (fun token rest => ∀ tail, writeOut place (token :: rest) = token :: tail →
      primary registry stop token tail = resumed place (primary registry stop token rest))
    (fun tokens => arguments registry stop (writeOut place tokens) =
      resumed place (arguments registry stop tokens))
    (fun tokens => items registry stop (writeOut place tokens) =
      resumed place (items registry stop tokens))
    (fun weakest tokens => binary registry stop weakest (writeOut place tokens) =
      resumed place (binary registry stop weakest tokens))
    (fun weakest left tokens => chain registry stop weakest left (resume place tokens) =
      resumed place (chain registry stop weakest left tokens)) where
  unary_nil := by
    rw [unary_nil]
    exact unary_nil registry stop
  unary_cons token rest hunary hprimary := resumed_unary hunary hprimary
  primary token rest hbinary harguments tail htail := resumed_primary htail hbinary harguments
  arguments tokens hitems := resumed_arguments hitems
  items tokens hbinary hitems := by
    rw [items_eq, items_eq, hbinary]
    refine resumed_bind fun e after hread => ?_
    refine resumed_nextItem (binary_stops hread) fun token rest hafter => ?_
    rw [hafter] at hread
    exact hitems e token rest hread
  binary weakest tokens hunary hchain := by
    rw [binary_eq, binary_eq, hunary]
    exact resumed_bind fun left after hread => hchain left after hread
  chain weakest left tokens hnext := resumed_chain hnext

end Reader

/-! ## 4. Whole formulas -/

/-- **Writing the multiplications out changes nothing.** The tree is the same, and so is the fault with
    its place, whatever the places of the new tokens are. -/
theorem Expr.ofTokens_writeOut (registry : Registry) (stop : Nat) (place : Nat → Nat)
    (tokens : List Token) :
    ofTokens registry stop (Token.writeOut place tokens) = ofTokens registry stop tokens := by
  have hbinary := (Reader.resumed_closed registry stop place).at_binary 0 tokens
  rw [Reader.ofTokens_eq, Reader.ofTokens_eq, hbinary]
  cases hread : Reader.binary registry stop 0 tokens with
  | error fault => rfl
  | ok r =>
    -- what is left over at the end is no value, so nothing is written in front of it
    have hresume := Reader.resume_of_stops place (Reader.binary_stops hread)
    obtain ⟨e, _ | ⟨token, rest⟩⟩ := r
    · rfl
    · obtain ⟨tail, htail⟩ := Token.writeOut_head place token rest
      rw [Reader.resumed, Except.map, Except.bind, hresume, htail]
      rfl

/-- In `2 sin($x) pi` nothing is written between the name and its parenthesis. -/
example :
    (Token.writeOut (fun _ => 0)
      [⟨"2", .literal, 0⟩, ⟨"sin", .identifier, 2⟩, ⟨"(", .operator, 5⟩, ⟨"$x", .var, 6⟩,
        ⟨")", .operator, 8⟩, ⟨"pi", .identifier, 10⟩]).map (·.text) =
      ["2", "*", "sin", "(", "$x", ")", "*", "pi"] := by decide

end Formula
