import Formula.Proofs.Grammar.Completeness

/-!
# How a step of the reader fails

The other half of the steps that succeed: one inductive description for each step of the reader that can
fail, with a constructor for each way in which it does.

* `UnaryFails`, `PrimaryFails`, `ItemsFails`, `ChainFails` are about the steps with faults of their own;
  `binary_fails` and `arguments_fails` are about the two that only hand faults on.
* `Token.BeginsNothing`: no operand begins with the token. These are the tokens that are reported
  as unexpected, and no others.
* `Blamed stop tokens fault`: the fault is at the end of the source, or it blames one of the tokens.
  Every fault of the reader is of this kind (`ofTokens_blamed`).
-/

namespace Formula

namespace Token

/-- No operand begins with the token: it begins no value, and it is no sign. -/
structure BeginsNothing (token : Token) : Prop where
  starts : token.startsOperand = false
  minus : token.isSymbol '-' = false
  plus : token.isSymbol '+' = false

/-- A token that does not go on with a formula does not begin one either. -/
theorem beginsNothing_of_none {token : Token} (h : Joint.ofToken? token = none) :
    token.BeginsNothing := by
  have hjoint {symbol : Char} {op : Operator} (hop : Operator.find? symbol = some op)
      (hne : symbol ≠ '(') : token.isSymbol symbol = false := by
    cases hsymbol : token.isSymbol symbol with
    | false => rfl
    | true =>
      rw [Joint.ofToken?_of_isSymbol hsymbol hne, hop] at h
      cases h
  refine ⟨?_, hjoint rfl (by decide), hjoint rfl (by decide)⟩
  cases hstarts : token.startsOperand with
  | false => rfl
  | true =>
    rw [Joint.ofToken?_of_startsOperand hstarts] at h
    cases h

/-- Only an operator or a comma begins nothing. -/
theorem BeginsNothing.kind {token : Token} (h : token.BeginsNothing) :
    token.kind = .operator ∨ token.kind = .comma := by
  have hstarts := h.starts
  cases hkind : token.kind with
  | operator => exact .inl rfl
  | comma => exact .inr rfl
  | literal | identifier | var => simp [startsOperand, hkind] at hstarts

end Token

namespace Reader

variable {registry : Registry} {stop : Nat}

/-! ## 1. Failing results -/

theorem bind_eq_error {ε α β : Type} {x : Except ε α} {f : α → Except ε β} {e : ε} :
    x.bind f = .error e ↔ x = .error e ∨ ∃ a, x = .ok a ∧ f a = .error e := by
  cases x with
  | error e => simp [Except.bind]
  | ok a => simp [Except.bind]

theorem map_eq_error {ε α β : Type} {x : Except ε α} {f : α → β} {e : ε} :
    x.map f = .error e ↔ x = .error e := by
  cases x with
  | error e => simp [Except.map]
  | ok a => simp [Except.map]

theorem leaf_eq_error {rest : List Token} {x : Except Fault Expr} {fault : Fault} :
    leaf rest x = .error fault ↔ x = .error fault := by
  rw [leaf_eq_map, map_eq_error]

/-! ## 2. Operands -/

/-- How an operand with its signs is missed. -/
inductive UnaryFails (registry : Registry) (stop : Nat) : List Token → Fault → Prop
  | ended : UnaryFails registry stop [] ⟨.unexpectedEnd, stop⟩
  | signed {sign : Token} {rest : List Token} {fault : Fault}
      (hsign : sign.isSymbol '-' = true ∨ sign.isSymbol '+' = true)
      (hread : unary registry stop rest = .error fault) :
      UnaryFails registry stop (sign :: rest) fault
  | primary {token : Token} {rest : List Token} {fault : Fault}
      (hminus : token.isSymbol '-' = false) (hplus : token.isSymbol '+' = false)
      (hread : primary registry stop token rest = .error fault) :
      UnaryFails registry stop (token :: rest) fault

theorem unary_fails {tokens : List Token} {fault : Fault}
    (h : unary registry stop tokens = .error fault) : UnaryFails registry stop tokens fault := by
  cases tokens with
  | nil =>
    rw [unary_nil] at h
    cases h
    exact .ended
  | cons token rest =>
    cases hminus : token.isSymbol '-' with
    | true =>
      rw [unary_cons, if_pos hminus, map_eq_error] at h
      exact .signed (.inl hminus) h
    | false =>
      cases hplus : token.isSymbol '+' with
      | true =>
        rw [unary_cons, hminus, if_pos hplus] at h
        exact .signed (.inr hplus) h
      | false =>
        rw [Grammar.unary_of_primary hminus hplus] at h
        exact .primary hminus hplus h

/-- Behind a sign an operand is missed as it is without the sign. -/
theorem unary_signed {sign : Token} {rest : List Token} {fault : Fault}
    (hsign : sign.isSymbol '-' = true ∨ sign.isSymbol '+' = true)
    (h : unary registry stop rest = .error fault) :
    unary registry stop (sign :: rest) = .error fault := by
  rcases hsign with hminus | hplus
  · rw [unary_cons, if_pos hminus, h]
    rfl
  · rw [unary_cons, Token.isSymbol_ne hplus (by decide), if_pos hplus, h]
    rfl

/-- How a value that begins with a token is missed. -/
inductive PrimaryFails (registry : Registry) (stop : Nat) (token : Token) :
    List Token → Fault → Prop
  | literal {rest : List Token} {reason : NotANumber} (hkind : token.kind = .literal)
      (hvalue : Double.read token.text = .error reason) :
      PrimaryFails registry stop token rest ⟨.malformedLiteral token.text, token.position⟩
  | constant {rest : List Token} (hkind : token.kind = .identifier)
      (hnext : ∀ next ∈ rest.head?, next.isSymbol '(' = false)
      (hnone : registry.constant? token.text = none) :
      PrimaryFails registry stop token rest ⟨.unknownConstant token.text, token.position⟩
  | function {opening : Token} {rest : List Token} (hkind : token.kind = .identifier)
      (hopening : opening.isSymbol '(' = true) (hnone : registry.function? token.text = none) :
      PrimaryFails registry stop token (opening :: rest)
        ⟨.unknownFunction token.text, token.position⟩
  | arguments {opening : Token} {rest : List Token} {function : Function} {fault : Fault}
      (hkind : token.kind = .identifier) (hopening : opening.isSymbol '(' = true)
      (hfunction : registry.function? token.text = some function)
      (hread : arguments registry stop rest = .error fault) :
      PrimaryFails registry stop token (opening :: rest) fault
  | count {opening : Token} {rest left : List Token} {function : Function} {es : List Expr}
      (hkind : token.kind = .identifier) (hopening : opening.isSymbol '(' = true)
      (hfunction : registry.function? token.text = some function)
      (hread : arguments registry stop rest = .ok (es, left))
      (harity : function.arity.accepts es.length = false) :
      PrimaryFails registry stop token (opening :: rest)
        ⟨.wrongArgumentCount token.text function.arity es.length, token.position⟩
  | unexpected {rest : List Token} (hstarts : token.startsOperand = false) :
      PrimaryFails registry stop token rest (Expr.unexpected token)
  | group {rest : List Token} {fault : Fault} (hopening : token.isSymbol '(' = true)
      (hread : binary registry stop 0 rest = .error fault) :
      PrimaryFails registry stop token rest fault
  | unclosed {rest : List Token} {e : Expr} (hopening : token.isSymbol '(' = true)
      (hread : binary registry stop 0 rest = .ok (e, [])) :
      PrimaryFails registry stop token rest ⟨.unclosedParenthesis, stop⟩
  | closing {other : Token} {rest left : List Token} {e : Expr}
      (hopening : token.isSymbol '(' = true)
      (hread : binary registry stop 0 rest = .ok (e, other :: left))
      (hother : other.isSymbol ')' = false) :
      PrimaryFails registry stop token rest (Expr.unexpected other)

theorem ofLiteral_fails {token : Token} {fault : Fault} (h : Expr.ofLiteral token = .error fault) :
    ∃ reason, Double.read token.text = .error reason ∧
      fault = ⟨.malformedLiteral token.text, token.position⟩ := by
  unfold Expr.ofLiteral at h
  split at h
  · cases h
  · rename_i reason hvalue
    cases h
    exact ⟨reason, hvalue, rfl⟩

theorem ofName_fails {token : Token} {fault : Fault} (h : Expr.ofName registry token = .error fault) :
    registry.constant? token.text = none ∧
      fault = ⟨.unknownConstant token.text, token.position⟩ := by
  unfold Expr.ofName at h
  split at h
  · cases h
  · rename_i hnone
    cases h
    exact ⟨hnone, rfl⟩

theorem call_fails {token opening : Token} {rest : List Token} {fault : Fault}
    (hkind : token.kind = .identifier) (hopening : opening.isSymbol '(' = true)
    (h : call registry stop token rest = .error fault) :
    PrimaryFails registry stop token (opening :: rest) fault := by
  unfold call at h
  split at h
  · rename_i hnone
    cases h
    exact .function hkind hopening hnone
  · rename_i function hfunction
    rcases bind_eq_error.1 h with hread | ⟨⟨es, left⟩, hread, hfinish⟩
    · exact .arguments hkind hopening hfunction hread
    · unfold finishCall at hfinish
      dsimp only at hfinish
      split at hfinish
      · cases hfinish
      · rename_i harity
        cases hfinish
        exact .count hkind hopening hfunction hread (Bool.eq_false_iff.2 harity)

theorem close_fails {token : Token} {rest : List Token} {r : Expr × List Token} {fault : Fault}
    (hopening : token.isSymbol '(' = true) (hread : binary registry stop 0 rest = .ok r)
    (h : close stop r = .error fault) : PrimaryFails registry stop token rest fault := by
  obtain ⟨e, _ | ⟨other, left⟩⟩ := r
  · cases h
    exact .unclosed hopening hread
  · rw [close] at h
    split at h
    · cases h
    · rename_i hother
      cases h
      exact .closing hopening hread (Bool.eq_false_iff.2 hother)

theorem primary_fails {token : Token} {rest : List Token} {fault : Fault}
    (h : primary registry stop token rest = .error fault) :
    PrimaryFails registry stop token rest fault := by
  cases hkind : token.kind with
  | literal =>
    rw [primary_literal _ _ hkind, leaf_eq_error] at h
    obtain ⟨reason, hvalue, rfl⟩ := ofLiteral_fails h
    exact .literal hkind hvalue
  | var =>
    rw [primary_var _ _ hkind] at h
    cases h
  | comma =>
    rw [primary_comma _ _ hkind] at h
    cases h
    exact .unexpected (by simp [Token.startsOperand, hkind])
  | operator =>
    rw [primary_operator _ _ hkind] at h
    split at h
    · rename_i hopening
      rcases bind_eq_error.1 h with hread | ⟨r, hread, hclose⟩
      · exact .group hopening hread
      · exact close_fails hopening hread hclose
    · rename_i hopening
      cases h
      exact .unexpected (by simpa [Token.startsOperand, hkind] using hopening)
  | identifier =>
    by_cases hcall : ∃ opening after, rest = opening :: after ∧ opening.isSymbol '(' = true
    · obtain ⟨opening, after, rfl, hopening⟩ := hcall
      rw [primary_name_cons _ _ hkind, if_pos hopening] at h
      exact call_fails hkind hopening h
    · have hnext : ∀ next ∈ rest.head?, next.isSymbol '(' = false := by
        intro next hnext
        obtain ⟨after, rfl⟩ := List.head?_eq_some_iff.1 hnext
        exact Bool.eq_false_iff.2 fun hopening => hcall ⟨next, after, rfl, hopening⟩
      rw [Grammar.primary_of_name hkind hnext, leaf_eq_error] at h
      obtain ⟨hnone, rfl⟩ := ofName_fails h
      exact .constant hkind hnext hnone

/-! ## 3. Arguments -/

/-- How the arguments of a call are missed. -/
inductive ItemsFails (registry : Registry) (stop : Nat) : List Token → Fault → Prop
  | first {tokens : List Token} {fault : Fault}
      (hread : binary registry stop 0 tokens = .error fault) :
      ItemsFails registry stop tokens fault
  | unclosed {tokens : List Token} {e : Expr} (hread : binary registry stop 0 tokens = .ok (e, [])) :
      ItemsFails registry stop tokens ⟨.unclosedParenthesis, stop⟩
  | more {comma : Token} {tokens rest : List Token} {e : Expr} {fault : Fault}
      (hread : binary registry stop 0 tokens = .ok (e, comma :: rest))
      (hcomma : comma.kind = .comma) (hrest : items registry stop rest = .error fault) :
      ItemsFails registry stop tokens fault
  | unexpected {other : Token} {tokens rest : List Token} {e : Expr}
      (hread : binary registry stop 0 tokens = .ok (e, other :: rest))
      (hclosing : other.isSymbol ')' = false) (hcomma : other.kind ≠ .comma) :
      ItemsFails registry stop tokens (Expr.unexpected other)

theorem items_fails {tokens : List Token} {fault : Fault}
    (h : items registry stop tokens = .error fault) : ItemsFails registry stop tokens fault := by
  rw [items_eq] at h
  rcases bind_eq_error.1 h with hread | ⟨⟨e, _ | ⟨token, rest⟩⟩, hread, hnext⟩
  · exact .first hread
  · cases hnext
    exact .unclosed hread
  · unfold nextItem at hnext
    dsimp only at hnext
    split at hnext
    · cases hnext
    · rename_i hclosing
      split at hnext
      · rename_i hcomma
        exact .more hread hcomma (map_eq_error.1 hnext)
      · rename_i hcomma
        cases hnext
        exact .unexpected hread (Bool.eq_false_iff.2 hclosing) hcomma

/-- Arguments are missed as at least one argument is missed, and they do not end at once. -/
theorem arguments_fails {tokens : List Token} {fault : Fault}
    (h : arguments registry stop tokens = .error fault) :
    items registry stop tokens = .error fault ∧
      ∀ token ∈ tokens.head?, token.isSymbol ')' = false := by
  cases tokens with
  | nil =>
    rw [arguments_nil] at h
    exact ⟨h, fun token htoken => by cases htoken⟩
  | cons token rest =>
    rw [arguments_cons] at h
    split at h
    · cases h
    · rename_i hclosing
      refine ⟨h, fun other hother => ?_⟩
      cases hother
      exact Bool.eq_false_iff.2 hclosing

/-! ## 4. Operators -/

theorem binary_fails {weakest : Nat} {tokens : List Token} {fault : Fault}
    (h : binary registry stop weakest tokens = .error fault) :
    unary registry stop tokens = .error fault ∨
      ∃ left rest, unary registry stop tokens = .ok (left, rest) ∧
        chain registry stop weakest left rest = .error fault := by
  rw [binary_eq] at h
  rcases bind_eq_error.1 h with hread | ⟨⟨left, rest⟩, hread, hchain⟩
  · exact .inl hread
  · exact .inr ⟨left, rest, hread, hchain⟩

/-- How operators and operands after an operand are missed. -/
inductive ChainFails (registry : Registry) (stop weakest : Nat) (left : Expr) :
    List Token → Fault → Prop
  | right {token : Token} {tokens : List Token} {joint : Joint} {fault : Fault}
      (hjoint : Joint.ofToken? token = some joint) (hweakest : weakest ≤ joint.operator.precedence)
      (hright : binary registry stop joint.operator.rightPrecedence
        (joint.operandTokens token tokens) = .error fault) :
      ChainFails registry stop weakest left (token :: tokens) fault
  | rest {token : Token} {tokens after : List Token} {joint : Joint} {right : Expr} {fault : Fault}
      (hjoint : Joint.ofToken? token = some joint) (hweakest : weakest ≤ joint.operator.precedence)
      (hright : binary registry stop joint.operator.rightPrecedence
        (joint.operandTokens token tokens) = .ok (right, after))
      (hrest : chain registry stop weakest (.binary joint.operator.symbol left right) after =
        .error fault) :
      ChainFails registry stop weakest left (token :: tokens) fault

theorem chain_fails {weakest : Nat} {left : Expr} {tokens : List Token} {fault : Fault}
    (h : chain registry stop weakest left tokens = .error fault) :
    ChainFails registry stop weakest left tokens fault := by
  cases tokens with
  | nil =>
    rw [chain_nil] at h
    cases h
  | cons token tokens =>
    rw [chain_cons] at h
    split at h
    · cases h
    · rename_i joint hjoint
      split at h
      · cases h
      · rename_i hlow
        have hweakest := Nat.not_lt.1 hlow
        rcases bind_eq_error.1 h with hright | ⟨⟨right, after⟩, hright, hrest⟩
        · exact .right hjoint hweakest hright
        · exact .rest hjoint hweakest hright hrest

/-! ## 5. What is blamed -/

/-- The faults that the reader can find in tokens. -/
inductive Blamed (stop : Nat) (tokens : List Token) : Fault → Prop
  | ended : Blamed stop tokens ⟨.unexpectedEnd, stop⟩
  | unclosed : Blamed stop tokens ⟨.unclosedParenthesis, stop⟩
  | unexpected {token : Token} (htoken : token ∈ tokens) (hnothing : token.BeginsNothing) :
      Blamed stop tokens (Expr.unexpected token)
  | literal {token : Token} {reason : NotANumber} (htoken : token ∈ tokens)
      (hkind : token.kind = .literal) (hvalue : Double.read token.text = .error reason) :
      Blamed stop tokens ⟨.malformedLiteral token.text, token.position⟩
  | constant {token : Token} (htoken : token ∈ tokens) (hkind : token.kind = .identifier) :
      Blamed stop tokens ⟨.unknownConstant token.text, token.position⟩
  | function {token : Token} (htoken : token ∈ tokens) (hkind : token.kind = .identifier) :
      Blamed stop tokens ⟨.unknownFunction token.text, token.position⟩
  | count {token : Token} {arity : Arity} {found : Nat} (htoken : token ∈ tokens)
      (hkind : token.kind = .identifier) :
      Blamed stop tokens ⟨.wrongArgumentCount token.text arity found, token.position⟩

/-- What is blamed in a part is blamed in the whole. -/
theorem Blamed.mono {tokens more : List Token} {fault : Fault} (h : Blamed stop tokens fault)
    (hmore : tokens <:+ more) : Blamed stop more fault := by
  cases h with
  | ended => exact .ended
  | unclosed => exact .unclosed
  | unexpected htoken hnothing => exact .unexpected (hmore.subset htoken) hnothing
  | literal htoken hkind hvalue => exact .literal (hmore.subset htoken) hkind hvalue
  | constant htoken hkind => exact .constant (hmore.subset htoken) hkind
  | function htoken hkind => exact .function (hmore.subset htoken) hkind
  | count htoken hkind => exact .count (hmore.subset htoken) hkind

/-- The token at which a formula ends cannot begin a formula. -/
theorem beginsNothing_of_binary {tokens rest : List Token} {token : Token} {e : Expr}
    (h : binary registry stop 0 tokens = .ok (e, token :: rest)) : token.BeginsNothing := by
  have hstops := stops_cons.1 (binary_stops h)
  refine Token.beginsNothing_of_none ?_
  cases hjoint : Joint.ofToken? token with
  | none => rfl
  | some joint => exact absurd (hstops joint hjoint) (Nat.not_lt_zero _)

/-- The token at which a formula ends is one of its tokens. -/
theorem blamed_end {tokens rest : List Token} {token : Token} {e : Expr}
    (h : binary registry stop 0 tokens = .ok (e, token :: rest)) :
    Blamed stop tokens (Expr.unexpected token) :=
  .unexpected ((binary_suffix h).subset List.mem_cons_self) (beginsNothing_of_binary h)

theorem blamed_closed : Closed registry stop
    (fun tokens => ∀ fault, unary registry stop tokens = .error fault → Blamed stop tokens fault)
    (fun token tokens => token.isSymbol '-' = false → token.isSymbol '+' = false →
      ∀ fault, primary registry stop token tokens = .error fault →
        Blamed stop (token :: tokens) fault)
    (fun tokens => ∀ fault, arguments registry stop tokens = .error fault →
      Blamed stop tokens fault)
    (fun tokens => ∀ fault, items registry stop tokens = .error fault → Blamed stop tokens fault)
    (fun weakest tokens => ∀ fault, binary registry stop weakest tokens = .error fault →
      Blamed stop tokens fault)
    (fun weakest left tokens => ∀ fault, chain registry stop weakest left tokens = .error fault →
      Blamed stop tokens fault) where
  unary_nil fault h := by
    cases unary_fails h
    exact .ended
  unary_cons token tokens hunary hprimary fault h := by
    cases unary_fails h with
    | signed _ hread => exact (hunary fault hread).mono (List.suffix_cons _ _)
    | primary hminus hplus hread => exact hprimary hminus hplus fault hread
  primary token tokens hbinary harguments hminus hplus fault h := by
    cases primary_fails h with
    | literal hkind hvalue => exact .literal List.mem_cons_self hkind hvalue
    | constant hkind => exact .constant List.mem_cons_self hkind
    | function hkind => exact .function List.mem_cons_self hkind
    | arguments _ _ _ hread =>
      have hblamed := harguments _ _ rfl fault hread
      exact hblamed.mono ((List.suffix_cons _ _).trans (List.suffix_cons _ _))
    | count hkind => exact .count List.mem_cons_self hkind
    | unexpected hstarts => exact .unexpected List.mem_cons_self ⟨hstarts, hminus, hplus⟩
    | group _ hread => exact (hbinary fault hread).mono (List.suffix_cons _ _)
    | unclosed => exact .unclosed
    | closing _ hread => exact (blamed_end hread).mono (List.suffix_cons _ _)
  arguments tokens hitems fault h := hitems fault (arguments_fails h).1
  items tokens hbinary hitems fault h := by
    cases items_fails h with
    | first hread => exact hbinary fault hread
    | unclosed => exact .unclosed
    | more hread _ hrest =>
      have hblamed := hitems _ _ _ hread fault hrest
      exact hblamed.mono ((List.suffix_cons _ _).trans (binary_suffix hread))
    | unexpected hread => exact blamed_end hread
  binary weakest tokens hunary hchain fault h := by
    rcases binary_fails h with hread | ⟨left, rest, hleft, hrest⟩
    · exact hunary fault hread
    · exact (hchain left rest hleft fault hrest).mono (unary_suffix hleft)
  chain weakest left tokens hstep fault h := by
    cases chain_fails h with
    | right hjoint _ hright =>
      have hblamed := (hstep _ _ _ rfl hjoint).1 fault hright
      exact hblamed.mono (operandTokens_suffix _ _ _)
    | rest hjoint _ hright hrest =>
      have hblamed := (hstep _ _ _ rfl hjoint).2 _ _ hright fault hrest
      exact hblamed.mono ((binary_suffix hright).trans (operandTokens_suffix _ _ _))

/-- **Every fault of a row of tokens is at its end or blames one of the tokens.** -/
theorem ofTokens_blamed {tokens : List Token} {fault : Fault}
    (h : Expr.ofTokens registry stop tokens = .error fault) : Blamed stop tokens fault := by
  rw [ofTokens_eq] at h
  rcases bind_eq_error.1 h with hread | ⟨⟨e, _ | ⟨token, rest⟩⟩, hread, hend⟩
  · exact blamed_closed.at_binary 0 tokens fault hread
  · cases hend
  · cases hend
    exact blamed_end hread

end Reader

end Formula
