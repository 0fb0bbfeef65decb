import Formula.Proofs.Reader.Steps

/-!
# How a step of the reader succeeds

One inductive description for each step of the reader: a constructor for each way in which the step
can give a value, with all that was checked on the way. A proof about what was read splits on these
and never on the text of the reader.

* `UnaryRead`, `PrimaryRead`, `ArgumentsRead`, `ItemsRead`, `ChainRead`, and `binary_ok` for the
  step that only joins two others.
* `Stops limit tokens`: no operator of precedence `limit` or more goes on at the head of the tokens.
  A formula read down to a precedence leaves tokens that stop there (`binary_stops`).
* `binary_suffix`: a step leaves a suffix of the tokens that it was given.
* `ofTokens_ok_iff`: a whole formula is a step that leaves nothing.
-/

namespace Formula.Reader

variable {registry : Registry} {stop : Nat}

/-! ## 1. Successful results -/

theorem bind_eq_ok {ε α β : Type} {x : Except ε α} {f : α → Except ε β} {b : β} :
    x.bind f = .ok b ↔ ∃ a, x = .ok a ∧ f a = .ok b := by
  cases x with
  | error e => simp [Except.bind]
  | ok a => simp [Except.bind]

theorem map_eq_ok {ε α β : Type} {x : Except ε α} {f : α → β} {b : β} :
    x.map f = .ok b ↔ ∃ a, x = .ok a ∧ f a = b := by
  cases x with
  | error e => simp [Except.map]
  | ok a => simp [Except.map]

theorem leaf_eq_ok {rest left : List Token} {x : Except Fault Expr} {e : Expr} :
    leaf rest x = .ok (e, left) ↔ x = .ok e ∧ rest = left := by
  cases x with
  | error fault => simp [leaf]
  | ok a => simp [leaf]

theorem ofLiteral_ok {token : Token} {e : Expr} (h : Expr.ofLiteral token = .ok e) :
    ∃ value, Double.read token.text = .ok value ∧ e = .number value token.text := by
  unfold Expr.ofLiteral at h
  split at h
  · rename_i value hvalue
    cases h
    exact ⟨value, hvalue, rfl⟩
  · cases h

theorem ofName_ok {token : Token} {e : Expr} (h : Expr.ofName registry token = .ok e) :
    ∃ found, registry.constant? token.text = some found ∧ e = .constant token.text found.value := by
  unfold Expr.ofName at h
  split at h
  · rename_i found hfound
    cases h
    exact ⟨found, hfound, rfl⟩
  · cases h

theorem close_ok {r : Expr × List Token} {e : Expr} {left : List Token}
    (h : close stop r = .ok (e, left)) :
    ∃ closing, closing.isSymbol ')' = true ∧ r = (e, closing :: left) := by
  obtain ⟨f, _ | ⟨closing, after⟩⟩ := r
  · cases h
  · rw [close] at h
    split at h
    · rename_i hclosing
      cases h
      exact ⟨closing, hclosing, rfl⟩
    · cases h

/-! ## 2. Operands -/

/-- How an operand with its signs is read. -/
inductive UnaryRead (registry : Registry) (stop : Nat) : List Token → Expr → List Token → Prop
  | minus {token : Token} {rest left : List Token} {e : Expr} (hsign : token.isSymbol '-' = true)
      (hread : unary registry stop rest = .ok (e, left)) :
      UnaryRead registry stop (token :: rest) (.negation e) left
  | plus {token : Token} {rest left : List Token} {e : Expr} (hsign : token.isSymbol '+' = true)
      (hread : unary registry stop rest = .ok (e, left)) :
      UnaryRead registry stop (token :: rest) e left
  | primary {token : Token} {rest left : List Token} {e : Expr}
      (hread : primary registry stop token rest = .ok (e, left)) :
      UnaryRead registry stop (token :: rest) e left

theorem unary_read {tokens left : List Token} {e : Expr}
    (h : unary registry stop tokens = .ok (e, left)) : UnaryRead registry stop tokens e left := by
  cases tokens with
  | nil => rw [unary_nil] at h; cases h
  | cons token rest =>
    rw [unary_cons] at h
    split at h
    · rename_i hsign
      obtain ⟨⟨f, left'⟩, hread, hf⟩ := map_eq_ok.1 h
      cases hf
      exact .minus hsign hread
    · split at h
      · rename_i hsign
        exact .plus hsign h
      · exact .primary h

/-- How a value that begins with a token is read. -/
inductive PrimaryRead (registry : Registry) (stop : Nat) (token : Token) :
    List Token → Expr → List Token → Prop
  | literal {rest : List Token} {value : Float} (hkind : token.kind = .literal)
      (hvalue : Double.read token.text = .ok value) :
      PrimaryRead registry stop token rest (.number value token.text) rest
  | var {rest : List Token} (hkind : token.kind = .var) :
      PrimaryRead registry stop token rest (.var (Expr.variableName token.text)) rest
  | group {rest left : List Token} {closing : Token} {e : Expr}
      (hopening : token.isSymbol '(' = true)
      (hread : binary registry stop 0 rest = .ok (e, closing :: left))
      (hclosing : closing.isSymbol ')' = true) : PrimaryRead registry stop token rest e left
  | call {opening : Token} {rest left : List Token} {function : Function} {es : List Expr}
      (hkind : token.kind = .identifier) (hopening : opening.isSymbol '(' = true)
      (hfunction : registry.function? token.text = some function)
      (hread : arguments registry stop rest = .ok (es, left))
      (harity : function.arity.accepts es.length = true) :
      PrimaryRead registry stop token (opening :: rest) (.call token.text es) left
  | constant {rest : List Token} {found : Constant} (hkind : token.kind = .identifier)
      (hnext : ∀ next ∈ rest.head?, next.isSymbol '(' = false)
      (hfound : registry.constant? token.text = some found) :
      PrimaryRead registry stop token rest (.constant token.text found.value) rest

theorem call_ok {token : Token} {rest left : List Token} {e : Expr}
    (h : call registry stop token rest = .ok (e, left)) :
    ∃ function es, registry.function? token.text = some function ∧
      arguments registry stop rest = .ok (es, left) ∧ function.arity.accepts es.length = true ∧
      e = .call token.text es := by
  unfold call at h
  split at h
  · cases h
  · rename_i function hfunction
    obtain ⟨⟨es, left'⟩, hread, hfinish⟩ := bind_eq_ok.1 h
    unfold finishCall at hfinish
    dsimp only at hfinish
    split at hfinish
    · rename_i harity
      cases hfinish
      exact ⟨function, es, hfunction, hread, harity, rfl⟩
    · cases hfinish

theorem primary_read {token : Token} {rest left : List Token} {e : Expr}
    (h : primary registry stop token rest = .ok (e, left)) :
    PrimaryRead registry stop token rest e left := by
  cases hkind : token.kind with
  | literal =>
    rw [primary_literal _ _ hkind] at h
    obtain ⟨hliteral, rfl⟩ := leaf_eq_ok.1 h
    obtain ⟨value, hvalue, rfl⟩ := ofLiteral_ok hliteral
    exact .literal hkind hvalue
  | var =>
    rw [primary_var _ _ hkind] at h
    cases h
    exact .var hkind
  | comma => rw [primary_comma _ _ hkind] at h; cases h
  | operator =>
    rw [primary_operator _ _ hkind] at h
    split at h
    · rename_i hopening
      obtain ⟨r, hread, hclose⟩ := bind_eq_ok.1 h
      obtain ⟨closing, hclosing, rfl⟩ := close_ok hclose
      exact .group hopening hread hclosing
    · cases h
  | identifier =>
    cases rest with
    | nil =>
      rw [primary_name_nil _ _ hkind] at h
      obtain ⟨hname, rfl⟩ := leaf_eq_ok.1 h
      obtain ⟨found, hfound, rfl⟩ := ofName_ok hname
      exact .constant hkind (by simp) hfound
    | cons next after =>
      rw [primary_name_cons _ _ hkind] at h
      split at h
      · rename_i hopening
        obtain ⟨function, es, hfunction, hread, harity, rfl⟩ := call_ok h
        exact .call hkind hopening hfunction hread harity
      · rename_i hopening
        obtain ⟨hname, rfl⟩ := leaf_eq_ok.1 h
        obtain ⟨found, hfound, rfl⟩ := ofName_ok hname
        exact .constant hkind (by simpa using hopening) hfound

/-! ## 3. Arguments -/

/-- How at least one argument is read. -/
inductive ItemsRead (registry : Registry) (stop : Nat) :
    List Token → List Expr → List Token → Prop
  | last {tokens left : List Token} {closing : Token} {e : Expr}
      (hread : binary registry stop 0 tokens = .ok (e, closing :: left))
      (hclosing : closing.isSymbol ')' = true) : ItemsRead registry stop tokens [e] left
  | more {tokens rest left : List Token} {comma : Token} {e : Expr} {es : List Expr}
      (hread : binary registry stop 0 tokens = .ok (e, comma :: rest))
      (hcomma : comma.kind = .comma) (hrest : items registry stop rest = .ok (es, left)) :
      ItemsRead registry stop tokens (e :: es) left

theorem items_read {tokens left : List Token} {es : List Expr}
    (h : items registry stop tokens = .ok (es, left)) : ItemsRead registry stop tokens es left := by
  rw [items_eq] at h
  obtain ⟨⟨e, _ | ⟨token, rest⟩⟩, hread, hnext⟩ := bind_eq_ok.1 h
  · cases hnext
  · unfold nextItem at hnext
    dsimp only at hnext
    split at hnext
    · rename_i hclosing
      cases hnext
      exact .last hread hclosing
    · split at hnext
      · rename_i hcomma
        obtain ⟨⟨es', left'⟩, hrest, hes⟩ := map_eq_ok.1 hnext
        cases hes
        exact .more hread hcomma hrest
      · cases hnext

/-- How the arguments of a call are read. -/
inductive ArgumentsRead (registry : Registry) (stop : Nat) :
    List Token → List Expr → List Token → Prop
  | none {closing : Token} {left : List Token} (hclosing : closing.isSymbol ')' = true) :
      ArgumentsRead registry stop (closing :: left) [] left
  | some {tokens left : List Token} {es : List Expr}
      (hread : items registry stop tokens = .ok (es, left)) :
      ArgumentsRead registry stop tokens es left

theorem arguments_read {tokens left : List Token} {es : List Expr}
    (h : arguments registry stop tokens = .ok (es, left)) :
    ArgumentsRead registry stop tokens es left := by
  cases tokens with
  | nil => rw [arguments_nil] at h; exact .some h
  | cons token rest =>
    rw [arguments_cons] at h
    split at h
    · rename_i hclosing
      cases h
      exact .none hclosing
    · exact .some h

/-! ## 4. Operators -/

/-- No operator of precedence `limit` or more goes on at the head of the tokens. -/
def Stops (limit : Nat) (tokens : List Token) : Prop :=
  ∀ token ∈ tokens.head?, ∀ joint, Joint.ofToken? token = some joint →
    joint.operator.precedence < limit

theorem Stops.mono {m n : Nat} {tokens : List Token} (h : Stops m tokens) (hmn : m ≤ n) :
    Stops n tokens :=
  fun token htoken joint hjoint => Nat.lt_of_lt_of_le (h token htoken joint hjoint) hmn

theorem stops_nil (limit : Nat) : Stops limit [] := fun token h => by simp at h

theorem stops_cons {limit : Nat} {token : Token} {rest : List Token} :
    Stops limit (token :: rest) ↔
      ∀ joint, Joint.ofToken? token = some joint → joint.operator.precedence < limit := by
  simp [Stops]

theorem binary_ok {weakest : Nat} {tokens rest : List Token} {e : Expr}
    (h : binary registry stop weakest tokens = .ok (e, rest)) :
    ∃ left after, unary registry stop tokens = .ok (left, after) ∧
      chain registry stop weakest left after = .ok (e, rest) := by
  rw [binary_eq] at h
  obtain ⟨⟨left, after⟩, hleft, hchain⟩ := bind_eq_ok.1 h
  exact ⟨left, after, hleft, hchain⟩

/-- How operators and operands are read after an operand. -/
inductive ChainRead (registry : Registry) (stop weakest : Nat) (left : Expr) :
    List Token → Expr → List Token → Prop
  | done {tokens : List Token} (hstops : Stops weakest tokens) :
      ChainRead registry stop weakest left tokens left tokens
  | step {token : Token} {tokens after rest : List Token} {joint : Joint} {right e : Expr}
      (hjoint : Joint.ofToken? token = some joint) (hweakest : weakest ≤ joint.operator.precedence)
      (hright : binary registry stop joint.operator.rightPrecedence
        (joint.operandTokens token tokens) = .ok (right, after))
      (hrest : chain registry stop weakest (.binary joint.operator.symbol left right) after =
        .ok (e, rest)) :
      ChainRead registry stop weakest left (token :: tokens) e rest

theorem chain_read {weakest : Nat} {left e : Expr} {tokens rest : List Token}
    (h : chain registry stop weakest left tokens = .ok (e, rest)) :
    ChainRead registry stop weakest left tokens e rest := by
  cases tokens with
  | nil =>
    rw [chain_nil] at h
    cases h
    exact .done (stops_nil weakest)
  | cons token tokens =>
    rw [chain_cons] at h
    split at h
    · rename_i hjoint
      cases h
      exact .done (stops_cons.2 (by simp [hjoint]))
    · rename_i joint hjoint
      split at h
      · rename_i hlow
        cases h
        exact .done (stops_cons.2 (by simp [hjoint, hlow]))
      · rename_i hlow
        obtain ⟨⟨right, after⟩, hright, hrest⟩ := bind_eq_ok.1 h
        exact .step hjoint (Nat.not_lt.1 hlow) hright hrest

/-- Where no operator goes on, the operand so far is the whole formula. -/
theorem chain_of_stops {weakest : Nat} {tokens : List Token} (h : Stops weakest tokens)
    (left : Expr) : chain registry stop weakest left tokens = .ok (left, tokens) := by
  cases tokens with
  | nil => exact chain_nil registry stop weakest left
  | cons token rest =>
    rw [chain_cons]
    cases hjoint : Joint.ofToken? token with
    | none => rfl
    | some joint => exact if_pos (stops_cons.1 h joint hjoint)

/-- A chain goes on with an operator that binds tightly enough. -/
theorem chain_of_joint {weakest : Nat} {left : Expr} {token : Token} {rest : List Token}
    {joint : Joint} (hjoint : Joint.ofToken? token = some joint)
    (hweakest : weakest ≤ joint.operator.precedence) :
    chain registry stop weakest left (token :: rest) =
      (binary registry stop joint.operator.rightPrecedence (joint.operandTokens token rest)).bind
        fun r => chain registry stop weakest (.binary joint.operator.symbol left r.1) r.2 := by
  rw [chain_cons, hjoint]
  exact if_neg (Nat.not_lt.2 hweakest)

/-- **A chain ends where no operator of its precedence goes on.** -/
theorem chain_stops {weakest : Nat} {left e : Expr} {tokens rest : List Token}
    (h : chain registry stop weakest left tokens = .ok (e, rest)) : Stops weakest rest := by
  cases chain_read h with
  | done hstops => exact hstops
  | @step token tokens after _ joint right _ hjoint _ hright hrest =>
    have hafter := binary_fewer hright
    have hlength := joint.operandTokens_length_le token tokens
    exact chain_stops hrest
termination_by tokens.length
decreasing_by subst_vars; rw [List.length_cons]; omega

theorem binary_stops {weakest : Nat} {tokens rest : List Token} {e : Expr}
    (h : binary registry stop weakest tokens = .ok (e, rest)) : Stops weakest rest := by
  obtain ⟨left, after, _, hchain⟩ := binary_ok h
  exact chain_stops hchain

/-! ## 5. What is left over -/

theorem operandTokens_suffix (joint : Joint) (token : Token) (rest : List Token) :
    joint.operandTokens token rest <:+ token :: rest := by
  unfold Joint.operandTokens
  split
  · exact List.suffix_cons token rest
  · exact List.suffix_rfl

theorem suffix_closed : Closed registry stop
    (fun tokens => ∀ e rest, unary registry stop tokens = .ok (e, rest) → rest <:+ tokens)
    (fun token tokens => ∀ e rest, primary registry stop token tokens = .ok (e, rest) →
      rest <:+ tokens)
    (fun tokens => ∀ es rest, arguments registry stop tokens = .ok (es, rest) → rest <:+ tokens)
    (fun tokens => ∀ es rest, items registry stop tokens = .ok (es, rest) → rest <:+ tokens)
    (fun weakest tokens => ∀ e rest, binary registry stop weakest tokens = .ok (e, rest) →
      rest <:+ tokens)
    (fun weakest left tokens => ∀ e rest, chain registry stop weakest left tokens = .ok (e, rest) →
      rest <:+ tokens) where
  unary_nil e rest h := by rw [unary_nil] at h; cases h
  unary_cons token tokens hunary hprimary e rest h := by
    cases unary_read h with
    | minus _ hread => exact (hunary _ _ hread).trans (List.suffix_cons _ _)
    | plus _ hread => exact (hunary _ _ hread).trans (List.suffix_cons _ _)
    | primary hread => exact (hprimary _ _ hread).trans (List.suffix_cons _ _)
  primary token tokens hbinary harguments e rest h := by
    cases primary_read h with
    | literal => exact List.suffix_rfl
    | var => exact List.suffix_rfl
    | group _ hread => exact (List.suffix_cons _ _).trans (hbinary _ _ hread)
    | call _ _ _ hread => exact (harguments _ _ rfl _ _ hread).trans (List.suffix_cons _ _)
    | constant => exact List.suffix_rfl
  arguments tokens hitems es rest h := by
    cases arguments_read h with
    | none => exact List.suffix_cons _ _
    | some hread => exact hitems _ _ hread
  items tokens hbinary hitems es rest h := by
    cases items_read h with
    | last hread => exact (List.suffix_cons _ _).trans (hbinary _ _ hread)
    | more hread _ hrest =>
      exact (hitems _ _ _ hread _ _ hrest).trans
        ((List.suffix_cons _ _).trans (hbinary _ _ hread))
  binary weakest tokens hunary hchain e rest h := by
    obtain ⟨left, after, hleft, hrest⟩ := binary_ok h
    exact (hchain _ _ hleft _ _ hrest).trans (hunary _ _ hleft)
  chain weakest left tokens hstep e rest h := by
    cases chain_read h with
    | done => exact List.suffix_rfl
    | step hjoint _ hright hrest =>
      obtain ⟨hbinary, hchain⟩ := hstep _ _ _ rfl hjoint
      exact (hchain _ _ hright _ _ hrest).trans
        ((hbinary _ _ hright).trans (operandTokens_suffix _ _ _))

/-- A formula leaves a suffix of its tokens. -/
theorem binary_suffix {weakest : Nat} {tokens rest : List Token} {e : Expr}
    (h : binary registry stop weakest tokens = .ok (e, rest)) : rest <:+ tokens :=
  suffix_closed.at_binary weakest tokens e rest h

/-- An operand leaves a suffix of its tokens. -/
theorem unary_suffix {tokens rest : List Token} {e : Expr}
    (h : unary registry stop tokens = .ok (e, rest)) : rest <:+ tokens :=
  suffix_closed.at_unary tokens e rest h

/-! ## 6. Whole formulas -/

/-- A row of tokens is a formula if one is read off it and nothing is left. -/
theorem ofTokens_ok_iff {tokens : List Token} {e : Expr} :
    Expr.ofTokens registry stop tokens = .ok e ↔ binary registry stop 0 tokens = .ok (e, []) := by
  rw [ofTokens_eq, bind_eq_ok]
  constructor
  · rintro ⟨⟨f, _ | ⟨token, rest⟩⟩, hread, hend⟩
    · cases hend
      exact hread
    · cases hend
  · intro hread
    exact ⟨(e, []), hread, rfl⟩

end Formula.Reader
