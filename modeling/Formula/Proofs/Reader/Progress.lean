import Formula.Proofs.Grammar.Completeness

/-!
# Every step of the reader makes progress

Three functions call each other while a formula is read: `binary` for operators and operands, `unary` for
signs and `primary` for values. Here they are written once more without any bound that comes from the
tokens: the calls that a call makes go to a parameter (`body`), and the two loops are given a number of turns.
Calls may then be nested to a given depth and not deeper (`attempt`), and both limits end the reading with
`none` instead of a fault.

* `Shortens tokens rest`: something was taken off the tokens, and `rest` is what follows it.
* `Call.outcome_shortens`, `joinTurn_shortens`, `itemTurn_shortens`: a call that gives a tree shortens the
  tokens, and so does a turn of a loop that does not end in a fault.
* `Call.size` counts three for each token, and orders the calls on the same tokens: `primary` is below
  `unary`, and `unary` below `binary`.
* `body_eq`: the calls that a call makes are smaller, and its loops need one turn more than there are tokens.

`reading_progress` puts them together: the size of a call bounds the depth of the calls inside of it, so no
limit is ever met and reading ends.
-/

namespace Formula.Reader

variable {registry : Registry} {stop : Nat}

/-! ## 1. Tokens that are taken -/

/-- Some tokens were taken, at least one, and the rest follows them. -/
def Shortens (tokens rest : List Token) : Prop := ∃ taken, taken ≠ [] ∧ tokens = taken ++ rest

theorem shortens_of_suffix {tokens rest : List Token} (h : rest <:+ tokens)
    (hfewer : rest.length < tokens.length) : Shortens tokens rest := by
  obtain ⟨taken, rfl⟩ := h
  refine ⟨taken, ?_, rfl⟩
  rintro rfl
  exact Nat.lt_irrefl _ hfewer

theorem Shortens.of_suffix {tokens middle rest : List Token} (h : Shortens middle rest)
    (hmiddle : middle <:+ tokens) : Shortens tokens rest := by
  obtain ⟨taken, hne, rfl⟩ := h
  obtain ⟨front, rfl⟩ := hmiddle
  exact ⟨front ++ taken, by simp [hne], (List.append_assoc _ _ _).symm⟩

/-- Behind what was taken, one more token may be taken. -/
theorem Shortens.tail {tokens rest : List Token} {token : Token}
    (h : Shortens tokens (token :: rest)) : Shortens tokens rest := by
  obtain ⟨taken, -, rfl⟩ := h
  exact ⟨taken ++ [token], by simp, by rw [List.append_assoc, List.singleton_append]⟩

theorem unary_shortens {tokens rest : List Token} {e : Expr}
    (h : unary registry stop tokens = .ok (e, rest)) : Shortens tokens rest :=
  shortens_of_suffix (unary_suffix h) (unary_fewer h)

theorem binary_shortens {weakest : Nat} {tokens rest : List Token} {e : Expr}
    (h : binary registry stop weakest tokens = .ok (e, rest)) : Shortens tokens rest :=
  shortens_of_suffix (binary_suffix h) (binary_fewer h)

theorem primary_shortens {token : Token} {tokens rest : List Token} {e : Expr}
    (h : primary registry stop token tokens = .ok (e, rest)) : Shortens (token :: tokens) rest := by
  have hsuffix : rest <:+ tokens := suffix_closed.at_primary token tokens e rest h
  have hfewer := Nat.lt_succ_of_le hsuffix.length_le
  exact shortens_of_suffix (hsuffix.trans (List.suffix_cons _ _)) hfewer

/-! ## 2. Calls -/

/-- A call of one of the three functions, with the tokens in front of it. -/
inductive Call
  | binary (weakest : Nat) (tokens : List Token)
  | unary (tokens : List Token)
  | primary (tokens : List Token)

namespace Call

def tokens : Call → List Token
  | binary _ tokens | unary tokens | primary tokens => tokens

/-- The order of the functions among calls on the same tokens. -/
def rank : Call → Nat
  | primary _ => 0
  | unary _ => 1
  | binary _ _ => 2

/-- Calls are ordered by their tokens, and by the functions where the tokens are as many. -/
def size (call : Call) : Nat := 3 * call.tokens.length + call.rank

/-- What the reader gives for a call. -/
def outcome (registry : Registry) (stop : Nat) : Call → Step Expr
  | binary weakest tokens => Reader.binary registry stop weakest tokens
  | unary tokens => Reader.unary registry stop tokens
  | primary [] => .error ⟨.unexpectedEnd, stop⟩
  | primary (token :: rest) => Reader.primary registry stop token rest

/-- **A call that gives a tree has taken a token**, and leaves a proper suffix of its tokens. -/
theorem outcome_shortens {call : Call} {e : Expr} {rest : List Token}
    (h : call.outcome registry stop = .ok (e, rest)) : Shortens call.tokens rest := by
  match call, h with
  | binary _ _, h => exact binary_shortens h
  | unary _, h => exact unary_shortens h
  | primary (_ :: _), h => exact primary_shortens h

end Call

/-! ## 3. Reading with a limit -/

/-- A result that may fail without a fault, because a limit was met. -/
abbrev Limited (α : Type) := Except (Option Fault) α

/-- A result for which no limit was met. -/
def lift {α : Type} (x : Except Fault α) : Limited α := x.mapError some

theorem lift_bind {α β : Type} (x : Except Fault α) (f : α → Except Fault β) :
    lift (x.bind f) = (lift x).bind fun a => lift (f a) := by
  cases x <;> rfl

theorem lift_map {α β : Type} (x : Except Fault α) (f : α → β) : lift (x.map f) = (lift x).map f := by
  cases x <;> rfl

theorem lift_eq_ok {α : Type} {x : Except Fault α} {a : α} : lift x = .ok a ↔ x = .ok a := by
  cases x with
  | error fault => exact ⟨fun h => (nomatch h), fun h => (nomatch h)⟩
  | ok b => exact ⟨fun h => congrArg _ (Except.ok.inj h), fun h => congrArg _ (Except.ok.inj h)⟩

section Body

variable (registry : Registry) (stop : Nat) (read : Call → Limited (Expr × List Token))

/-- One turn of the operator loop: the formula so far, joined with one more operand. There is no turn where
    no operator goes on or the operator binds too weakly. -/
def joinTurn (weakest : Nat) (left : Expr) : List Token → Limited (Option (Expr × List Token))
  | [] => .ok none
  | token :: rest =>
    match Joint.ofToken? token with
    | none => .ok none
    | some joint =>
      if joint.operator.precedence < weakest then .ok none
      else
        (read (.binary joint.operator.rightPrecedence (joint.operandTokens token rest))).map fun r =>
          some (.binary joint.operator.symbol left r.1, r.2)

/-- The operator loop. -/
def joinLoop (weakest : Nat) : Nat → Expr → List Token → Limited (Expr × List Token)
  | 0, _, _ => .error none
  | turns + 1, left, tokens =>
    (joinTurn read weakest left tokens).bind fun
      | none => .ok (left, tokens)
      | some (joined, rest) => joinLoop weakest turns joined rest

/-- One turn of the argument loop: an argument, and whether the list is closed behind it. -/
def itemTurn (tokens : List Token) : Limited ((Expr × Bool) × List Token) :=
  (read (.binary 0 tokens)).bind fun
    | (_, []) => .error (some ⟨.unclosedParenthesis, stop⟩)
    | (e, token :: rest) =>
      if token.isSymbol ')' then .ok ((e, true), rest)
      else if token.kind = .comma then .ok ((e, false), rest)
      else .error (some (Expr.unexpected token))

/-- The argument loop. -/
def itemLoop : Nat → List Token → Limited (List Expr × List Token)
  | 0, _ => .error none
  | turns + 1, tokens =>
    (itemTurn stop read tokens).bind fun
      | ((e, true), rest) => .ok ([e], rest)
      | ((e, false), rest) => (itemLoop turns rest).map fun r => (e :: r.1, r.2)

/-- The arguments of a call, none or the ones of the loop. -/
def argumentLoop : List Token → Limited (List Expr × List Token)
  | [] => itemLoop stop read 1 []
  | token :: rest =>
    if token.isSymbol ')' then .ok ([], rest)
    else itemLoop stop read (rest.length + 2) (token :: rest)

/-- What a name with a parenthesis after it stands for. -/
def callBody (name : Token) (tokens : List Token) : Limited (Expr × List Token) :=
  match registry.function? name.text with
  | none => .error (some ⟨.unknownFunction name.text, name.position⟩)
  | some function =>
    (argumentLoop stop read tokens).bind fun r => lift (finishCall name function r)

/-- One call. The calls that it makes go to `read`, and a loop has one turn more than there are tokens. -/
def body : Call → Limited (Expr × List Token)
  | .binary weakest tokens =>
    (read (.unary tokens)).bind fun r => joinLoop read weakest (r.2.length + 1) r.1 r.2
  | .unary [] => read (.primary [])
  | .unary (token :: rest) =>
    if token.isSymbol '-' then (read (.unary rest)).map fun r => (.negation r.1, r.2)
    else if token.isSymbol '+' then read (.unary rest)
    else read (.primary (token :: rest))
  | .primary [] => .error (some ⟨.unexpectedEnd, stop⟩)
  | .primary (token :: rest) =>
    match token.kind with
    | .literal => lift (leaf rest (Expr.ofLiteral token))
    | .var => .ok (.var (Expr.variableName token.text), rest)
    | .comma => .error (some (Expr.unexpected token))
    | .operator =>
      if token.isSymbol '(' then (read (.binary 0 rest)).bind fun r => lift (close stop r)
      else .error (some (Expr.unexpected token))
    | .identifier =>
      match rest with
      | [] => lift (leaf [] (Expr.ofName registry token))
      | next :: after =>
        if next.isSymbol '(' then callBody registry stop read token after
        else lift (leaf (next :: after) (Expr.ofName registry token))

end Body

/-- A call inside of which calls are nested to a given depth at most. -/
def attempt (registry : Registry) (stop : Nat) : Nat → Call → Limited (Expr × List Token)
  | 0, _ => .error none
  | depth + 1, call => body registry stop (attempt registry stop depth) call

/-- The reader itself, without a limit. -/
def answer (registry : Registry) (stop : Nat) (call : Call) : Limited (Expr × List Token) :=
  lift (call.outcome registry stop)

/-! ## 4. Turns -/

/-- A way to read that takes tokens whenever it gives a tree. -/
def Progressive (read : Call → Limited (Expr × List Token)) : Prop :=
  ∀ call e rest, read call = .ok (e, rest) → Shortens call.tokens rest

theorem answer_progressive (registry : Registry) (stop : Nat) : Progressive (answer registry stop) :=
  fun _ _ _ h => Call.outcome_shortens (lift_eq_ok.1 h)

section Turns

variable {read : Call → Limited (Expr × List Token)} (hread : Progressive read)
include hread

/-- **A turn of the operator loop shortens the tokens.** An unwritten product takes no token by itself; its
    right operand does. -/
theorem joinTurn_shortens {weakest : Nat} {left joined : Expr} {tokens rest : List Token}
    (h : joinTurn read weakest left tokens = .ok (some (joined, rest))) : Shortens tokens rest := by
  unfold joinTurn at h
  split at h
  · cases h
  · rename_i token after
    split at h
    · cases h
    · rename_i joint _
      split at h
      · cases h
      · obtain ⟨⟨right, rest'⟩, hright, hjoined⟩ := map_eq_ok.1 h
        cases hjoined
        exact (hread _ _ _ hright).of_suffix (operandTokens_suffix joint token after)

/-- **A turn of the argument loop shortens the tokens.** -/
theorem itemTurn_shortens {tokens rest : List Token} {item : Expr × Bool}
    (h : itemTurn stop read tokens = .ok (item, rest)) : Shortens tokens rest := by
  obtain ⟨⟨e, _ | ⟨token, after⟩⟩, hitem, hnext⟩ := bind_eq_ok.1 h
  · cases hnext
  · have htaken := (hread _ _ _ hitem).tail
    dsimp only at hnext
    split at hnext
    · cases hnext
      exact htaken
    · split at hnext
      · cases hnext
        exact htaken
      · cases hnext

end Turns

/-! ## 5. Calls inside of a call -/

section Calls

variable {read : Call → Limited (Expr × List Token)}

/-- The operator loop is the one of the reader if it has a turn more than there are tokens. -/
theorem joinLoop_eq {weakest turns : Nat} {left : Expr} {tokens : List Token}
    (hread : ∀ weakest' tokens', tokens'.length ≤ tokens.length →
      read (.binary weakest' tokens') = lift (binary registry stop weakest' tokens'))
    (hturns : tokens.length < turns) :
    joinLoop read weakest turns left tokens = lift (chain registry stop weakest left tokens) := by
  induction turns generalizing left tokens with
  | zero => exact absurd hturns (Nat.not_lt_zero _)
  | succ turns ih =>
    cases tokens with
    | nil =>
      rw [joinLoop, chain_nil]
      rfl
    | cons token rest =>
      rw [joinLoop, joinTurn, chain_cons]
      cases Joint.ofToken? token with
      | none => rfl
      | some joint =>
        dsimp only
        split
        · rfl
        · have hoperand := joint.operandTokens_length_le token rest
          rw [hread _ _ hoperand, lift_bind]
          cases hright : binary registry stop joint.operator.rightPrecedence
              (joint.operandTokens token rest) with
          | error fault => rfl
          | ok r =>
            -- the turn has shortened the tokens, so one turn less is enough for the rest
            have hfewer := binary_fewer hright
            have hafter : r.2.length ≤ rest.length := by omega
            have hrest : ∀ weakest' tokens', tokens'.length ≤ r.2.length →
                read (.binary weakest' tokens') = lift (binary registry stop weakest' tokens') :=
              fun weakest' tokens' hle => hread _ _ (Nat.le_succ_of_le (Nat.le_trans hle hafter))
            rw [List.length_cons] at hturns
            exact ih hrest (by omega)

theorem itemLoop_eq {turns : Nat} {tokens : List Token}
    (hread : ∀ tokens', tokens'.length ≤ tokens.length →
      read (.binary 0 tokens') = lift (binary registry stop 0 tokens'))
    (hturns : tokens.length < turns) :
    itemLoop stop read turns tokens = lift (items registry stop tokens) := by
  induction turns generalizing tokens with
  | zero => exact absurd hturns (Nat.not_lt_zero _)
  | succ turns ih =>
    rw [itemLoop, itemTurn, items_eq, hread tokens (Nat.le_refl _), lift_bind]
    rcases hitem : binary registry stop 0 tokens with fault | ⟨e, _ | ⟨token, rest⟩⟩
    · rfl
    · rfl
    · have hfewer := binary_fewer hitem
      rw [List.length_cons] at hfewer
      have hrest : itemLoop stop read turns rest = lift (items registry stop rest) :=
        ih (fun tokens' hle => hread tokens' (by omega)) (by omega)
      show Except.bind (if token.isSymbol ')' = true then _ else _) _ = lift (nextItem _ _ _)
      rw [nextItem]
      split
      · rfl
      · split
        · rw [lift_map, ← hrest]
          rfl
        · rfl

theorem argumentLoop_eq {tokens : List Token}
    (hread : ∀ tokens', tokens'.length ≤ tokens.length →
      read (.binary 0 tokens') = lift (binary registry stop 0 tokens')) :
    argumentLoop stop read tokens = lift (arguments registry stop tokens) := by
  cases tokens with
  | nil => exact (itemLoop_eq hread Nat.one_pos).trans (congrArg lift (arguments_nil registry stop).symm)
  | cons token rest =>
    rw [argumentLoop, arguments_cons]
    split
    · rfl
    · exact itemLoop_eq hread (Nat.lt_succ_self _)

theorem callBody_eq {name : Token} {tokens : List Token}
    (hread : ∀ tokens', tokens'.length ≤ tokens.length →
      read (.binary 0 tokens') = lift (binary registry stop 0 tokens')) :
    callBody registry stop read name tokens = lift (call registry stop name tokens) := by
  unfold callBody call
  cases registry.function? name.text with
  | none => rfl
  | some function =>
    dsimp only
    rw [argumentLoop_eq hread, lift_bind]

/-- A value is read with calls on the tokens behind its first one. -/
theorem primaryBody_eq {token : Token} {rest : List Token}
    (hread : ∀ tokens', tokens'.length ≤ rest.length →
      read (.binary 0 tokens') = lift (binary registry stop 0 tokens')) :
    body registry stop read (.primary (token :: rest)) = lift (primary registry stop token rest) := by
  rw [body.eq_def]
  dsimp only
  cases hkind : token.kind with
  | literal => rw [primary_literal _ _ hkind]
  | var =>
    rw [primary_var _ _ hkind]
    rfl
  | comma =>
    rw [primary_comma _ _ hkind]
    rfl
  | operator =>
    rw [primary_operator _ _ hkind, hread rest (Nat.le_refl _), ← lift_bind]
    dsimp only
    split <;> rfl
  | identifier =>
    cases rest with
    | nil => rw [primary_name_nil _ _ hkind]
    | cons next after =>
      have hcall : callBody registry stop read token after = lift (call registry stop token after) :=
        callBody_eq fun tokens' hle => hread tokens' (Nat.le_succ_of_le hle)
      rw [primary_name_cons _ _ hkind]
      dsimp only
      rw [hcall]
      split <;> rfl

/-- **The calls that a call makes are smaller.** If those are answered as the reader answers them, so is the
    call. -/
theorem body_eq {call : Call}
    (hread : ∀ inner : Call, inner.size < call.size → read inner = answer registry stop inner) :
    body registry stop read call = answer registry stop call := by
  cases call with
  | binary weakest tokens =>
    have hunary := hread (.unary tokens) (Nat.lt_succ_self _)
    rw [body, hunary, answer, answer, Call.outcome, Call.outcome, binary_eq, lift_bind]
    cases hleft : unary registry stop tokens with
    | error fault => rfl
    | ok r =>
      have hfewer := unary_fewer hleft
      refine joinLoop_eq (fun weakest' tokens' hle => hread (.binary weakest' tokens') ?_)
        (Nat.lt_succ_self _)
      simp only [Call.size, Call.tokens, Call.rank]
      omega
  | unary tokens =>
    cases tokens with
    | nil =>
      have hprimary := hread (.primary []) (Nat.lt_succ_self _)
      rw [body, hprimary, answer, answer, Call.outcome, Call.outcome, unary_nil]
    | cons token rest =>
      have hprimary := hread (.primary (token :: rest)) (Nat.lt_succ_self _)
      have hunary : read (.unary rest) = lift (unary registry stop rest) :=
        hread (.unary rest) (by simp only [Call.size, Call.tokens, Call.rank, List.length_cons]; omega)
      rw [body, hprimary, hunary, answer, answer, Call.outcome, Call.outcome, unary_cons, ← lift_map]
      split
      · rfl
      · split <;> rfl
  | primary tokens =>
    cases tokens with
    | nil => rfl
    | cons token rest =>
      have hbinary : ∀ tokens', tokens'.length ≤ rest.length →
          read (.binary 0 tokens') = lift (binary registry stop 0 tokens') := by
        intro tokens' hle
        refine hread (.binary 0 tokens') ?_
        simp only [Call.size, Call.tokens, Call.rank, List.length_cons]
        omega
      exact primaryBody_eq hbinary

end Calls

/-! ## 6. Reading ends -/

/-- **Calls nested as deep as the size of a call are enough for it.** -/
theorem attempt_eq {depth : Nat} {call : Call} (h : call.size < depth) :
    attempt registry stop depth call = answer registry stop call := by
  induction depth generalizing call with
  | zero => exact absurd h (Nat.not_lt_zero _)
  | succ depth ih => exact body_eq fun inner hinner => ih (by omega)

/-- A formula with nothing after it. -/
def whole : Expr × List Token → Except Fault Expr
  | (e, []) => .ok e
  | (_, token :: _) => .error (Expr.unexpected token)

theorem ofTokens_eq_whole (tokens : List Token) :
    Expr.ofTokens registry stop tokens = (binary registry stop 0 tokens).bind whole := by
  rw [ofTokens_eq]
  rcases binary registry stop 0 tokens with fault | ⟨e, _ | ⟨token, rest⟩⟩ <;> rfl

/-- **Every step of the reader makes progress, and reading ends.** The tokens are of any text and kind, and
    they may be what is left of a longer row.

    * A call that gives a tree has taken a token at least and leaves a proper suffix.
    * So does a turn of the operator loop, and a turn of the argument loop that does not end in a fault.
    * A call makes smaller calls only: fewer tokens are left, or as many and the function is a lower one. Its
      loops are over after as many turns as there are tokens and one more.
    * So calls are not nested deeper than the size of the first one, and a whole row of tokens is read with no
      limit met, to a tree or to a fault. -/
theorem reading_progress (registry : Registry) (stop : Nat) :
    (∀ (call : Call) e rest, call.outcome registry stop = .ok (e, rest) →
      Shortens call.tokens rest) ∧
    (∀ weakest left tokens joined rest,
      joinTurn (answer registry stop) weakest left tokens = .ok (some (joined, rest)) →
      Shortens tokens rest) ∧
    (∀ tokens item rest, itemTurn stop (answer registry stop) tokens = .ok (item, rest) →
      Shortens tokens rest) ∧
    (∀ read call, (∀ inner : Call, inner.size < call.size → read inner = answer registry stop inner) →
      body registry stop read call = answer registry stop call) ∧
    (∀ depth call, call.size < depth → attempt registry stop depth call = answer registry stop call) ∧
    ∀ tokens, ((attempt registry stop (3 * tokens.length + 3) (.binary 0 tokens)).bind fun r =>
      lift (whole r)) = lift (Expr.ofTokens registry stop tokens) := by
  have hturn := answer_progressive registry stop
  refine ⟨fun _ _ _ h => Call.outcome_shortens h, fun _ _ _ _ _ h => joinTurn_shortens hturn h,
    fun _ _ _ h => itemTurn_shortens hturn h, fun _ _ h => body_eq h, fun _ _ h => attempt_eq h,
    fun tokens => ?_⟩
  have hdepth : attempt registry stop (3 * tokens.length + 3) (.binary 0 tokens) =
      answer registry stop (.binary 0 tokens) := attempt_eq (Nat.lt_succ_self _)
  rw [hdepth, ofTokens_eq_whole, lift_bind]
  rfl

/-- The tokens of `$x$y)`, which may stand behind the parenthesis of a call. -/
def closedProduct : List Token := [⟨"$x", .var, 4⟩, ⟨"$y", .var, 6⟩, ⟨")", .operator, 8⟩]

/-- The product without an operator is joined in a turn that takes `$y`, and the one argument of the call is
    read in a turn that takes all tokens. -/
theorem reading_progress_product :
    ((Call.binary 0 closedProduct).outcome .standard 9 =
        .ok (.binary '*' (.var "x") (.var "y"), closedProduct.drop 2) ∧
      Shortens closedProduct (closedProduct.drop 2)) ∧
    (joinTurn (answer .standard 9) 0 (.var "x") (closedProduct.drop 1) =
        .ok (some (.binary '*' (.var "x") (.var "y"), closedProduct.drop 2)) ∧
      Shortens (closedProduct.drop 1) (closedProduct.drop 2)) ∧
    (itemTurn 9 (answer .standard 9) closedProduct =
        .ok ((.binary '*' (.var "x") (.var "y"), true), []) ∧
      Shortens closedProduct []) ∧
    body .standard 9 (answer .standard 9) (.binary 0 closedProduct) =
      answer .standard 9 (.binary 0 closedProduct) ∧
    attempt .standard 9 12 (.binary 0 closedProduct) =
      .ok (.binary '*' (.var "x") (.var "y"), closedProduct.drop 2) := by
  obtain ⟨hcall, hjoin, hitem, hbody, hdepth, -⟩ := reading_progress .standard 9
  have hvar (name : String) (position : Nat) (rest : List Token) (weakest : Nat) :
      binary .standard 9 weakest (⟨name, .var, position⟩ :: rest) =
        chain .standard 9 weakest (.var (Expr.variableName name)) rest :=
    Grammar.binary_of_unary ((Grammar.unary_of_kind (by simp)).trans (primary_var _ _ rfl rest)) weakest
  have hright : binary .standard 9 41 (closedProduct.drop 1) = .ok (.var "y", closedProduct.drop 2) :=
    (hvar "$y" 6 _ 41).trans (chain_of_stops (Grammar.stops_closing rfl 41 []) _)
  have hread : binary .standard 9 0 closedProduct =
      .ok (.binary '*' (.var "x") (.var "y"), closedProduct.drop 2) := by
    have hderives : Derives .standard .sum closedProduct (closedProduct.drop 2)
        (.binary '*' (.var "x") (.var "y")) :=
      .product (.juxtapose rfl (.power (.signed (.primary (.var rfl)))) (.signed (.primary (.var rfl))))
    exact Grammar.binary_closing (Grammar.reads_of_derives hderives) rfl
  have hturn : joinTurn (answer .standard 9) 0 (.var "x") (closedProduct.drop 1) =
      .ok (some (.binary '*' (.var "x") (.var "y"), closedProduct.drop 2)) := by
    show (lift (binary .standard 9 41 (closedProduct.drop 1))).map _ = _
    rw [hright]
    rfl
  have hargument : itemTurn 9 (answer .standard 9) closedProduct =
      .ok ((.binary '*' (.var "x") (.var "y"), true), []) := by
    show (lift (binary .standard 9 0 closedProduct)).bind _ = _
    rw [hread]
    rfl
  have hanswer : answer .standard 9 (.binary 0 closedProduct) =
      .ok (.binary '*' (.var "x") (.var "y"), closedProduct.drop 2) := congrArg lift hread
  have henough : (Call.binary 0 closedProduct).size < 12 := by decide
  exact ⟨⟨hread, hcall (.binary 0 closedProduct) _ _ hread⟩, ⟨hturn, hjoin _ _ _ _ _ hturn⟩,
    ⟨hargument, hitem _ _ _ hargument⟩, hbody _ _ fun _ _ => rfl, (hdepth 12 _ henough).trans hanswer⟩

end Formula.Reader
