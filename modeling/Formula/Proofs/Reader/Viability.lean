import Formula.Proofs.Reader.Failure
import Formula.Proofs.Reader.Lookahead
import Formula.Proofs.Token.Place

/-!
# The first token that cannot stand is the one that is reported

A token is reported as unexpected as soon as it is met: what comes before it could still have become a
formula, and what comes after it does not matter.

* `RunsOut stop x`: the result says that the source ends too early, and nothing else.
* `Blames step tokens fault before token after`: the fault is that of the token; the step has it whatever
  comes after the token, and on the tokens before it the step only runs out.
* `Blames.behind` hands blame on from a step to the one that calls it, behind the tokens that are
  taken by then. What was taken without a fault is taken again from any tokens that begin alike
  (`Takes`).
* `blames_closed` is one step of each kind.

`ofTokens_unexpected` is the main statement, for tokens that write the symbols of the language.
-/

namespace Formula

/-- The fault is a token that cannot stand where it is. -/
def Fault.IsUnexpected (fault : Fault) : Prop := ∃ text, fault.cause = .unexpectedToken text

namespace Reader

variable {registry : Registry} {stop : Nat} {α β : Type}

/-! ## 1. Blame -/

/-- The tokens end where more were wanted. -/
def RunsOut (stop : Nat) (x : Except Fault α) : Prop :=
  x = .error ⟨.unexpectedEnd, stop⟩ ∨ x = .error ⟨.unclosedParenthesis, stop⟩

/-- The step fails because of one token, whatever comes after it. Up to that token it only runs out. -/
structure Blames (step : Nat → List Token → Except Fault α) (tokens : List Token) (fault : Fault)
    (before : List Token) (token : Token) (after : List Token) : Prop where
  split : tokens = before ++ token :: after
  fault_eq : fault = Expr.unexpected token
  nothing : token.BeginsNothing
  again : ∀ stop others, step stop (before ++ token :: others) = .error fault
  viable : ∀ stop, RunsOut stop (step stop before)

/-- If the step reports an unexpected token, then it blames it. -/
def Faithful (step : Nat → List Token → Except Fault α) (stop : Nat) (tokens : List Token) : Prop :=
  ∀ fault, step stop tokens = .error fault → fault.IsUnexpected →
    ∃ before token after, Blames step tokens fault before token after

/-- Tokens begin alike up to and with a token, whatever comes after it. -/
theorem sameNext_blamed (before : List Token) (token : Token) (after others : List Token) :
    SameNext (before ++ token :: after) (before ++ token :: others) :=
  (sameNext_cons token after others).append before

/-- **A step that fails as another one does blames what that one blames**, behind the tokens that it
    has taken by then. -/
theorem Blames.behind {step : Nat → List Token → Except Fault α}
    {next : Nat → List Token → Except Fault β} {tokens before after : List Token} {fault : Fault}
    {token : Token} (h : Blames step tokens fault before token after) (front : List Token)
    (hnext : ∀ stop others fault, SameNext tokens others → step stop others = .error fault →
      next stop (front ++ others) = .error fault) :
    Blames next (front ++ tokens) fault (front ++ before) token after where
  split := by rw [h.split, List.append_assoc]
  fault_eq := h.fault_eq
  nothing := h.nothing
  again stop others := by
    have hsame : SameNext tokens (before ++ token :: others) := by
      rw [h.split]
      exact sameNext_blamed before token after others
    rw [List.append_assoc]
    exact hnext stop _ fault hsame (h.again stop others)
  viable stop := by
    have hsame : SameNext tokens before := by
      have hprefix := (sameNext_nil (token :: after)).append before
      rwa [← h.split, List.append_nil] at hprefix
    rcases h.viable stop with hend | hopen
    · exact .inl (hnext stop before _ hsame hend)
    · exact .inr (hnext stop before _ hsame hopen)

theorem Faithful.behind {step : Nat → List Token → Except Fault α}
    {next : Nat → List Token → Except Fault β} {tokens : List Token} {fault : Fault}
    (h : Faithful step stop tokens) (hfault : step stop tokens = .error fault)
    (hunexpected : fault.IsUnexpected) (front : List Token)
    (hnext : ∀ stop others fault, SameNext tokens others → step stop others = .error fault →
      next stop (front ++ others) = .error fault) :
    ∃ before token after, Blames next (front ++ tokens) fault before token after := by
  obtain ⟨before, token, after, hblames⟩ := h fault hfault hunexpected
  exact ⟨front ++ before, token, after, hblames.behind front hnext⟩

/-! ## 2. Steps that fail as the steps that they call -/

theorem primary_unexpected {token : Token} (h : token.startsOperand = false) (rest : List Token) :
    primary registry stop token rest = .error (Expr.unexpected token) := by
  cases hkind : token.kind with
  | literal | var | identifier => simp [Token.startsOperand, hkind] at h
  | comma => exact primary_comma registry stop hkind rest
  | operator =>
    have hopening : token.isSymbol '(' = false := by simpa [Token.startsOperand, hkind] using h
    rw [primary_operator _ _ hkind, hopening]
    rfl

theorem arguments_eq_items {tokens : List Token}
    (h : ∀ token ∈ tokens.head?, token.isSymbol ')' = false) :
    arguments registry stop tokens = items registry stop tokens := by
  cases tokens with
  | nil => exact arguments_nil registry stop
  | cons token rest =>
    rw [arguments_cons, h token rfl]
    rfl

theorem binary_of_unary_error {weakest : Nat} {tokens : List Token} {fault : Fault}
    (h : unary registry stop tokens = .error fault) :
    binary registry stop weakest tokens = .error fault := by
  rw [binary_eq, h]
  rfl

theorem items_of_binary_error {tokens : List Token} {fault : Fault}
    (h : binary registry stop 0 tokens = .error fault) :
    items registry stop tokens = .error fault := by
  rw [items_eq, h]
  rfl

/-! ## 3. Operands and arguments -/

/-- What a value cannot begin with is blamed on the spot. -/
theorem blames_here {token : Token} (h : token.BeginsNothing) (rest : List Token) :
    Blames (unary registry) (token :: rest) (Expr.unexpected token) [] token rest where
  split := rfl
  fault_eq := rfl
  nothing := h
  again stop others := by
    rw [List.nil_append, Grammar.unary_of_primary h.minus h.plus]
    exact primary_unexpected h.starts others
  viable stop := .inl (unary_nil registry stop)

/-- Instead of a closing parenthesis there is another token, which does not go on with the formula. -/
theorem blames_closing {token other : Token} {rest left : List Token} {e : Expr}
    (hopening : token.isSymbol '(' = true)
    (hread : binary registry stop 0 rest = .ok (e, other :: left))
    (hother : other.isSymbol ')' = false) :
    ∃ before after,
      Blames (unary registry) (token :: rest) (Expr.unexpected other) before other after := by
  obtain ⟨taken, htakes⟩ := binary_takes hread
  have hgroup (stop : Nat) (others : List Token) : unary registry stop (token :: others) =
      (binary registry stop 0 others).bind (close stop) := by
    have hminus := Token.isSymbol_ne hopening (show '(' ≠ '-' by decide)
    have hplus := Token.isSymbol_ne hopening (show '(' ≠ '+' by decide)
    rw [Grammar.unary_of_primary hminus hplus, primary_group hopening]
  refine ⟨token :: taken, left, ?_, rfl, beginsNothing_of_binary hread, fun stop others => ?_,
    fun stop => ?_⟩
  · rw [htakes.split, List.cons_append]
  · rw [List.cons_append, hgroup, htakes.before stop others]
    exact if_neg (by simp [hother])
  · rw [hgroup, htakes.at_end stop]
    exact .inr rfl

/-- After an argument there is neither a comma nor a closing parenthesis. -/
theorem blames_item {other : Token} {tokens rest : List Token} {e : Expr}
    (hread : binary registry stop 0 tokens = .ok (e, other :: rest))
    (hclosing : other.isSymbol ')' = false) (hcomma : other.kind ≠ .comma) :
    ∃ before after,
      Blames (items registry) tokens (Expr.unexpected other) before other after := by
  obtain ⟨taken, htakes⟩ := binary_takes hread
  refine ⟨taken, rest, htakes.split, rfl, beginsNothing_of_binary hread, fun stop others => ?_,
    fun stop => ?_⟩
  · rw [items_eq, htakes.before stop others]
    simp only [Except.bind, nextItem, hclosing, hcomma, Bool.false_eq_true, if_false]
  · rw [items_eq, htakes.at_end stop]
    exact .inr rfl

theorem faithful_primary {token : Token} {tokens : List Token}
    (hbinary : Faithful (fun stop => binary registry stop 0) stop tokens)
    (harguments : ∀ next after, tokens = next :: after →
      Faithful (arguments registry) stop after)
    (hminus : token.isSymbol '-' = false) (hplus : token.isSymbol '+' = false) {fault : Fault}
    (h : primary registry stop token tokens = .error fault) (hunexpected : fault.IsUnexpected) :
    ∃ before blamed after,
      Blames (unary registry) (token :: tokens) fault before blamed after := by
  cases primary_fails h with
  | literal | constant | function | count | unclosed =>
    obtain ⟨text, htext⟩ := hunexpected
    cases htext
  | unexpected hstarts => exact ⟨[], token, tokens, blames_here ⟨hstarts, hminus, hplus⟩ tokens⟩
  | @arguments opening rest function _ hkind hopening hfunction hread =>
    have hfaithful := harguments opening rest rfl
    refine hfaithful.behind hread hunexpected [token, opening] fun stop others fault _ hfault => ?_
    rw [List.cons_append, Grammar.unary_of_primary hminus hplus, List.singleton_append,
      primary_call hkind hopening hfunction, hfault]
    rfl
  | group hopening hread =>
    refine hbinary.behind hread hunexpected [token] fun stop others fault _ hfault => ?_
    rw [List.singleton_append, Grammar.unary_of_primary hminus hplus, primary_group hopening, hfault]
    rfl
  | closing hopening hread hother =>
    obtain ⟨before, after, hblames⟩ := blames_closing hopening hread hother
    exact ⟨before, _, after, hblames⟩

theorem faithful_items {tokens : List Token}
    (hbinary : Faithful (fun stop => binary registry stop 0) stop tokens)
    (hitems : ∀ e token rest, binary registry stop 0 tokens = .ok (e, token :: rest) →
      Faithful (items registry) stop rest) : Faithful (items registry) stop tokens := by
  intro fault h hunexpected
  cases items_fails h with
  | first hread =>
    refine hbinary.behind hread hunexpected [] fun stop others fault _ hfault => ?_
    exact items_of_binary_error hfault
  | unclosed =>
    obtain ⟨text, htext⟩ := hunexpected
    cases htext
  | @more comma _ rest e _ hread hcomma hrest =>
    obtain ⟨taken, htakes⟩ := binary_takes hread
    have hsplit : tokens = (taken ++ [comma]) ++ rest := by
      rw [htakes.split, List.append_assoc, List.singleton_append]
    have hfaithful := hitems _ _ _ hread
    rw [hsplit]
    refine hfaithful.behind hrest hunexpected _ fun stop others fault _ hfault => ?_
    rw [List.append_assoc, List.singleton_append, items_comma (htakes.before stop others) hcomma,
      hfault]
    rfl
  | unexpected hread hclosing hcomma =>
    obtain ⟨before, after, hblames⟩ := blames_item hread hclosing hcomma
    exact ⟨before, _, after, hblames⟩

/-! ## 4. Operators -/

theorem faithful_binary {weakest : Nat} {tokens : List Token}
    (hunary : Faithful (unary registry) stop tokens)
    (hchain : ∀ left rest, unary registry stop tokens = .ok (left, rest) →
      Faithful (fun stop => chain registry stop weakest left) stop rest) :
    Faithful (fun stop => binary registry stop weakest) stop tokens := by
  intro fault h hunexpected
  rcases binary_fails h with hread | ⟨left, rest, hleft, hrest⟩
  · refine hunary.behind hread hunexpected [] fun stop others fault _ hfault => ?_
    exact binary_of_unary_error hfault
  · obtain ⟨taken, htakes⟩ := unary_takes hleft
    have hfaithful := hchain left rest hleft
    rw [htakes.split]
    refine hfaithful.behind hrest hunexpected taken fun stop others fault hsame hfault => ?_
    rw [Grammar.binary_of_unary (htakes.again stop others hsame)]
    exact hfault

/-- The blamed token of a right operand is not the first one where that begins the operand. -/
theorem written_of_blames {token blamed : Token} {joint : Joint} {tokens after : List Token}
    (hjoint : Joint.ofToken? token = some joint)
    (h : joint.operandTokens token tokens = blamed :: after) (hblamed : blamed.BeginsNothing) :
    joint.written = true := by
  by_cases hwritten : joint.written = true
  · exact hwritten
  · rw [Joint.operandTokens, if_neg hwritten] at h
    obtain ⟨rfl, _⟩ := List.cons.inj h
    have hnot := hblamed.starts
    rw [Joint.ofToken?, hnot] at hjoint
    obtain ⟨operator, _, rfl⟩ := Option.map_eq_some_iff.1 hjoint
    rfl

theorem faithful_chain {weakest : Nat} {left : Expr} {tokens : List Token}
    (hstep : ∀ token rest joint, tokens = token :: rest → Joint.ofToken? token = some joint →
      Faithful (fun stop => binary registry stop joint.operator.rightPrecedence) stop
        (joint.operandTokens token rest) ∧
      ∀ right after,
        binary registry stop joint.operator.rightPrecedence (joint.operandTokens token rest) =
          .ok (right, after) →
        Faithful (fun stop => chain registry stop weakest
          (.binary joint.operator.symbol left right)) stop after) :
    Faithful (fun stop => chain registry stop weakest left) stop tokens := by
  intro fault h hunexpected
  cases chain_fails h with
  | @right token tokens joint _ hjoint hweakest hright =>
    obtain ⟨hbinary, -⟩ := hstep token tokens joint rfl hjoint
    obtain ⟨before, blamed, after, hblames⟩ := hbinary fault hright hunexpected
    have hfront : before = [] → joint.written = true := by
      rintro rfl
      exact written_of_blames hjoint hblames.split hblames.nothing
    obtain ⟨tail, htail, hoperand⟩ := operandTokens_append hblames.split hfront
    refine ⟨token :: tail, blamed, after, ?_, hblames.fault_eq, hblames.nothing,
      fun stop others => ?_, fun stop => ?_⟩
    · rw [htail, List.cons_append]
    · have hagain := hblames.again stop others
      rw [List.cons_append, chain_of_joint hjoint hweakest, hoperand, hagain]
      rfl
    · have hwhole := hoperand []
      rw [List.append_nil, List.append_nil] at hwhole
      have hviable := hblames.viable stop
      rw [chain_of_joint hjoint hweakest, hwhole]
      rcases hviable with hend | hopen
      · exact .inl (by rw [hend]; rfl)
      · exact .inr (by rw [hopen]; rfl)
  | @rest token tokens after joint right _ hjoint hweakest hright hrest =>
    obtain ⟨-, hchain⟩ := hstep token tokens joint rfl hjoint
    obtain ⟨taken, htakes⟩ := binary_takes hright
    have hne := taken_ne_nil hright htakes.split
    obtain ⟨tail, htail, hoperand⟩ := operandTokens_append htakes.split (absurd · hne)
    have hsplit : token :: tokens = (token :: tail) ++ after := by rw [htail, List.cons_append]
    have hfaithful := hchain right after hright
    rw [hsplit]
    refine hfaithful.behind hrest hunexpected _ fun stop others fault hsame hfault => ?_
    have hagain := htakes.again stop others hsame
    rw [List.cons_append, chain_of_joint hjoint hweakest, hoperand, hagain]
    exact hfault

/-- **Each step is faithful if the steps that it calls are.** -/
theorem faithful_closed : Closed registry stop
    (Faithful (unary registry) stop)
    (fun token tokens => token.isSymbol '-' = false → token.isSymbol '+' = false →
      ∀ fault, primary registry stop token tokens = .error fault → fault.IsUnexpected →
        ∃ before blamed after,
          Blames (unary registry) (token :: tokens) fault before blamed after)
    (Faithful (arguments registry) stop)
    (Faithful (items registry) stop)
    (fun weakest => Faithful (fun stop => binary registry stop weakest) stop)
    (fun weakest left => Faithful (fun stop => chain registry stop weakest left) stop) where
  unary_nil fault h hunexpected := by
    cases unary_fails h
    obtain ⟨text, htext⟩ := hunexpected
    cases htext
  unary_cons token tokens hunary hprimary fault h hunexpected := by
    cases unary_fails h with
    | signed hsign hread =>
      exact hunary.behind hread hunexpected [token] fun stop others fault _ => unary_signed hsign
    | primary hminus hplus hread => exact hprimary hminus hplus fault hread hunexpected
  primary token tokens hbinary harguments hminus hplus fault h hunexpected :=
    faithful_primary hbinary harguments hminus hplus h hunexpected
  arguments tokens hitems fault h hunexpected := by
    obtain ⟨hread, hhead⟩ := arguments_fails h
    refine hitems.behind hread hunexpected [] fun stop others fault hsame hfault => ?_
    have hother : ∀ token ∈ others.head?, token.isSymbol ')' = false :=
      fun token htoken => hhead token (hsame token htoken)
    rw [List.nil_append, arguments_eq_items hother]
    exact hfault
  items tokens hbinary hitems := faithful_items hbinary hitems
  binary weakest tokens hunary hchain := faithful_binary hunary hchain
  chain weakest left tokens hstep := faithful_chain hstep

/-! ## 5. Rows of tokens -/

theorem ofTokens_blames {tokens : List Token} {fault : Fault}
    (h : Expr.ofTokens registry stop tokens = .error fault) (hunexpected : fault.IsUnexpected) :
    ∃ before token after, tokens = before ++ token :: after ∧ fault = Expr.unexpected token ∧
      token.BeginsNothing ∧
      (∀ stop others, Expr.ofTokens registry stop (before ++ token :: others) = .error fault) ∧
      ∀ stop, (∃ e, Expr.ofTokens registry stop before = .ok e) ∨
        RunsOut stop (Expr.ofTokens registry stop before) := by
  rw [ofTokens_eq] at h
  rcases bind_eq_error.1 h with hread | ⟨⟨e, _ | ⟨token, after⟩⟩, hread, hend⟩
  · have hfaithful : Faithful (fun stop => binary registry stop 0) stop tokens :=
      faithful_closed.at_binary 0 tokens
    have hwhole : ∃ before token after,
        Blames (Expr.ofTokens registry) ([] ++ tokens) fault before token after := by
      refine hfaithful.behind hread hunexpected [] fun stop others fault _ hfault => ?_
      rw [List.nil_append, ofTokens_eq, hfault]
      rfl
    obtain ⟨before, token, after, hblames⟩ := hwhole
    exact ⟨before, token, after, hblames.split, hblames.fault_eq, hblames.nothing, hblames.again,
      fun stop => .inr (hblames.viable stop)⟩
  · cases hend
  · cases hend
    obtain ⟨taken, htakes⟩ := binary_takes hread
    refine ⟨taken, token, after, htakes.split, rfl, beginsNothing_of_binary hread,
      fun stop others => ?_, fun stop => .inl ⟨e, ?_⟩⟩
    · rw [ofTokens_eq, htakes.before stop others]
      rfl
    · rw [ofTokens_eq, htakes.at_end stop]
      rfl

end Reader

namespace Token

/-- An operator token writes an operator of the table or a parenthesis. -/
def WritesSymbol (token : Token) : Prop :=
  token.kind = .operator → ∃ c, isOperator c = true ∧ token.text.toList = [c]

/-- **The operator tokens of a source write symbols.** -/
theorem writesSymbol_of_source {source : String} {tokens : List Token}
    (h : ofSource source = .ok tokens) : ∀ token ∈ tokens, token.WritesSymbol := by
  intro token htoken hkind
  obtain ⟨_, hfits, _, _, hword⟩ := stands_of_source h token htoken
  rw [hkind] at hfits
  rw [hkind, if_neg (by decide)] at hword
  cases hfits with
  | @operator c hc => exact ⟨c, hc, by rw [hword, String.toList_ofList]⟩

/-- What begins nothing is a comma, or a symbol that is neither a sign nor an opening parenthesis. -/
theorem BeginsNothing.symbol {token : Token} (h : token.BeginsNothing)
    (hsymbol : token.WritesSymbol) :
    token.kind = .comma ∨ ∃ symbol ∈ [')', '*', '/', '%', '^'], token.isSymbol symbol = true := by
  rcases h.kind with hkind | hcomma
  · obtain ⟨c, hc, htext⟩ := hsymbol hkind
    have hwrites (hsize : c.utf8Size = 1) : token.isSymbol c = true :=
      isSymbol_iff.2 ⟨hkind, htext, hsize⟩
    have hstarts : token.isSymbol '(' = false := by
      simpa [startsOperand, hkind] using h.starts
    have hmem : c ∈ ['+', '-', '*', '/', '%', '^', '(', ')'] := of_decide_eq_true hc
    simp only [List.mem_cons, List.not_mem_nil, or_false] at hmem
    rcases hmem with rfl | rfl | rfl | rfl | rfl | rfl | rfl | rfl
    · exact absurd (hwrites rfl) (by simp [h.plus])
    · exact absurd (hwrites rfl) (by simp [h.minus])
    · exact .inr ⟨'*', by simp, hwrites rfl⟩
    · exact .inr ⟨'/', by simp, hwrites rfl⟩
    · exact .inr ⟨'%', by simp, hwrites rfl⟩
    · exact .inr ⟨'^', by simp, hwrites rfl⟩
    · exact absurd (hwrites rfl) (by simp [hstarts])
    · exact .inr ⟨')', by simp, hwrites rfl⟩
  · exact .inl hcomma

end Token

namespace Expr

/-- **The reader blames the first token that cannot stand where it is.** The token is a comma or a symbol
    that begins no operand; whatever comes after it, the fault is the same; and what comes before
    it is a formula or could still become one. This is about tokens whose operators are symbols, as
    those of every source are. -/
theorem ofTokens_unexpected (registry : Registry) (stop : Nat) :
    (∀ source tokens, Token.ofSource source = .ok tokens →
      ∀ token ∈ tokens, token.WritesSymbol) ∧
    ∀ tokens : List Token, (∀ token ∈ tokens, token.WritesSymbol) → ∀ text position,
      ofTokens registry stop tokens = .error ⟨.unexpectedToken text, position⟩ →
      ∃ k token, tokens[k]? = some token ∧ token.text = text ∧ token.position = position ∧
        (token.kind = .comma ∨
          ∃ symbol ∈ [')', '*', '/', '%', '^'], token.isSymbol symbol = true) ∧
        (∀ stop others, tokens.take (k + 1) <+: others →
          ofTokens registry stop others = .error ⟨.unexpectedToken text, position⟩) ∧
        ∀ stop, (∃ e, ofTokens registry stop (tokens.take k) = .ok e) ∨
          ofTokens registry stop (tokens.take k) = .error ⟨.unexpectedEnd, stop⟩ ∨
          ofTokens registry stop (tokens.take k) = .error ⟨.unclosedParenthesis, stop⟩ := by
  refine ⟨fun source tokens h => Token.writesSymbol_of_source h, ?_⟩
  intro tokens hsymbols text position h
  obtain ⟨before, token, after, rfl, hfault, hnothing, hagain, hviable⟩ :=
    Reader.ofTokens_blames h ⟨text, rfl⟩
  cases hfault
  have hmem : token ∈ before ++ token :: after := List.mem_append_right _ List.mem_cons_self
  have hbefore : (before ++ token :: after).take before.length = before := List.take_left
  have hupto : (before ++ token :: after).take (before.length + 1) = before ++ [token] := by
    rw [List.take_append, List.take_of_length_le (Nat.le_succ _), Nat.add_sub_cancel_left]
    rfl
  refine ⟨before.length, token, ?_, rfl, rfl, hnothing.symbol (hsymbols token hmem), ?_, ?_⟩
  · rw [List.getElem?_append_right (Nat.le_refl _), Nat.sub_self]
    rfl
  · rintro stop others ⟨more, rfl⟩
    rw [hupto, List.append_assoc]
    exact hagain stop more
  · rw [hbefore]
    exact hviable

/-- The tokens of `max($x,*2`. -/
def starredTokens : List Token :=
  [⟨"max", .identifier, 0⟩, ⟨"(", .operator, 3⟩, ⟨"$x", .var, 4⟩, ⟨",", .comma, 6⟩,
    ⟨"*", .operator, 7⟩, ⟨"2", .literal, 8⟩]

theorem ofTokens_starred :
    ofTokens .standard 9 starredTokens = .error ⟨.unexpectedToken "*", 7⟩ := by
  have hstar : Token.BeginsNothing ⟨"*", .operator, 7⟩ := ⟨rfl, rfl, rfl⟩
  have hitem : Reader.items .standard 9 [⟨"*", .operator, 7⟩, ⟨"2", .literal, 8⟩] =
      .error ⟨.unexpectedToken "*", 7⟩ :=
    Reader.items_of_binary_error
      (Reader.binary_of_unary_error ((Reader.blames_here hstar []).again 9 _))
  have hfirst : Reader.binary .standard 9 0 (starredTokens.drop 2) =
      .ok (.var "x", starredTokens.drop 3) := by
    have hunary : Reader.unary .standard 9 (starredTokens.drop 2) =
        .ok (.var "x", starredTokens.drop 3) :=
      (Grammar.unary_of_kind (by decide)).trans (Reader.primary_var _ _ rfl _)
    rw [Grammar.binary_of_unary hunary]
    exact Reader.chain_of_stops (Grammar.stops_comma rfl 0 _) _
  have hitems := Reader.items_comma hfirst rfl
  rw [hitem] at hitems
  have hread : Reader.binary .standard 9 0 starredTokens = .error ⟨.unexpectedToken "*", 7⟩ := by
    refine Reader.binary_of_unary_error ?_
    rw [starredTokens, Grammar.unary_of_kind (by decide), Reader.primary_call rfl rfl rfl,
      Reader.arguments_eq_items (by decide)]
    exact congrArg (Except.bind · _) hitems
  rw [Reader.ofTokens_eq, hread]
  rfl

/-- The star is blamed with and without the number behind it, and without the star nothing is blamed. -/
theorem ofTokens_unexpected_starred :
    (∀ token ∈ starredTokens, token.WritesSymbol) ∧
      ofTokens .standard 9 starredTokens = .error ⟨.unexpectedToken "*", 7⟩ ∧
      ∃ k token, starredTokens[k]? = some token ∧ token.text = "*" ∧ token.position = 7 ∧
        ofTokens .standard 8 (starredTokens.take (k + 1)) = .error ⟨.unexpectedToken "*", 7⟩ ∧
        ((∃ e, ofTokens .standard 7 (starredTokens.take k) = .ok e) ∨
          ofTokens .standard 7 (starredTokens.take k) = .error ⟨.unexpectedEnd, 7⟩ ∨
          ofTokens .standard 7 (starredTokens.take k) = .error ⟨.unclosedParenthesis, 7⟩) := by
  have hsymbols : ∀ token ∈ starredTokens, token.WritesSymbol := by
    have hnone {token : Token} (h : token.kind ≠ .operator) : token.WritesSymbol :=
      fun hkind => absurd hkind h
    simp only [starredTokens, List.forall_mem_cons]
    exact ⟨hnone (by decide), fun _ => ⟨'(', rfl, rfl⟩, hnone (by decide), hnone (by decide),
      fun _ => ⟨'*', rfl, rfl⟩, hnone (by decide), List.forall_mem_nil _⟩
  obtain ⟨k, token, htoken, htext, hposition, _, hagain, hviable⟩ :=
    (ofTokens_unexpected .standard 9).2 starredTokens hsymbols _ _ ofTokens_starred
  exact ⟨hsymbols, ofTokens_starred, k, token, htoken, htext, hposition,
    hagain 8 _ List.prefix_rfl, hviable 7⟩

end Expr

end Formula
