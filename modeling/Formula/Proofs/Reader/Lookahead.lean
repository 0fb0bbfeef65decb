import Formula.Proofs.Grammar.Completeness

/-!
# The reader looks at one token ahead

A step that succeeds depends on the tokens that it takes and on no more than the first of those that it
leaves. So it takes them again in front of any other tokens that begin alike, and in front of none.

* `SameNext rest others`: there is nothing in `others`, or they begin as `rest` does.
* `Takes step tokens a rest taken`: the step takes `taken` off the tokens and gives `a`, here and in front
  of all tokens that begin as `rest` does.
* `Local step stop tokens`: whatever the step gives, it takes some tokens for it. `local_closed` is one step
  of each kind, and `unary_takes`, `binary_takes` are the two that others ask for.
-/

namespace Formula.Reader

variable {registry : Registry} {stop : Nat}

/-! ## 1. Tokens that begin alike -/

/-- There is no next token among the others, or it is the next one here too. -/
def SameNext (rest others : List Token) : Prop := ∀ next ∈ others.head?, next ∈ rest.head?

theorem sameNext_nil (rest : List Token) : SameNext rest [] := by
  intro next hnext
  cases hnext

theorem sameNext_cons (token : Token) (rest others : List Token) :
    SameNext (token :: rest) (token :: others) := fun _ hnext => hnext

theorem SameNext.append {rest others : List Token} (h : SameNext rest others)
    (front : List Token) : SameNext (front ++ rest) (front ++ others) := by
  cases front with
  | nil => exact h
  | cons token front => exact sameNext_cons token _ _

/-- Nothing of the given precedence goes on where the tokens begin alike. -/
theorem Stops.sameNext {limit : Nat} {rest others : List Token} (h : Stops limit rest)
    (hnext : SameNext rest others) : Stops limit others :=
  fun token htoken => h token (hnext token htoken)

/-! ## 2. What a step takes -/

/-- The step takes some tokens, here and wherever others follow them that begin as the rest does. -/
structure Takes {α : Type} (step : Nat → List Token → Step α) (tokens : List Token) (a : α)
    (rest taken : List Token) : Prop where
  split : tokens = taken ++ rest
  again : ∀ stop others, SameNext rest others → step stop (taken ++ others) = .ok (a, others)

namespace Takes

variable {α : Type} {step : Nat → List Token → Step α} {tokens rest taken : List Token} {a : α}

/-- At the end of the tokens the step takes them all. -/
theorem at_end (h : Takes step tokens a rest taken) (stop : Nat) :
    step stop taken = .ok (a, []) := by
  have hread := h.again stop [] (sameNext_nil rest)
  rwa [List.append_nil] at hread

/-- The token after what is taken may be followed by anything. -/
theorem before {token : Token} (h : Takes step tokens a (token :: rest) taken) (stop : Nat)
    (others : List Token) : step stop (taken ++ token :: others) = .ok (a, token :: others) :=
  h.again stop _ (sameNext_cons token rest others)

end Takes

/-- A formula takes a token at least. -/
theorem taken_ne_nil {weakest : Nat} {tokens rest taken : List Token} {e : Expr}
    (h : binary registry stop weakest tokens = .ok (e, rest)) (hsplit : tokens = taken ++ rest) :
    taken ≠ [] := by
  rintro rfl
  have hfewer := binary_fewer h
  rw [hsplit] at hfewer
  exact Nat.lt_irrefl _ hfewer

/-- A written right operand is behind the token of its joint; an unwritten one begins with it. -/
theorem operandTokens_append {token : Token} {joint : Joint} {tokens front rest : List Token}
    (h : joint.operandTokens token tokens = front ++ rest)
    (hfront : front = [] → joint.written = true) :
    ∃ tail, tokens = tail ++ rest ∧
      ∀ others, joint.operandTokens token (tail ++ others) = front ++ others := by
  unfold Joint.operandTokens at h ⊢
  by_cases hwritten : joint.written = true
  · rw [if_pos hwritten] at h
    exact ⟨front, h, fun others => by rw [if_pos hwritten]⟩
  · rw [if_neg hwritten] at h
    cases front with
    | nil => exact absurd (hfront rfl) hwritten
    | cons first tail =>
      obtain ⟨rfl, htail⟩ := List.cons.inj h
      refine ⟨tail, htail, fun others => ?_⟩
      rw [if_neg hwritten]
      rfl

/-! ## 3. Steps that go on with another step -/

theorem primary_group {token : Token} (hopening : token.isSymbol '(' = true) (rest : List Token) :
    primary registry stop token rest = (binary registry stop 0 rest).bind (close stop) := by
  rw [primary_operator _ _ (Token.isSymbol_iff.1 hopening).1, if_pos hopening]

theorem primary_call {token opening : Token} (hkind : token.kind = .identifier)
    (hopening : opening.isSymbol '(' = true) {function : Function}
    (hfunction : registry.function? token.text = some function) (rest : List Token) :
    primary registry stop token (opening :: rest) =
      (arguments registry stop rest).bind (finishCall token function) := by
  rw [primary_name_cons _ _ hkind, if_pos hopening, call, hfunction]

theorem items_closing {tokens rest : List Token} {closing : Token} {e : Expr}
    (h : binary registry stop 0 tokens = .ok (e, closing :: rest))
    (hclosing : closing.isSymbol ')' = true) :
    items registry stop tokens = .ok ([e], rest) := by
  rw [items_eq, h]
  exact if_pos hclosing

theorem items_comma {tokens rest : List Token} {comma : Token} {e : Expr}
    (h : binary registry stop 0 tokens = .ok (e, comma :: rest)) (hcomma : comma.kind = .comma) :
    items registry stop tokens = (items registry stop rest).map fun r => (e :: r.1, r.2) := by
  have hclosing : comma.isSymbol ')' = false := Token.isSymbol_of_kind (by simp [hcomma])
  rw [items_eq, h]
  simp only [Except.bind, nextItem, hclosing, hcomma, Bool.false_eq_true, if_false, if_true]

/-! ## 4. Steps are local -/

/-- What the step gives, it gives for the tokens that it takes. -/
def Local {α : Type} (step : Nat → List Token → Step α) (stop : Nat) (tokens : List Token) : Prop :=
  ∀ a rest, step stop tokens = .ok (a, rest) → ∃ taken, Takes step tokens a rest taken

theorem local_unary {token : Token} {tokens : List Token}
    (hunary : Local (unary registry) stop tokens)
    (hprimary : Local (fun stop => primary registry stop token) stop tokens) :
    Local (unary registry) stop (token :: tokens) := by
  intro e rest h
  by_cases hminus : token.isSymbol '-' = true
  · rw [unary_cons, if_pos hminus] at h
    obtain ⟨⟨f, left⟩, hread, hf⟩ := map_eq_ok.1 h
    cases hf
    obtain ⟨taken, htakes⟩ := hunary f left hread
    refine ⟨token :: taken, by rw [htakes.split, List.cons_append], fun stop others hnext => ?_⟩
    rw [List.cons_append, unary_cons, if_pos hminus, htakes.again stop others hnext]
    rfl
  · by_cases hplus : token.isSymbol '+' = true
    · rw [unary_cons, if_neg hminus, if_pos hplus] at h
      obtain ⟨taken, htakes⟩ := hunary e rest h
      refine ⟨token :: taken, by rw [htakes.split, List.cons_append], fun stop others hnext => ?_⟩
      rw [List.cons_append, unary_cons, if_neg hminus, if_pos hplus]
      exact htakes.again stop others hnext
    · rw [unary_cons, if_neg hminus, if_neg hplus] at h
      obtain ⟨taken, htakes⟩ := hprimary e rest h
      refine ⟨token :: taken, by rw [htakes.split, List.cons_append], fun stop others hnext => ?_⟩
      rw [List.cons_append, unary_cons, if_neg hminus, if_neg hplus]
      exact htakes.again stop others hnext

/-- A value of one token takes nothing behind it. -/
theorem takes_leaf {token : Token} {tokens : List Token} {e : Expr}
    (h : ∀ stop others, SameNext tokens others →
      primary registry stop token others = .ok (e, others)) :
    ∃ taken, Takes (fun stop => primary registry stop token) tokens e tokens taken :=
  ⟨[], rfl, h⟩

theorem local_primary {token : Token} {tokens : List Token}
    (hbinary : Local (fun stop => binary registry stop 0) stop tokens)
    (harguments : ∀ next after, tokens = next :: after → Local (arguments registry) stop after) :
    Local (fun stop => primary registry stop token) stop tokens := by
  intro e rest h
  cases primary_read h with
  | literal hkind hvalue =>
    refine takes_leaf fun stop others _ => ?_
    rw [primary_literal _ _ hkind, Expr.ofLiteral, hvalue]
    rfl
  | var hkind => exact takes_leaf fun stop others _ => primary_var registry stop hkind others
  | @group _ _ closing _ hopening hread hclosing =>
    obtain ⟨taken, htakes⟩ := hbinary _ _ hread
    refine ⟨taken ++ [closing], ?_, fun stop others _ => ?_⟩
    · rw [htakes.split, List.append_assoc]
      rfl
    · have hagain := htakes.before stop others
      rw [primary_group hopening, List.append_assoc, List.singleton_append, hagain]
      exact if_pos hclosing
  | @call opening _ _ function es hkind hopening hfunction hread harity =>
    obtain ⟨taken, htakes⟩ := harguments _ _ rfl _ _ hread
    refine ⟨opening :: taken, by rw [htakes.split, List.cons_append], fun stop others hnext => ?_⟩
    rw [List.cons_append, primary_call hkind hopening hfunction, htakes.again stop others hnext]
    exact if_pos harity
  | constant hkind hnext hfound =>
    -- a name looks at the token behind it and leaves it there
    refine takes_leaf fun stop others hsame => ?_
    have hother : ∀ next ∈ others.head?, next.isSymbol '(' = false :=
      fun next hmem => hnext next (hsame next hmem)
    rw [Grammar.primary_of_name hkind hother, Expr.ofName, hfound]
    rfl

theorem local_arguments {tokens : List Token} (hitems : Local (items registry) stop tokens) :
    Local (arguments registry) stop tokens := by
  intro es rest h
  cases arguments_read h with
  | @none closing _ hclosing =>
    refine ⟨[closing], rfl, fun stop others _ => ?_⟩
    rw [List.singleton_append, arguments_cons]
    exact if_pos hclosing
  | some hread =>
    obtain ⟨taken, htakes⟩ := hitems _ _ hread
    refine ⟨taken, htakes.split, fun stop others hnext => ?_⟩
    exact Grammar.arguments_of_items (htakes.again stop others hnext)

theorem local_items {tokens : List Token}
    (hbinary : Local (fun stop => binary registry stop 0) stop tokens)
    (hitems : ∀ e token rest, binary registry stop 0 tokens = .ok (e, token :: rest) →
      Local (items registry) stop rest) : Local (items registry) stop tokens := by
  intro es rest h
  cases items_read h with
  | @last _ closing _ hread hclosing =>
    obtain ⟨taken, htakes⟩ := hbinary _ _ hread
    refine ⟨taken ++ [closing], ?_, fun stop others _ => ?_⟩
    · rw [htakes.split, List.append_assoc]
      rfl
    · have hagain := htakes.before stop others
      rw [List.append_assoc]
      exact items_closing hagain hclosing
  | @more _ _ comma _ _ hread hcomma hrest =>
    obtain ⟨taken, htakes⟩ := hbinary _ _ hread
    obtain ⟨more, hmore⟩ := hitems _ _ _ hread _ _ hrest
    refine ⟨taken ++ comma :: more, ?_, fun stop others hnext => ?_⟩
    · rw [htakes.split, hmore.split, List.append_assoc]
      rfl
    · have hagain := htakes.before stop (more ++ others)
      rw [List.append_assoc, List.cons_append, items_comma hagain hcomma,
        hmore.again stop others hnext]
      rfl

/-- What goes on behind the tokens of one step begins there as the tokens of the next step do. -/
theorem Takes.sameNext {α : Type} {step : Nat → List Token → Step α}
    {after rest others more : List Token} {a : α} (h : Takes step after a rest more)
    (hnext : SameNext rest others) : SameNext after (more ++ others) := by
  rw [h.split]
  exact hnext.append more

theorem local_binary {weakest : Nat} {tokens : List Token}
    (hunary : Local (unary registry) stop tokens)
    (hchain : ∀ left rest, unary registry stop tokens = .ok (left, rest) →
      Local (fun stop => chain registry stop weakest left) stop rest) :
    Local (fun stop => binary registry stop weakest) stop tokens := by
  intro e rest h
  obtain ⟨left, after, hleft, hrest⟩ := binary_ok h
  obtain ⟨taken, htakes⟩ := hunary _ _ hleft
  obtain ⟨more, hmore⟩ := hchain _ _ hleft _ _ hrest
  refine ⟨taken ++ more, ?_, fun stop others hnext => ?_⟩
  · rw [htakes.split, hmore.split, List.append_assoc]
  · rw [List.append_assoc, Grammar.binary_of_unary (htakes.again stop _ (hmore.sameNext hnext))]
    exact hmore.again stop others hnext

theorem local_chain {weakest : Nat} {left : Expr} {tokens : List Token}
    (hstep : ∀ token rest joint, tokens = token :: rest → Joint.ofToken? token = some joint →
      Local (fun stop => binary registry stop joint.operator.rightPrecedence) stop
        (joint.operandTokens token rest) ∧
      ∀ right after,
        binary registry stop joint.operator.rightPrecedence (joint.operandTokens token rest) =
          .ok (right, after) →
        Local (fun stop => chain registry stop weakest
          (.binary joint.operator.symbol left right)) stop after) :
    Local (fun stop => chain registry stop weakest left) stop tokens := by
  intro e rest h
  cases chain_read h with
  | done hstops =>
    exact ⟨[], rfl, fun stop others hnext => chain_of_stops (hstops.sameNext hnext) left⟩
  | @step token tokens after _ joint right _ hjoint hweakest hright hrest =>
    obtain ⟨hbinary, hchain⟩ := hstep _ _ _ rfl hjoint
    obtain ⟨taken, htakes⟩ := hbinary _ _ hright
    obtain ⟨more, hmore⟩ := hchain _ _ hright _ _ hrest
    have hne := taken_ne_nil hright htakes.split
    obtain ⟨tail, htail, hoperand⟩ := operandTokens_append htakes.split (absurd · hne)
    refine ⟨token :: (tail ++ more), ?_, fun stop others hnext => ?_⟩
    · rw [htail, hmore.split, List.cons_append, List.append_assoc]
    · have hagain := htakes.again stop _ (hmore.sameNext hnext)
      rw [List.cons_append, List.append_assoc, chain_of_joint hjoint hweakest, hoperand, hagain]
      exact hmore.again stop others hnext

/-- **Each step is local if the steps that it calls are.** -/
theorem local_closed : Closed registry stop
    (Local (unary registry) stop)
    (fun token => Local (fun stop => primary registry stop token) stop)
    (Local (arguments registry) stop)
    (Local (items registry) stop)
    (fun weakest => Local (fun stop => binary registry stop weakest) stop)
    (fun weakest left => Local (fun stop => chain registry stop weakest left) stop) where
  unary_nil e rest h := by
    rw [unary_nil] at h
    cases h
  unary_cons token tokens hunary hprimary := local_unary hunary hprimary
  primary token tokens hbinary harguments := local_primary hbinary harguments
  arguments tokens hitems := local_arguments hitems
  items tokens hbinary hitems := local_items hbinary hitems
  binary weakest tokens hunary hchain := local_binary hunary hchain
  chain weakest left tokens hstep := local_chain hstep

/-- **An operand is read off its own tokens and the next one.** -/
theorem unary_takes {tokens rest : List Token} {e : Expr}
    (h : unary registry stop tokens = .ok (e, rest)) :
    ∃ taken, Takes (unary registry) tokens e rest taken := local_closed.at_unary tokens e rest h

/-- **A formula is read off its own tokens and the next one.** -/
theorem binary_takes {weakest : Nat} {tokens rest : List Token} {e : Expr}
    (h : binary registry stop weakest tokens = .ok (e, rest)) :
    ∃ taken, Takes (fun stop => binary registry stop weakest) tokens e rest taken :=
  local_closed.at_binary weakest tokens e rest h

end Formula.Reader
