import Formula.Proofs.Grammar.Completeness
import Formula.Proofs.Sum.Bound
import Formula.Proofs.Tree.Nodes
import Formula.Proofs.Tree.Spelled

/-!
# Numbers that are written out

The end of a sum is read off its formula by `Sum.literalBound?`, which knows a negation by the number without
a text on its left. That is a second evaluation next to the real one, and the two agree.

* `Expr.Signed e bound x`: the tree is a number under negations, `bound` is read off it and `x` is its value.
  The two are the same number (`Signed.same`), if not always the same zero.
* `Expr.BareZeros`: numbers without a text are zeros, as in every tree that is read. Among such trees the
  signed numbers are the ones off which a bound is read (`literalBound?_iff`).
* `Token.SignedLiteral`: a literal with signs and parentheses around it. `Reader.takesLiteral_closed` is one
  step of each kind, and leads from the tree back to the tokens; `Reader.unary_signedLiteral` leads from
  the tokens to the tree.

`Sum.literalBound_agrees` puts them together.
-/

namespace Formula

open Double (Same)

/-! ## 1. Numbers under negations -/

namespace Expr

/-- A number under any number of negations, with what is read off it and what it is evaluated to. -/
inductive Signed : Expr → Float → Float → Prop
  | number (value : Float) (text : String) : Signed (.number value text) value value
  | negation {e : Expr} {bound x : Float} : Signed e bound x → Signed (.negation e) (-bound) (0.0 - x)

/-- A number without a text is zero, anywhere in the tree. -/
def BareZeros (e : Expr) : Prop := ∀ node ∈ e.nodes, ∀ value, node = .number value "" → value = 0.0

namespace Signed

variable {e : Expr} {bound x : Float}

theorem literalBound? (h : Signed e bound x) : Sum.literalBound? e = some bound := by
  induction h with
  | number value text => rfl
  | negation _ ih =>
    rw [Expr.negation, Sum.literalBound?, if_pos ⟨rfl, rfl⟩, ih]
    rfl

/-- **What is evaluated is the number that is read off**, or neither is a number. -/
theorem same (h : Signed e bound x) : Same x bound := by
  induction h with
  | number value text => exact .refl value
  | negation _ ih => exact (Double.same_zero_sub _).trans ih.neg

/-- **A signed number has its value everywhere.** -/
theorem eval (h : Signed e bound x) (registry : Registry) (angle : Angle) (s : Scope) :
    e.eval registry angle s = (.ok x, s) := by
  induction h with
  | number value text => rw [Expr.eval]
  | @negation e bound x _ ih =>
    have hzero : (Expr.number 0.0 "").eval registry angle s = (.ok 0.0, s) := by rw [Expr.eval]
    have hop : ∃ op, Operator.find? '-' = some op ∧ op.apply = fun x y => .ok (x - y) := ⟨_, rfl, rfl⟩
    obtain ⟨op, hfind, happly⟩ := hop
    rw [Expr.negation, Expr.eval, hfind, hzero]
    dsimp only
    rw [ih, happly]

end Signed

/-- A bound is read off an operator only if it is a minus sign with a number without a text on its left. -/
theorem literalBound?_binary {symbol : Char} {left right : Expr}
    (h : (Sum.literalBound? (binary symbol left right)).isSome = true) :
    symbol = '-' ∧ ∃ value, left = .number value "" := by
  cases left with
  | number value text =>
    rw [Sum.literalBound?] at h
    split at h
    · rename_i hbare
      exact ⟨hbare.1, value, by rw [hbare.2]⟩
    · cases h
  | constant | var | binary | call => cases h

/-- **A bound is read off numbers under negations and off no other tree.** -/
theorem literalBound?_iff {e : Expr} (he : e.BareZeros) (bound : Float) :
    Sum.literalBound? e = some bound ↔ ∃ x, Signed e bound x := by
  constructor
  · intro h
    induction e generalizing bound with
    | number value text =>
      cases h
      exact ⟨value, .number value text⟩
    | constant name value => cases h
    | var name => cases h
    | call name arguments => cases h
    | binary symbol left right _ ih =>
      obtain ⟨rfl, value, rfl⟩ := literalBound?_binary (by rw [h]; rfl)
      rw [Sum.literalBound?, if_pos ⟨rfl, rfl⟩] at h
      obtain ⟨inner, hinner, rfl⟩ := Option.map_eq_some_iff.1 h
      obtain ⟨-, hleft, hright⟩ := forall_nodes_binary.1 he
      obtain ⟨x, hx⟩ := ih hright inner hinner
      obtain rfl := hleft _ (mem_nodes_self _) value rfl
      exact ⟨0.0 - x, .negation hx⟩
  · rintro ⟨x, hx⟩
    exact hx.literalBound?

/-- **Numbers without a text are zeros in every tree that is read.** -/
theorem BareZeros.of_spelled {registry : Registry} {e : Expr} (h : Spelled registry e) :
    e.BareZeros := by
  induction h with
  | number hvalue =>
    refine List.forall_mem_singleton.2 fun value hbare => ?_
    cases hbare
    exact absurd rfl (Double.text_ne_empty hvalue)
  | constant | var => exact List.forall_mem_singleton.2 fun value hbare => nomatch hbare
  | negation _ ih =>
    refine forall_nodes_binary.2 ⟨fun value hbare => (nomatch hbare), ?_, ih⟩
    refine List.forall_mem_singleton.2 fun value hbare => ?_
    cases hbare
    rfl
  | binary _ _ _ ihleft ihright =>
    exact forall_nodes_binary.2 ⟨fun value hbare => (nomatch hbare), ihleft, ihright⟩
  | call _ _ _ ih => exact forall_nodes_call.2 ⟨fun value hbare => (nomatch hbare), ih⟩

end Expr

/-! ## 2. Literals with signs and parentheses -/

/-- A literal with any signs before it and any parentheses around it. -/
inductive Token.SignedLiteral : List Token → Prop
  | literal {token : Token} (hkind : token.kind = .literal) : SignedLiteral [token]
  | signed {sign : Token} {tokens : List Token}
      (hsign : sign.isSymbol '-' = true ∨ sign.isSymbol '+' = true) :
      SignedLiteral tokens → SignedLiteral (sign :: tokens)
  | group {opening closing : Token} {tokens : List Token} (hopening : opening.isSymbol '(' = true)
      (hclosing : closing.isSymbol ')' = true) :
      SignedLiteral tokens → SignedLiteral (opening :: (tokens ++ [closing]))

namespace Reader

open Token (SignedLiteral)

variable {registry : Registry} {stop : Nat}

/-- What a step gives is no number without a text, and where a bound is read off it, the step has taken a
    signed literal. -/
structure TakesLiteral (tokens : List Token) (e : Expr) (rest : List Token) : Prop where
  text : ∀ value, e ≠ .number value ""
  literal : (Sum.literalBound? e).isSome = true → ∃ taken, tokens = taken ++ rest ∧ SignedLiteral taken

theorem takesLiteral_unary {token : Token} {tokens : List Token}
    (hunary : ∀ e rest, unary registry stop tokens = .ok (e, rest) → TakesLiteral tokens e rest)
    (hprimary : ∀ e rest, primary registry stop token tokens = .ok (e, rest) →
      TakesLiteral (token :: tokens) e rest) {e : Expr} {rest : List Token}
    (h : unary registry stop (token :: tokens) = .ok (e, rest)) : TakesLiteral (token :: tokens) e rest := by
  -- a sign goes in front of the signed literal behind it
  have hsigned (hsign : token.isSymbol '-' = true ∨ token.isSymbol '+' = true) {taken : List Token}
      (htaken : tokens = taken ++ rest ∧ SignedLiteral taken) :
      ∃ taken, token :: tokens = taken ++ rest ∧ SignedLiteral taken := by
    obtain ⟨rfl, hliteral⟩ := htaken
    exact ⟨token :: taken, rfl, .signed hsign hliteral⟩
  cases unary_read h with
  | @minus _ _ _ operand hsign hread =>
    refine ⟨fun value hbare => (nomatch hbare), fun hbound => ?_⟩
    have hoperand : (Sum.literalBound? operand).isSome = true := by
      rw [Expr.negation, Sum.literalBound?, if_pos ⟨rfl, rfl⟩, Option.isSome_map] at hbound
      exact hbound
    obtain ⟨taken, htaken⟩ := (hunary _ _ hread).literal hoperand
    exact hsigned (.inl hsign) htaken
  | plus hsign hread =>
    obtain ⟨htext, hliteral⟩ := hunary _ _ hread
    refine ⟨htext, fun hbound => ?_⟩
    obtain ⟨taken, htaken⟩ := hliteral hbound
    exact hsigned (.inr hsign) htaken
  | primary hread => exact hprimary _ _ hread

theorem takesLiteral_primary {token : Token} {tokens : List Token}
    (hbinary : ∀ e rest, binary registry stop 0 tokens = .ok (e, rest) → TakesLiteral tokens e rest)
    {e : Expr} {rest : List Token} (h : primary registry stop token tokens = .ok (e, rest)) :
    TakesLiteral (token :: tokens) e rest := by
  cases primary_read h with
  | literal hkind hvalue =>
    refine ⟨fun value hbare => ?_, fun _ => ⟨[token], rfl, .literal hkind⟩⟩
    injection hbare with _ htext
    exact Double.text_ne_empty hvalue htext
  | var | constant | call =>
    exact ⟨fun value hbare => (nomatch hbare), fun hbound => (nomatch hbound)⟩
  | @group _ _ closing _ hopening hread hclosing =>
    obtain ⟨htext, hliteral⟩ := hbinary _ _ hread
    refine ⟨htext, fun hbound => ?_⟩
    obtain ⟨taken, rfl, htaken⟩ := hliteral hbound
    exact ⟨token :: (taken ++ [closing]), by simp, .group hopening hclosing htaken⟩

/-- **A step that gives a number under negations has taken a signed literal**, if the steps that it calls
    do. An operator loop gives such a tree only if it gives its left operand back. -/
theorem takesLiteral_closed : Closed registry stop
    (fun tokens => ∀ e rest, unary registry stop tokens = .ok (e, rest) → TakesLiteral tokens e rest)
    (fun token tokens => ∀ e rest, primary registry stop token tokens = .ok (e, rest) →
      TakesLiteral (token :: tokens) e rest)
    (fun _ => True) (fun _ => True)
    (fun weakest tokens => ∀ e rest, binary registry stop weakest tokens = .ok (e, rest) →
      TakesLiteral tokens e rest)
    (fun weakest left tokens => (∀ value, left ≠ .number value "") →
      ∀ e rest, chain registry stop weakest left tokens = .ok (e, rest) →
        (∀ value, e ≠ .number value "") ∧
          ((Sum.literalBound? e).isSome = true → e = left ∧ rest = tokens)) where
  unary_nil e rest h := by
    rw [unary_nil] at h
    cases h
  unary_cons token tokens hunary hprimary e rest h := takesLiteral_unary hunary hprimary h
  primary token tokens hbinary _ e rest h := takesLiteral_primary hbinary h
  arguments _ _ := trivial
  items _ _ _ := trivial
  binary weakest tokens hunary hchain e rest h := by
    obtain ⟨left, after, hleft, hrest⟩ := binary_ok h
    obtain ⟨htext, hliteral⟩ := hunary _ _ hleft
    obtain ⟨hbare, hback⟩ := hchain _ _ hleft htext _ _ hrest
    refine ⟨hbare, fun hbound => ?_⟩
    obtain ⟨rfl, rfl⟩ := hback hbound
    exact hliteral hbound
  chain weakest left tokens hstep hleft e rest h := by
    cases chain_read h with
    | done => exact ⟨hleft, fun _ => ⟨rfl, rfl⟩⟩
    | step hjoint _ hright hrest =>
      obtain ⟨-, hchain⟩ := hstep _ _ _ rfl hjoint
      obtain ⟨hbare, hback⟩ := hchain _ _ hright (fun value hnumber => nomatch hnumber) _ _ hrest
      refine ⟨hbare, fun hbound => ?_⟩
      obtain ⟨rfl, -⟩ := hback hbound
      obtain ⟨-, value, hvalue⟩ := Expr.literalBound?_binary hbound
      exact absurd hvalue (hleft value)

/-- **A signed literal is read as a number under negations**, if it is read at all. -/
theorem unary_signedLiteral {taken : List Token} (h : SignedLiteral taken) {rest left : List Token}
    {e : Expr} (hread : unary registry stop (taken ++ rest) = .ok (e, left)) :
    left = rest ∧ ∃ bound x, Expr.Signed e bound x := by
  induction h generalizing rest left e with
  | @literal token hkind =>
    rw [List.singleton_append, Grammar.unary_of_kind (by simp [hkind]), primary_literal _ _ hkind] at hread
    obtain ⟨hliteral, rfl⟩ := leaf_eq_ok.1 hread
    obtain ⟨value, -, rfl⟩ := ofLiteral_ok hliteral
    exact ⟨rfl, value, value, .number value _⟩
  | @signed sign tokens hsign _ ih =>
    rw [List.cons_append] at hread
    rcases hsign with hminus | hplus
    · rw [unary_cons, if_pos hminus] at hread
      obtain ⟨⟨operand, left'⟩, hoperand, heq⟩ := map_eq_ok.1 hread
      cases heq
      obtain ⟨rfl, bound, x, hsigned⟩ := ih hoperand
      exact ⟨rfl, _, _, .negation hsigned⟩
    · have hminus : ¬sign.isSymbol '-' = true := by
        rw [Token.isSymbol_ne hplus (by decide)]
        exact Bool.false_ne_true
      rw [unary_cons, if_neg hminus, if_pos hplus] at hread
      exact ih hread
  | @group opening closing tokens hopening hclosing _ ih =>
    have hsigns (symbol : Char) (hne : '(' ≠ symbol) : opening.isSymbol symbol = false :=
      Token.isSymbol_ne hopening hne
    rw [List.cons_append, List.append_assoc, Grammar.unary_of_primary (hsigns _ (by decide))
      (hsigns _ (by decide)), primary_operator _ _ (Token.isSymbol_iff.1 hopening).1,
      if_pos hopening] at hread
    obtain ⟨⟨f, after⟩, hbinary, hclose⟩ := bind_eq_ok.1 hread
    obtain ⟨operand, middle, hunary, hchain⟩ := binary_ok hbinary
    obtain ⟨rfl, bound, x, hsigned⟩ := ih hunary
    rw [List.singleton_append, chain_of_stops (Grammar.stops_closing hclosing 0 rest)] at hchain
    cases hchain
    rw [close, if_pos hclosing] at hclose
    cases hclose
    exact ⟨rfl, bound, x, hsigned⟩

/-- **Among the formulas that are read, a bound is read off those that are signed literals.** -/
theorem literalBound?_isSome_iff {tokens : List Token} {e : Expr}
    (h : Expr.ofTokens registry stop tokens = .ok e) :
    (Sum.literalBound? e).isSome = true ↔ SignedLiteral tokens := by
  have hread := ofTokens_ok_iff.1 h
  constructor
  · intro hbound
    obtain ⟨taken, htaken, hliteral⟩ := (takesLiteral_closed.at_binary 0 tokens e [] hread).literal hbound
    rw [List.append_nil] at htaken
    exact htaken ▸ hliteral
  · intro hliteral
    obtain ⟨operand, after, hunary, hchain⟩ := binary_ok hread
    rw [← List.append_nil tokens] at hunary
    obtain ⟨rfl, bound, x, hsigned⟩ := unary_signedLiteral hliteral hunary
    rw [chain_nil] at hchain
    cases hchain
    rw [hsigned.literalBound?]
    rfl

end Reader

/-! ## 3. The two readings of a number -/

namespace Sum

open Double (isFinite truncate)

/-- **The number that is read off the end of a sum is its value.**

    * In a tree in which every number without a text is zero, a bound is read off a number under negations
      and off nothing else.
    * Such a tree has a value in every state, and the value is numerically what is read off, or neither is a
      number. Written out in place of the end it changes neither the numbers of the range nor anything that
      the sum comes to.
    * All trees that are read, from a source or from tokens of any kind, are of this kind. Read from tokens, a
      bound is there exactly for a literal with any signs before it and any parentheses around it. -/
theorem literalBound_agrees :
    (∀ e : Expr, e.BareZeros → ∀ bound, literalBound? e = some bound ↔ ∃ x, e.Signed bound x) ∧
    (∀ (e : Expr) bound x, e.Signed bound x →
      Same x bound ∧ (∀ registry angle s, e.eval registry angle s = (.ok x, s)) ∧
      (∀ first, isFinite first = true → isFinite bound = true →
        terms first (count first x) 0 = terms first (count first bound) 0 ∧
        terms (truncate first) (count (truncate first) (truncate x)) 0 =
          terms (truncate first) (count (truncate first) (truncate bound)) 0) ∧
      ∀ registry : Registry, registry.Reachable → ∀ angle s start body text,
        (Expr.call "sum" [start, .number x text]).eval registry angle s =
            (Expr.call "sum" [start, e]).eval registry angle s ∧
          (Expr.call "sum" [start, .number x text, body]).eval registry angle s =
            (Expr.call "sum" [start, e, body]).eval registry angle s) ∧
    ∀ registry stop tokens e, Expr.ofTokens registry stop tokens = .ok e →
      e.BareZeros ∧ ((literalBound? e).isSome = true ↔ Token.SignedLiteral tokens) := by
  refine ⟨fun e he bound => Expr.literalBound?_iff he bound, fun e bound x h => ?_,
    fun registry stop tokens e h => ?_⟩
  · have hsame := h.same
    refine ⟨hsame, h.eval, fun first hfirst hbound => ?_,
      fun registry hregistry angle s start body text => ?_⟩
    · have hx : isFinite x = true := hsame.isFinite_eq.trans hbound
      rw [count_same hsame hx hfirst, count_truncate hsame hx hfirst]
      exact ⟨rfl, rfl⟩
    · have hliteral : literalBound? (.number x text) = some x := rfl
      exact Expr.eval_sum_same hregistry hliteral h.literalBound? hsame start body s
  · exact ⟨.of_spelled (.of_tokens h), Reader.literalBound?_isSome_iff h⟩

/-- The tokens of `-(+0)`. -/
def signedZero : List Token :=
  [⟨"-", .operator, 0⟩, ⟨"(", .operator, 1⟩, ⟨"+", .operator, 2⟩, ⟨"0", .literal, 3⟩, ⟨")", .operator, 4⟩]

/-- The negative zero is read off, and the positive one is the value. A sum to either is the same. -/
theorem literalBound_agrees_signedZero :
    ∃ zero, Double.read "0" = .ok zero ∧
      Expr.ofTokens .standard 5 signedZero = .ok (.negation (.number zero "0")) ∧
      (Expr.negation (.number zero "0")).BareZeros ∧
      literalBound? (.negation (.number zero "0")) = some (-zero) ∧ Double.negative (-zero) = true ∧
      Token.SignedLiteral signedZero ∧ Same (0.0 - zero) (-zero) ∧ Double.negative (0.0 - zero) = false ∧
      ∀ start body s,
        (Expr.call "sum" [start, .number (0.0 - zero) "0", body]).eval .standard .radians s =
          (Expr.call "sum" [start, .negation (.number zero "0"), body]).eval .standard .radians s := by
  obtain ⟨hiff, hsigned, hread⟩ := literalBound_agrees
  obtain ⟨zero, hzero, hnegative⟩ : ∃ zero, Double.read "0" = .ok zero ∧
      Double.negative (-zero) = true ∧ Double.negative (0.0 - zero) = false :=
    ⟨Double.ofCode false 0, rfl, by decide +kernel, by decide +kernel⟩
  have hderives : Derives .standard .sum signedZero [] (.negation (.number zero "0")) := by
    have hinner : Derives .standard .signed (signedZero.drop 2) (signedZero.drop 4) (.number zero "0") :=
      .plus rfl (.primary (.literal rfl hzero))
    have hgroup : Derives .standard .primary (signedZero.drop 1) [] (.number zero "0") :=
      .group rfl rfl (.product (.power (.signed hinner)))
    exact .product (.power (.signed (.minus rfl (.primary hgroup))))
  have htokens : Expr.ofTokens .standard 5 signedZero = .ok _ := Grammar.ofTokens_of_derives hderives
  obtain ⟨hbare, hliteral⟩ := hread .standard 5 signedZero _ htokens
  have hsign : Expr.Signed (.negation (.number zero "0")) (-zero) (0.0 - zero) :=
    .negation (.number zero "0")
  have hbound := (hiff _ hbare (-zero)).2 ⟨_, hsign⟩
  obtain ⟨hsame, -, -, hsum⟩ := hsigned _ _ _ hsign
  exact ⟨zero, hzero, htokens, hbare, hbound, hnegative.1, hliteral.1 (by rw [hbound]; rfl), hsame,
    hnegative.2, fun start body s => (hsum .standard Registry.reachable_standard .radians s start body "0").2⟩

end Sum

end Formula
