import Formula.Proofs.Grammar.Soundness

/-!
# What is derived is read

The other direction: where the grammar derives a phrase, the reader gives its tree, so a row of tokens
has one tree at most. A phrase with operators is read as the beginning of a longer chain: reading
on from its first token is reading on after it (`Reads`), as long as what follows does not belong
inside. The induction is on the derivation.

`ofTokens_iff_derives` is the main statement: reading is exact for the grammar. `ofSource_iff_derives`
says the same of sources.
-/

namespace Formula

open Reader

namespace Grammar

variable {registry : Registry} {stop : Nat}

/-! ## 1. Tokens at which a phrase ends -/

theorem stops_of_joint {token : Token} {joint : Joint} {limit : Nat}
    (h : Joint.ofToken? token = some joint) (hlimit : joint.operator.precedence < limit)
    (rest : List Token) : Stops limit (token :: rest) := by
  rw [stops_cons]
  intro other hother
  rw [h] at hother
  cases hother
  exact hlimit

theorem stops_of_none {token : Token} (h : Joint.ofToken? token = none) (limit : Nat)
    (rest : List Token) : Stops limit (token :: rest) := by
  rw [stops_cons, h]
  intro joint hjoint
  cases hjoint

theorem stops_closing {token : Token} (h : token.isSymbol ')' = true) (limit : Nat)
    (rest : List Token) : Stops limit (token :: rest) := by
  refine stops_of_none ?_ limit rest
  rw [Joint.ofToken?_of_isSymbol h (by decide)]
  rfl

theorem stops_comma {token : Token} (h : token.kind = .comma) (limit : Nat) (rest : List Token) :
    Stops limit (token :: rest) := by
  refine stops_of_none ?_ limit rest
  simp [Joint.ofToken?, Token.startsOperand, Token.symbol?, h]

/-! ## 2. Steps of the reader -/

theorem binary_of_unary {tokens rest : List Token} {e : Expr}
    (h : unary registry stop tokens = .ok (e, rest)) (weakest : Nat) :
    binary registry stop weakest tokens = chain registry stop weakest e rest := by
  rw [binary_eq, h]
  rfl

theorem unary_of_primary {token : Token} {tokens : List Token} (hminus : token.isSymbol '-' = false)
    (hplus : token.isSymbol '+' = false) :
    unary registry stop (token :: tokens) = primary registry stop token tokens := by
  rw [unary_cons, hminus, hplus]
  rfl

theorem unary_of_kind {token : Token} {tokens : List Token} (h : token.kind ≠ .operator) :
    unary registry stop (token :: tokens) = primary registry stop token tokens :=
  unary_of_primary (Token.isSymbol_of_kind h) (Token.isSymbol_of_kind h)

theorem primary_of_name {token : Token} {rest : List Token} (h : token.kind = .identifier)
    (hnext : ∀ next ∈ rest.head?, next.isSymbol '(' = false) :
    primary registry stop token rest = leaf rest (Expr.ofName registry token) := by
  cases rest with
  | nil => exact primary_name_nil registry stop h
  | cons next after =>
    rw [primary_name_cons _ _ h, hnext next rfl]
    rfl

/-- At least one argument does not begin with a closing parenthesis. -/
theorem arguments_of_items {tokens rest : List Token} {es : List Expr}
    (h : items registry stop tokens = .ok (es, rest)) :
    arguments registry stop tokens = .ok (es, rest) := by
  cases tokens with
  | nil => rw [arguments_nil, h]
  | cons token tokens =>
    rw [arguments_cons]
    cases hclosing : token.isSymbol ')' with
    | false => exact h
    | true =>
      rw [items_eq, binary_eq, unary_of_primary (Token.isSymbol_ne hclosing (by decide))
        (Token.isSymbol_ne hclosing (by decide)),
        primary_operator _ _ (Token.isSymbol_iff.1 hclosing).1,
        Token.isSymbol_ne hclosing (by decide)] at h
      cases h

/-! ## 3. Phrases are read -/

/-- A phrase with operators begins a chain that goes on behind it, as long as what follows does not
    belong inside. -/
def ReadsOn (registry : Registry) (stop : Nat) (p : Phrase) (tokens rest : List Token) (e : Expr) :
    Prop :=
  Stops p.limit rest → ∀ weakest, weakest ≤ p.level →
    binary registry stop weakest tokens = chain registry stop weakest e rest

/-- How the reader meets a phrase: without operators it is an operand. -/
def Reads (registry : Registry) (stop : Nat) : Phrase → List Token → List Token → Expr → Prop
  | .signed, tokens, rest, e | .primary, tokens, rest, e =>
    unary registry stop tokens = .ok (e, rest)
  | p, tokens, rest, e => ReadsOn registry stop p tokens rest e

/-- A phrase that ends where no operator of the given precedence goes on is all that is read. -/
theorem ReadsOn.binary_eq {p : Phrase} {tokens rest : List Token} {e : Expr} {weakest : Nat}
    (h : ReadsOn registry stop p tokens rest e) (hlevel : weakest ≤ p.level)
    (hlimit : weakest ≤ p.limit) (hstops : Stops weakest rest) :
    binary registry stop weakest tokens = .ok (e, rest) := by
  rw [h (hstops.mono hlimit) weakest hlevel, chain_of_stops hstops]

/-- **Two phrases around an operator are read as its application.** The right one is read one
    precedence tighter than an operator that groups to the left. -/
theorem ReadsOn.joined {p q : Phrase} {tokens middle rest : List Token} {token : Token} {l r : Expr}
    {op : Operator} {written : Bool} (hjoint : Joint.ofToken? token = some ⟨op, written⟩)
    (hprecedence : op.precedence = p.level) (hright : op.rightPrecedence = p.limit)
    (hl : ∀ weakest, weakest ≤ p.level →
      binary registry stop weakest tokens = chain registry stop weakest l (token :: middle))
    (hr : ReadsOn registry stop q (Joint.operandTokens ⟨op, written⟩ token middle) rest r)
    (hlevel : p.limit ≤ q.level) (hlimit : p.limit ≤ q.limit) :
    ReadsOn registry stop p tokens rest (.binary op.symbol l r) := by
  intro hstops weakest hweakest
  have hoperand := hr.binary_eq hlevel hlimit hstops
  rw [← hprecedence] at hweakest
  rw [← hright] at hoperand
  rw [hl weakest (hprecedence ▸ hweakest), chain_of_joint hjoint hweakest, hoperand]
  rfl

/-- The formula in front of a closing parenthesis is read up to it. -/
theorem binary_closing {tokens rest : List Token} {closing : Token} {e : Expr}
    (h : ReadsOn registry stop .sum tokens (closing :: rest) e)
    (hclosing : closing.isSymbol ')' = true) :
    binary registry stop 0 tokens = .ok (e, closing :: rest) :=
  h.binary_eq (by decide) (by decide) (stops_closing hclosing 0 rest)

mutual

theorem reads_of_derives : ∀ {p : Phrase} {tokens rest : List Token} {e : Expr},
    Derives registry p tokens rest e → Reads registry stop p tokens rest e
  | _, _, _, _, .product h => fun hstops weakest hweakest =>
    reads_of_derives h (hstops.mono (by decide)) weakest (Nat.le_trans hweakest (by decide))
  | _, _, _, _, .add hsymbol hoperator hl hr => by
    obtain ⟨op, hfind, rfl, hprecedence, hright⟩ := Operator.find?_sum hsymbol
    have hne : op.symbol ≠ '(' := by rintro h; simp [h] at hsymbol
    have hjoint := Joint.ofToken?_of_isSymbol hoperator hne
    rw [hfind] at hjoint
    have hleft := reads_of_derives hl (stops_of_joint hjoint (by rw [hprecedence]; decide) _)
    exact ReadsOn.joined hjoint hprecedence hright hleft (reads_of_derives hr) (by decide) (by decide)
  | _, _, _, _, .power h => fun hstops weakest hweakest =>
    reads_of_derives h (hstops.mono (by decide)) weakest (Nat.le_trans hweakest (by decide))
  | _, _, _, _, .multiply hsymbol hoperator hl hr => by
    obtain ⟨op, hfind, rfl, hprecedence, hright⟩ := Operator.find?_product hsymbol
    have hne : op.symbol ≠ '(' := by rintro h; simp [h] at hsymbol
    have hjoint := Joint.ofToken?_of_isSymbol hoperator hne
    rw [hfind] at hjoint
    have hleft := reads_of_derives hl (stops_of_joint hjoint (by rw [hprecedence]; decide) _)
    exact ReadsOn.joined hjoint hprecedence hright hleft (reads_of_derives hr) (by decide) (by decide)
  | _, _, _, _, .juxtapose hfirst hl hr => by
    obtain ⟨op, hfind, hsymbol, hprecedence, hright⟩ := Operator.find?_star
    have hjoint := Joint.ofToken?_of_startsOperand hfirst
    rw [hfind] at hjoint
    rw [← hsymbol]
    have hleft := reads_of_derives hl (stops_of_joint hjoint (by rw [hprecedence]; decide) _)
    exact ReadsOn.joined hjoint hprecedence hright hleft (reads_of_derives hr) (by decide) (by decide)
  | _, _, _, _, .signed h => fun _ weakest _ => binary_of_unary (reads_of_derives h) weakest
  | _, _, _, _, .raise hoperator hl hr => by
    obtain ⟨op, hfind, hsymbol, hprecedence, hright⟩ := Operator.find?_power
    have hjoint := Joint.ofToken?_of_isSymbol hoperator (by decide)
    rw [hfind] at hjoint
    rw [← hsymbol]
    exact ReadsOn.joined hjoint hprecedence hright
      (fun weakest _ => binary_of_unary (reads_of_derives hl) weakest)
      (reads_of_derives hr) (by decide) (by decide)
  | _, _, _, _, .minus hsign h => by
    have ih : unary registry stop _ = .ok _ := reads_of_derives h
    rw [Reads, unary_cons, if_pos hsign, ih]
    rfl
  | _, _, _, _, .plus hsign h => by
    have ih : unary registry stop _ = .ok _ := reads_of_derives h
    rw [Reads, unary_cons, Token.isSymbol_ne hsign (by decide), if_pos hsign, ih]
    rfl
  | _, _, _, _, .primary h => by
    have ih : unary registry stop _ = .ok _ := reads_of_derives h
    exact ih
  | _, _, _, _, .literal hkind hvalue => by
    rw [Reads, unary_of_kind (by simp [hkind]), primary_literal _ _ hkind, Expr.ofLiteral, hvalue]
    rfl
  | _, _, _, _, .var hkind => by
    rw [Reads, unary_of_kind (by simp [hkind]), primary_var _ _ hkind]
  | _, _, _, _, .call hname hopening hfunction harity h => by
    rw [Reads, unary_of_kind (by simp [hname]), primary_name_cons _ _ hname, if_pos hopening, call,
      hfunction]
    dsimp only
    rw [arguments_of_items (items_of_derives h)]
    simp [Except.bind, finishCall, harity]
  | _, _, _, _, .callEmpty hname hopening hclosing hfunction harity => by
    rw [Reads, unary_of_kind (by simp [hname]), primary_name_cons _ _ hname, if_pos hopening, call,
      hfunction]
    dsimp only
    rw [arguments_cons, if_pos hclosing]
    simp [Except.bind, finishCall, harity]
  | _, _, _, _, .constant hname hnext hfound => by
    rw [Reads, unary_of_kind (by simp [hname]), primary_of_name hname hnext, Expr.ofName, hfound]
    rfl
  | _, _, _, _, .group hopening hclosing h => by
    rw [Reads, unary_of_primary (Token.isSymbol_ne hopening (by decide))
      (Token.isSymbol_ne hopening (by decide)), primary_operator _ _ (Token.isSymbol_iff.1 hopening).1,
      if_pos hopening, binary_closing (reads_of_derives h) hclosing]
    simp [Except.bind, close, hclosing]

theorem items_of_derives : ∀ {tokens rest : List Token} {es : List Expr},
    DerivesArguments registry tokens rest es → items registry stop tokens = .ok (es, rest)
  | _, _, _, .last hclosing h => by
    rw [items_eq, binary_closing (reads_of_derives h) hclosing]
    simp [Except.bind, nextItem, hclosing]
  | _, _, _, .more hcomma h hes => by
    have hread : ReadsOn registry stop .sum _ _ _ := reads_of_derives h
    rw [items_eq, hread.binary_eq (by decide) (by decide) (stops_comma hcomma 0 _)]
    simp [Except.bind, nextItem, Token.isSymbol_of_kind, hcomma, items_of_derives hes, Except.map]

end

/-- **Every derivation of a whole row of tokens is read.** -/
theorem ofTokens_of_derives {tokens : List Token} {e : Expr}
    (h : Derives registry .sum tokens [] e) : Expr.ofTokens registry stop tokens = .ok e := by
  have hread : ReadsOn registry stop .sum tokens [] e := reads_of_derives h
  exact ofTokens_ok_iff.2 (hread.binary_eq (by decide) (by decide) (stops_nil 0))

/-! ## 4. Reading is exact -/

/-- **A source has a tree exactly if its tokens derive it.** -/
theorem ofSource_iff_derives {source : String} {e : Expr} :
    Expr.ofSource registry source = .ok e ↔
      ∃ tokens, Token.ofSource source = .ok tokens ∧ Derives registry .sum tokens [] e := by
  rw [Expr.ofSource]
  constructor
  · intro h
    split at h
    · cases h
    · rename_i tokens htokens
      exact ⟨tokens, htokens, derives_of_ofTokens (Token.ofSource_isSingle htokens) h⟩
  · rintro ⟨tokens, htokens, h⟩
    rw [htokens]
    exact ofTokens_of_derives h

/-- **The reader accepts exactly the sums of the grammar and gives the one tree of each.** This is
    about tokens that write one character if they are operators, as all tokens of a source do. -/
theorem ofTokens_iff_derives (registry : Registry) (stop : Nat) :
    (∀ source tokens, Token.ofSource source = .ok tokens → Token.AllSingle tokens) ∧
    ∀ tokens, Token.AllSingle tokens →
      (∀ e, Expr.ofTokens registry stop tokens = .ok e ↔ Derives registry .sum tokens [] e) ∧
      ∀ e f, Derives registry .sum tokens [] e → Derives registry .sum tokens [] f → e = f := by
  refine ⟨fun source tokens h => Token.ofSource_isSingle h, fun tokens hsingle => ⟨fun e => ?_, ?_⟩⟩
  · exact ⟨derives_of_ofTokens hsingle, ofTokens_of_derives⟩
  · intro e f he hf
    have hread : Expr.ofTokens registry stop tokens = .ok e := ofTokens_of_derives he
    rw [ofTokens_of_derives hf] at hread
    exact (Except.ok.inj hread).symm

/-- The tokens of `-$x^$y sin($z)`. -/
def signedPower : List Token :=
  [⟨"-", .operator, 0⟩, ⟨"$x", .var, 1⟩, ⟨"^", .operator, 3⟩, ⟨"$y", .var, 4⟩,
    ⟨"sin", .identifier, 7⟩, ⟨"(", .operator, 10⟩, ⟨"$z", .var, 11⟩, ⟨")", .operator, 13⟩]

/-- The sign belongs to the base of the power, and the call multiplies the power. -/
theorem ofTokens_signedPower :
    Token.AllSingle signedPower ∧
      Expr.ofTokens .standard 14 signedPower =
        .ok (.binary '*' (.binary '^' (.negation (.var "x")) (.var "y"))
          (.call "sin" [.var "z"])) := by
  have hsingle : Token.AllSingle signedPower := by decide
  refine ⟨hsingle, ((ofTokens_iff_derives .standard 14).2 signedPower hsingle).1 _ |>.2 ?_⟩
  have hvar (name : String) (position : Nat) (rest : List Token) :
      Derives .standard .power (⟨name, .var, position⟩ :: rest) rest
        (.var (Expr.variableName name)) := .signed (.primary (.var rfl))
  have hbase : Derives .standard .signed signedPower (signedPower.drop 2)
      (.negation (.var "x")) := .minus rfl (.primary (.var rfl))
  have hpower : Derives .standard .power signedPower (signedPower.drop 4)
      (.binary '^' (.negation (.var "x")) (.var "y")) := .raise rfl hbase (hvar "$y" 4 _)
  have hcall : Derives .standard .power (signedPower.drop 4) [] (.call "sin" [.var "z"]) :=
    .signed (.primary (.call rfl rfl rfl rfl (.last rfl (.product (.power (hvar "$z" 11 _))))))
  exact .product (.juxtapose rfl (.power hpower) hcall)

end Grammar

end Formula
