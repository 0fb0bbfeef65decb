import Formula.Proofs.Grammar.Basic
import Formula.Proofs.Reader.Joints
import Formula.Proofs.Reader.Success

/-!
# What is read is derived

Every formula that the reader gives is a phrase of the grammar, with the same tree and the same
tokens after it. The kind of phrase is read off the precedence down to which the formula was read.

The claim about a chain carries the invariant. The operand so far is some phrase `p`, read from
`start`, and no operator goes on with it that would belong inside (`Phrase.limit`); so the next
operator finds `p` tight enough for its left side, and its own phrase keeps the invariant.
-/

namespace Formula

open Reader

/-- Where a phrase ends, no operator of this precedence or more goes on. A phrase without operators
    may be followed by any. -/
def Phrase.limit : Phrase → Nat
  | sum => 21
  | product => 41
  | power => 60
  | signed => 61
  | primary => 61

namespace Phrase

theorem product_of_level {p : Phrase} (h : 21 ≤ p.level) : 40 ≤ p.level := by
  revert h
  cases p <;> decide

theorem power_of_level {p : Phrase} (h : 41 ≤ p.level) : 60 ≤ p.level := by
  revert h
  cases p <;> decide

theorem product_of_limit {p : Phrase} (h : 40 < p.limit) : 40 ≤ p.level := by
  revert h
  cases p <;> decide

theorem signed_of_limit {p : Phrase} (h : 60 < p.limit) : 61 ≤ p.level := by
  revert h
  cases p <;> decide

end Phrase

/-- All tokens write one character if they are operators. -/
def Token.AllSingle (tokens : List Token) : Prop := ∀ token ∈ tokens, token.IsSingle

theorem Token.AllSingle.suffix {tokens rest : List Token} (h : AllSingle tokens)
    (hrest : rest <:+ tokens) : AllSingle rest :=
  fun token htoken => h token (hrest.subset htoken)

instance (tokens : List Token) : Decidable (Token.AllSingle tokens) :=
  inferInstanceAs (Decidable (∀ token ∈ tokens, token.IsSingle))

namespace Grammar

variable {registry : Registry} {stop : Nat}

/-- The operand of a sign or none is a signed phrase. -/
def UnarySound (registry : Registry) (stop : Nat) (tokens : List Token) : Prop :=
  Token.AllSingle tokens → ∀ e rest, unary registry stop tokens = .ok (e, rest) →
    Derives registry .signed tokens rest e

/-- A value is a primary phrase. -/
def PrimarySound (registry : Registry) (stop : Nat) (token : Token) (tokens : List Token) : Prop :=
  Token.AllSingle (token :: tokens) → ∀ e rest, primary registry stop token tokens = .ok (e, rest) →
    Derives registry .primary (token :: tokens) rest e

/-- The arguments of a call are none, or a row of arguments of the grammar. -/
def ArgumentsSound (registry : Registry) (stop : Nat) (tokens : List Token) : Prop :=
  Token.AllSingle tokens → ∀ es rest, arguments registry stop tokens = .ok (es, rest) →
    DerivesArguments registry tokens rest es ∨
      ∃ closing, closing.isSymbol ')' = true ∧ tokens = closing :: rest ∧ es = []

/-- At least one argument is a row of arguments of the grammar. -/
def ItemsSound (registry : Registry) (stop : Nat) (tokens : List Token) : Prop :=
  Token.AllSingle tokens → ∀ es rest, items registry stop tokens = .ok (es, rest) →
    DerivesArguments registry tokens rest es

/-- A formula read down to a precedence is a phrase of that level. -/
def BinarySound (registry : Registry) (stop weakest : Nat) (tokens : List Token) : Prop :=
  weakest ≤ 61 → Token.AllSingle tokens →
    ∀ e rest, binary registry stop weakest tokens = .ok (e, rest) →
      ∃ p : Phrase, weakest ≤ p.level ∧ Derives registry p tokens rest e

/-- A chain makes a phrase of the phrase that it begins with. -/
def ChainSound (registry : Registry) (stop weakest : Nat) (left : Expr) (tokens : List Token) :
    Prop :=
  Token.AllSingle tokens → ∀ (start : List Token) (p : Phrase), weakest ≤ p.level →
    Derives registry p start tokens left → Stops p.limit tokens →
      ∀ e rest, chain registry stop weakest left tokens = .ok (e, rest) →
        ∃ q : Phrase, weakest ≤ q.level ∧ Derives registry q start rest e

/-- No operator is tighter than a value without operators. -/
theorem stops_tightest {tokens : List Token} (hsingle : Token.AllSingle tokens) : Stops 61 tokens := by
  intro token htoken joint hjoint
  cases Joint.ofToken?_joins (hsingle token (List.mem_of_mem_head? htoken)) hjoint with
  | sum hprecedence | product hprecedence | power hprecedence | juxtaposition hprecedence =>
    rw [hprecedence]
    decide

/-- **One step of a chain.** The operator finds a left operand that is tight enough, and with its
    right operand makes a phrase of its own level. -/
theorem joined {token : Token} {joint : Joint} {start tokens after : List Token} {left right : Expr}
    {p : Phrase} (hjoins : joint.Joins token) (hstops : Stops p.limit (token :: tokens))
    (hjoint : Joint.ofToken? token = some joint)
    (hleft : Derives registry p start (token :: tokens) left)
    (hright : ∃ q : Phrase, joint.operator.rightPrecedence ≤ q.level ∧
      Derives registry q (joint.operandTokens token tokens) after right) :
    ∃ q : Phrase, q.level = joint.operator.precedence ∧
      q.limit = joint.operator.rightPrecedence ∧
      Derives registry q start after (.binary joint.operator.symbol left right) := by
  have hlimit := stops_cons.1 hstops joint hjoint
  obtain ⟨q, hq, hright⟩ := hright
  cases hjoins with
  | sum hprecedence hlevel hsymbol htoken =>
    rw [hlevel] at hq
    have hproduct := hright.toProduct (Phrase.product_of_level hq)
    exact ⟨.sum, hprecedence.symm, hlevel.symm, .add hsymbol htoken hleft.toSum hproduct⟩
  | product hprecedence hlevel hsymbol htoken =>
    rw [hlevel] at hq
    rw [hprecedence] at hlimit
    have hproduct := hleft.toProduct (Phrase.product_of_limit hlimit)
    have hpower := hright.toPower (Phrase.power_of_level hq)
    exact ⟨.product, hprecedence.symm, hlevel.symm, .multiply hsymbol htoken hproduct hpower⟩
  | power hprecedence hlevel hsymbol htoken =>
    rw [hlevel] at hq
    rw [hprecedence] at hlimit
    have hsigned := hleft.toSigned (Phrase.signed_of_limit hlimit)
    rw [hsymbol] at htoken ⊢
    exact ⟨.power, hprecedence.symm, hlevel.symm, .raise htoken hsigned (hright.toPower hq)⟩
  | juxtaposition hprecedence hlevel hsymbol htoken =>
    rw [hlevel] at hq
    rw [hprecedence] at hlimit
    have hproduct := hleft.toProduct (Phrase.product_of_limit hlimit)
    have hpower := hright.toPower (Phrase.power_of_level hq)
    rw [hsymbol]
    exact ⟨.product, hprecedence.symm, hlevel.symm, .juxtapose htoken hproduct hpower⟩

theorem sound_closed : Closed registry stop (UnarySound registry stop) (PrimarySound registry stop)
    (ArgumentsSound registry stop) (ItemsSound registry stop) (BinarySound registry stop)
    (ChainSound registry stop) where
  unary_nil _ e rest h := by rw [unary_nil] at h; cases h
  unary_cons token tokens hunary hprimary hsingle e rest h := by
    have htokens : Token.AllSingle tokens := hsingle.suffix (List.suffix_cons token tokens)
    cases unary_read h with
    | minus hsign hread => exact .minus hsign (hunary htokens _ _ hread)
    | plus hsign hread => exact .plus hsign (hunary htokens _ _ hread)
    | primary hread => exact .primary (hprimary hsingle _ _ hread)
  primary token tokens hbinary harguments hsingle e rest h := by
    have htokens : Token.AllSingle tokens := hsingle.suffix (List.suffix_cons token tokens)
    cases primary_read h with
    | literal hkind hvalue => exact .literal hkind hvalue
    | var hkind => exact .var hkind
    | group hopening hread hclosing =>
      obtain ⟨p, _, hp⟩ := hbinary (by omega) htokens _ _ hread
      exact .group hopening hclosing hp.toSum
    | call hkind hopening hfunction hread harity =>
      have hafter := htokens.suffix (List.suffix_cons _ _)
      rcases harguments _ _ rfl hafter _ _ hread with hes | ⟨closing, hclosing, rfl, rfl⟩
      · exact .call hkind hopening hfunction harity hes
      · exact .callEmpty hkind hopening hclosing hfunction harity
    | constant hkind hnext hfound => exact .constant hkind hnext hfound
  arguments tokens hitems hsingle es rest h := by
    cases arguments_read h with
    | none hclosing => exact .inr ⟨_, hclosing, rfl, rfl⟩
    | some hread => exact .inl (hitems hsingle _ _ hread)
  items tokens hbinary hitems hsingle es rest h := by
    cases items_read h with
    | last hread hclosing =>
      obtain ⟨p, _, hp⟩ := hbinary (by omega) hsingle _ _ hread
      exact .last hclosing hp.toSum
    | more hread hcomma hrest =>
      obtain ⟨p, _, hp⟩ := hbinary (by omega) hsingle _ _ hread
      have hafter := hsingle.suffix ((List.suffix_cons _ _).trans (binary_suffix hread))
      exact .more hcomma hp.toSum (hitems _ _ _ hread hafter _ _ hrest)
  binary weakest tokens hunary hchain hweakest hsingle e rest h := by
    obtain ⟨left, after, hleft, hrest⟩ := binary_ok h
    have hafter := hsingle.suffix (unary_suffix hleft)
    have hstops : Stops (Phrase.limit .signed) after := stops_tightest hafter
    exact hchain _ _ hleft hafter tokens .signed hweakest (hunary hsingle _ _ hleft) hstops _ _ hrest
  chain weakest left tokens hstep hsingle start p hp hleft hstops e rest h := by
    cases chain_read h with
    | done => exact ⟨p, hp, hleft⟩
    | @step token tokens after _ joint right _ hjoint hweakest hright hrest =>
      obtain ⟨hbinary, hchain⟩ := hstep _ _ _ rfl hjoint
      have hjoins := Joint.ofToken?_joins (hsingle token List.mem_cons_self) hjoint
      have hoperand := hsingle.suffix (operandTokens_suffix joint token tokens)
      obtain ⟨q, hq, hlimit, hjoined⟩ := joined hjoins hstops hjoint hleft
        (hbinary hjoins.rightPrecedence_le hoperand _ _ hright)
      refine hchain _ _ hright (hoperand.suffix (binary_suffix hright)) start q (hq ▸ hweakest) hjoined
        ?_ _ _ hrest
      rw [hlimit]
      exact binary_stops hright

/-- **Every formula that is read is derived.** -/
theorem derives_of_ofTokens {tokens : List Token} {e : Expr} (hsingle : Token.AllSingle tokens)
    (h : Expr.ofTokens registry stop tokens = .ok e) : Derives registry .sum tokens [] e := by
  obtain ⟨p, _, hp⟩ :=
    sound_closed.at_binary 0 tokens (by omega) hsingle _ _ (ofTokens_ok_iff.1 h)
  exact hp.toSum

end Grammar

end Formula
