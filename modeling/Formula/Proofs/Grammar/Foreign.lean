import Formula.Proofs.Grammar.Juxtaposition
import Formula.Proofs.Reader.Viability

/-!
# Foreign operator tokens

An operator token that is made by hand may have any text. Signs and parentheses are recognized by their
whole text, but the operator behind an operand is looked up by the first character of its token, and what
comes after that character is not looked at. So a row of tokens can be a formula although an
operator token in it is none of the operators.

* `Token.BeginsOperator`: the first character of an operator token is an operator. The token may be more than
  that, while a token that writes a symbol (`Token.WritesSymbol`) is nothing else.
* `Placed behind tokens`: wherever a token is only of the second kind, an operand ends in front of it.
  Each step of the reader takes placed tokens away from placed tokens (`placed_closed`).
* `Token.cut` leaves the first character of an operator token. On placed tokens each step of the
  reader takes the cut tokens for the tokens themselves (`cut_closed`).

`Expr.ofTokens_foreign` is the main statement: it says exactly which foreign tokens are accepted, and as
what.
-/

namespace Formula

namespace Token

/-! ## 1. Operator tokens -/

/-- The token begins with the character of an operator. -/
def BeginsOperator (token : Token) : Prop := ∃ op, token.symbol?.bind Operator.find? = some op

/-- The token may stand where it is. `behind` says whether an operand ends in front of it. -/
def Admitted (behind : Bool) (token : Token) : Prop :=
  token.WritesSymbol ∨ (token.BeginsOperator ∧ behind = true)

/-- The token with the first character of its text, if it is an operator token. -/
def cut (token : Token) : Token :=
  if token.kind = .operator then { token with text := String.ofList (token.text.toList.take 1) }
  else token

theorem admitted_of_kind {token : Token} (h : token.kind ≠ .operator) (behind : Bool) :
    token.Admitted behind := .inl fun hkind => absurd hkind h

theorem admitted_of_isSymbol {token : Token} {c : Char} (h : token.isSymbol c = true)
    (hc : isOperator c = true) (behind : Bool) : token.Admitted behind :=
  .inl fun _ => ⟨c, hc, (isSymbol_iff.1 h).2.1⟩

theorem kind_cut (token : Token) : token.cut.kind = token.kind := by
  unfold cut
  split <;> rfl

theorem cut_of_kind {token : Token} (h : token.kind ≠ .operator) : token.cut = token := if_neg h

/-- Nothing is cut from a token that writes a symbol. -/
theorem WritesSymbol.cut_eq {token : Token} (h : token.WritesSymbol) : token.cut = token := by
  by_cases hkind : token.kind = .operator
  · obtain ⟨c, -, htext⟩ := h hkind
    have hsame : String.ofList (token.text.toList.take 1) = token.text := by
      rw [htext, List.take_succ_cons, List.take_zero, ← htext, String.ofList_toList]
    rw [cut, if_pos hkind, hsame]
  · exact cut_of_kind hkind

/-- **Nothing is cut from a token that may stand in front of an operand.** -/
theorem Admitted.cut_eq {token : Token} (h : token.Admitted false) : token.cut = token := by
  rcases h with hsymbol | ⟨-, hbehind⟩
  · exact hsymbol.cut_eq
  · cases hbehind

theorem symbol?_cut (token : Token) : token.cut.symbol? = token.symbol? := by
  rw [symbol?, kind_cut, symbol?]
  split
  · rename_i hkind
    rw [cut, if_pos hkind]
    cases token.text.toList <;> simp
  · rfl

/-- Behind an operand, cutting a token makes no parenthesis of it. -/
theorem Admitted.isSymbol_cut {token : Token} {behind : Bool} (h : token.Admitted behind) {c : Char}
    (hc : Operator.find? c = none) : token.cut.isSymbol c = token.isSymbol c := by
  rcases h with hsymbol | ⟨⟨op, hop⟩, -⟩
  · rw [hsymbol.cut_eq]
  · have hnone {other : Token} (hother : other.symbol? = token.symbol?) :
        other.isSymbol c = false := by
      cases hsymbol : other.isSymbol c with
      | false => rfl
      | true =>
        rw [← hother, symbol?_of_isSymbol hsymbol, Option.bind_some, hc] at hop
        cases hop
    rw [hnone (symbol?_cut token), hnone rfl]

theorem Admitted.ofToken?_cut {token : Token} {behind : Bool} (h : token.Admitted behind) :
    Joint.ofToken? token.cut = Joint.ofToken? token := by
  have hstarts : token.cut.startsOperand = token.startsOperand := by
    rw [startsOperand, startsOperand, kind_cut, h.isSymbol_cut rfl]
  rw [Joint.ofToken?, Joint.ofToken?, hstarts, symbol?_cut]

/-! ## 2. Rows of tokens -/

/-- All operator tokens may stand where they stand. `behind` says whether an operand ends in front of
    the tokens. -/
def Placed : Bool → List Token → Prop
  | _, [] => True
  | behind, token :: rest => token.Admitted behind ∧ Placed token.endsOperand rest

section Placed

variable {behind : Bool} {token : Token} {rest : List Token}

theorem placed_operator {c : Char} (h : token.isSymbol c = true) (hc : isOperator c = true)
    (hne : c ≠ ')') : Placed behind (token :: rest) ↔ Placed false rest := by
  rw [Placed, endsOperand_of_isSymbol h hne, and_iff_right (admitted_of_isSymbol h hc behind)]

theorem placed_closing (h : token.isSymbol ')' = true) :
    Placed behind (token :: rest) ↔ Placed true rest := by
  rw [Placed, endsOperand_closing h, and_iff_right (admitted_of_isSymbol h rfl behind)]

theorem placed_value (h : token.kind = .literal ∨ token.kind = .var ∨ token.kind = .identifier) :
    Placed behind (token :: rest) ↔ Placed true rest := by
  have hkind : token.kind ≠ .operator := by rcases h with h | h | h <;> simp [h]
  have hends : token.endsOperand = true := by rcases h with h | h | h <;> simp [endsOperand, h]
  rw [Placed, hends, and_iff_right (admitted_of_kind hkind behind)]

theorem placed_comma (h : token.kind = .comma) :
    Placed behind (token :: rest) ↔ Placed false rest := by
  have hkind : token.kind ≠ .operator := by simp [h]
  have hends : token.endsOperand = false := by simp [endsOperand, h]
  rw [Placed, hends, and_iff_right (admitted_of_kind hkind behind)]

/-- **Behind an operand, a token that joins it to the next one is placed whatever its text.** -/
theorem placed_joint {joint : Joint} (h : Joint.ofToken? token = some joint) :
    Placed true (token :: rest) ↔ Placed false (joint.operandTokens token rest) := by
  have hjoint := h
  unfold Joint.ofToken? at h
  split at h
  · -- a token that begins a value is not taken away, and it is no foreign token
    rename_i hstarts
    obtain ⟨op, -, rfl⟩ := Option.map_eq_some_iff.1 h
    rw [Joint.operandTokens, if_neg Bool.false_ne_true]
    by_cases hkind : token.kind = .operator
    · have hopening : token.isSymbol '(' = true := by simpa [startsOperand, hkind] using hstarts
      rw [placed_operator hopening rfl (by decide), placed_operator hopening rfl (by decide)]
    · rw [Placed, Placed, and_iff_right (admitted_of_kind hkind _),
        and_iff_right (admitted_of_kind hkind _)]
  · obtain ⟨op, hop, rfl⟩ := Option.map_eq_some_iff.1 h
    have hadmitted : token.Admitted true := .inr ⟨⟨op, hop⟩, rfl⟩
    rw [Joint.operandTokens, if_pos rfl, Placed, endsOperand_of_joint hjoint,
      and_iff_right hadmitted]

end Placed

/-- **In a placed row every operator token writes a symbol, or it begins an operator directly behind an
    operand.** -/
theorem placed_iff {tokens : List Token} {behind : Bool} :
    Placed behind tokens ↔ ∀ front token rest, tokens = front ++ token :: rest →
      token.Admitted ((front.getLast?.map endsOperand).getD behind) := by
  induction tokens generalizing behind with
  | nil => simp [Placed]
  | cons first tokens ih =>
    rw [Placed, ih]
    constructor
    · rintro ⟨hfirst, hrest⟩ front token rest htokens
      rcases List.cons_eq_append_iff.1 htokens with ⟨rfl, heq⟩ | ⟨front, rfl, heq⟩
      · cases heq
        exact hfirst
      · have hadmitted := hrest front token rest heq
        rw [List.getLast?_cons]
        cases hlast : front.getLast? with
        | none => simpa [hlast] using hadmitted
        | some last => simpa [hlast] using hadmitted
    · intro h
      refine ⟨h [] first tokens rfl, fun front token rest htokens => ?_⟩
      have hadmitted := h (first :: front) token rest (by rw [htokens]; rfl)
      rw [List.getLast?_cons] at hadmitted
      cases hlast : front.getLast? with
      | none => simpa [hlast] using hadmitted
      | some last => simpa [hlast] using hadmitted

end Token

namespace Reader

open Token

variable {registry : Registry} {stop : Nat} {α β : Type}

/-! ## 3. What is read is placed -/

/-- The tokens are placed exactly if what the step leaves of them is, behind the operand that it took. -/
abbrev TakesPlaced (behind : Bool) (step : List Token → Step α) (tokens : List Token) : Prop :=
  ∀ a rest, step tokens = .ok (a, rest) → (Placed behind tokens ↔ Placed true rest)

theorem placed_primary {token : Token} {tokens rest : List Token} {e : Expr}
    (hbinary : TakesPlaced false (binary registry stop 0) tokens)
    (harguments : ∀ next after, tokens = next :: after →
      TakesPlaced false (arguments registry stop) after)
    (h : primary registry stop token tokens = .ok (e, rest)) :
    Placed false (token :: tokens) ↔ Placed true rest := by
  cases primary_read h with
  | literal hkind => exact placed_value (.inl hkind)
  | var hkind => exact placed_value (.inr (.inl hkind))
  | constant hkind => exact placed_value (.inr (.inr hkind))
  | group hopening hread hclosing =>
    rw [placed_operator hopening rfl (by decide), hbinary _ _ hread, placed_closing hclosing]
  | call hkind hopening _ hread =>
    rw [placed_value (.inr (.inr hkind)), placed_operator hopening rfl (by decide),
      harguments _ _ rfl _ _ hread]

/-- **Each step of the reader takes placed tokens and leaves placed tokens**, and nothing else leaves
    placed tokens. -/
theorem placed_closed (registry : Registry) (stop : Nat) : Closed registry stop
    (TakesPlaced false (unary registry stop))
    (fun token tokens => ∀ e rest, primary registry stop token tokens = .ok (e, rest) →
      (Placed false (token :: tokens) ↔ Placed true rest))
    (TakesPlaced false (arguments registry stop)) (TakesPlaced false (items registry stop))
    (fun weakest => TakesPlaced false (binary registry stop weakest))
    (fun weakest left => TakesPlaced true (chain registry stop weakest left)) where
  unary_nil e rest h := by
    rw [unary_nil] at h
    cases h
  unary_cons token tokens hunary hprimary e rest h := by
    cases unary_read h with
    | minus hsign hread | plus hsign hread =>
      rw [placed_operator hsign rfl (by decide), hunary _ _ hread]
    | primary hread => exact hprimary _ _ hread
  primary token tokens hbinary harguments e rest h := placed_primary hbinary harguments h
  arguments tokens hitems es rest h := by
    cases arguments_read h with
    | none hclosing => exact placed_closing hclosing
    | some hread => exact hitems _ _ hread
  items tokens hbinary hitems es rest h := by
    cases items_read h with
    | last hread hclosing => rw [hbinary _ _ hread, placed_closing hclosing]
    | more hread hcomma hrest =>
      rw [hbinary _ _ hread, placed_comma hcomma, hitems _ _ _ hread _ _ hrest]
  binary weakest tokens hunary hchain e rest h := by
    obtain ⟨left, after, hleft, hrest⟩ := binary_ok h
    rw [hunary _ _ hleft, hchain _ _ hleft _ _ hrest]
  chain weakest left tokens hstep e rest h := by
    cases chain_read h with
    | done => exact Iff.rfl
    | step hjoint _ hright hrest =>
      obtain ⟨hbinary, hchain⟩ := hstep _ _ _ rfl hjoint
      rw [placed_joint hjoint, hbinary _ _ hright, hchain _ _ hright _ _ hrest]

/-! ## 4. Cut tokens are read as the tokens -/

/-- The second step gives what the first one gives, with the tokens left over cut. Faults are
    not compared. -/
inductive Cuts : Step α → Step α → Prop
  | ok (a : α) (rest : List Token) : Cuts (.ok (a, rest)) (.ok (a, rest.map cut))
  | error (fault other : Fault) : Cuts (.error fault) (.error other)

namespace Cuts

variable {x y x' y' : Step α}

/-- **Tokens may be cut before a step if they may be cut in what it calls next.** -/
theorem bind {f g : α × List Token → Step β} (h : Cuts x y)
    (hnext : ∀ a rest, x = .ok (a, rest) → Cuts (f (a, rest)) (g (a, rest.map cut))) :
    Cuts (x.bind f) (y.bind g) := by
  cases h with
  | ok a rest => exact hnext a rest rfl
  | error fault other => exact .error fault other

theorem map (h : Cuts x y) (f : α → β) :
    Cuts (x.map fun r => (f r.1, r.2)) (y.map fun r => (f r.1, r.2)) := by
  cases h with
  | ok a rest => exact .ok (f a) rest
  | error fault other => exact .error fault other

theorem ite {p : Prop} [Decidable p] (hpos : Cuts x y) (hneg : Cuts x' y') :
    Cuts (if p then x else x') (if p then y else y') := by
  split
  · exact hpos
  · exact hneg

/-- The two steps succeed with nothing left over for the same values. -/
theorem ok_nil_iff (h : Cuts x y) {a : α} : y = .ok (a, []) ↔ x = .ok (a, []) := by
  cases h with
  | ok b rest => simp
  | error fault other => simp

theorem leaf (rest : List Token) (x : Except Fault Expr) :
    Cuts (leaf rest x) (Reader.leaf (rest.map cut) x) := by
  cases x with
  | error fault => exact .error fault fault
  | ok e => exact .ok e rest

end Cuts

/-- The step may be carried out on cut tokens, if the tokens are placed. -/
abbrev MayCut (behind : Bool) (step : List Token → Step α) (tokens : List Token) : Prop :=
  Placed behind tokens → Cuts (step tokens) (step (tokens.map cut))

theorem close_cuts {e : Expr} {tokens : List Token} (h : Placed true tokens) :
    Cuts (close stop (e, tokens)) (close stop (e, tokens.map cut)) := by
  cases tokens with
  | nil => exact .error _ _
  | cons token rest =>
    rw [List.map_cons, close, close, h.1.isSymbol_cut rfl]
    exact (Cuts.ok e rest).ite (.error _ _)

theorem call_cuts (name : Token) {tokens : List Token} (h : Placed false tokens)
    (harguments : MayCut false (arguments registry stop) tokens) :
    Cuts (call registry stop name tokens) (call registry stop name (tokens.map cut)) := by
  unfold call
  cases registry.function? name.text with
  | none => exact .error _ _
  | some function =>
    exact (harguments h).bind fun es rest _ => (Cuts.ok (Expr.call name.text es) rest).ite
      (.error _ _)

theorem primary_cuts {token : Token} {rest : List Token} (h : Placed false (token :: rest))
    (hbinary : MayCut false (binary registry stop 0) rest)
    (harguments : ∀ next after, rest = next :: after →
      MayCut false (arguments registry stop) after) :
    Cuts (primary registry stop token rest) (primary registry stop token (rest.map cut)) := by
  cases hkind : token.kind with
  | literal =>
    rw [primary_literal _ _ hkind, primary_literal _ _ hkind]
    exact .leaf rest _
  | var =>
    rw [primary_var _ _ hkind, primary_var _ _ hkind]
    exact .ok _ rest
  | comma =>
    rw [primary_comma _ _ hkind, primary_comma _ _ hkind]
    exact .error _ _
  | operator =>
    rw [primary_operator _ _ hkind, primary_operator _ _ hkind]
    split
    · rename_i hopening
      have hrest := (placed_operator hopening rfl (by decide)).1 h
      refine (hbinary hrest).bind fun e after hread => close_cuts ?_
      exact ((placed_closed registry stop).at_binary 0 rest e after hread).1 hrest
    · exact .error _ _
  | identifier =>
    have hrest := (placed_value (.inr (.inr hkind))).1 h
    cases rest with
    | nil =>
      rw [primary_name_nil _ _ hkind, List.map_nil, primary_name_nil _ _ hkind]
      exact .leaf [] _
    | cons next after =>
      rw [primary_name_cons _ _ hkind, List.map_cons, primary_name_cons _ _ hkind,
        hrest.1.isSymbol_cut rfl]
      split
      · rename_i hopening
        exact call_cuts token ((placed_operator hopening rfl (by decide)).1 hrest)
          (harguments next after rfl)
      · exact .leaf (next :: after) _

theorem nextItem_cuts {e : Expr} {tokens : List Token} (h : Placed true tokens)
    (hitems : ∀ token rest, tokens = token :: rest → MayCut false (items registry stop) rest) :
    Cuts (nextItem registry stop (e, tokens)) (nextItem registry stop (e, tokens.map cut)) := by
  cases tokens with
  | nil => exact .error _ _
  | cons token rest =>
    rw [List.map_cons, nextItem, nextItem, h.1.isSymbol_cut rfl, kind_cut]
    refine (Cuts.ok [e] rest).ite ?_
    split
    · rename_i hcomma
      exact (hitems token rest rfl ((placed_comma hcomma).1 h)).map (e :: ·)
    · exact .error _ _

/-- **Each step may be carried out on cut tokens if the steps that it calls may.** -/
theorem cut_closed (registry : Registry) (stop : Nat) : Closed registry stop
    (MayCut false (unary registry stop))
    (fun token rest => Placed false (token :: rest) →
      Cuts (primary registry stop token rest) (primary registry stop token (rest.map cut)))
    (MayCut false (arguments registry stop)) (MayCut false (items registry stop))
    (fun weakest => MayCut false (binary registry stop weakest))
    (fun weakest left => MayCut true (chain registry stop weakest left)) where
  unary_nil h := by
    rw [List.map_nil, unary_nil]
    exact .error _ _
  unary_cons token rest hunary hprimary h := by
    rw [List.map_cons, h.1.cut_eq, unary_cons, unary_cons]
    split
    · rename_i hsign
      exact (hunary ((placed_operator hsign rfl (by decide)).1 h)).map Expr.negation
    · split
      · rename_i hsign
        exact hunary ((placed_operator hsign rfl (by decide)).1 h)
      · exact hprimary h
  primary token rest hbinary harguments h := primary_cuts h hbinary harguments
  arguments tokens hitems h := by
    cases tokens with
    | nil =>
      rw [List.map_nil, arguments_nil]
      exact hitems h
    | cons token rest =>
      have hcut : token :: rest.map cut = (token :: rest).map cut := by
        rw [List.map_cons, h.1.cut_eq]
      rw [List.map_cons, h.1.cut_eq, arguments_cons, arguments_cons, hcut]
      exact (Cuts.ok [] rest).ite (hitems h)
  items tokens hbinary hitems h := by
    rw [items_eq, items_eq]
    refine (hbinary h).bind fun e after hread => nextItem_cuts ?_ fun token rest hafter => ?_
    · exact ((placed_closed registry stop).at_binary 0 tokens e after hread).1 h
    · exact hitems e token rest (hafter ▸ hread)
  binary weakest tokens hunary hchain h := by
    rw [binary_eq, binary_eq]
    refine (hunary h).bind fun left rest hread => hchain left rest hread ?_
    exact ((placed_closed registry stop).at_unary tokens left rest hread).1 h
  chain weakest left tokens hstep h := by
    cases tokens with
    | nil =>
      rw [List.map_nil, chain_nil]
      exact .ok left []
    | cons token rest =>
      rw [List.map_cons, chain_cons, chain_cons, h.1.ofToken?_cut]
      cases hjoint : Joint.ofToken? token with
      | none => exact .ok left (token :: rest)
      | some joint =>
        obtain ⟨hright, hchain⟩ := hstep token rest joint rfl hjoint
        have hoperand := (placed_joint hjoint).1 h
        have hcut : joint.operandTokens token.cut (rest.map cut) =
            (joint.operandTokens token rest).map cut := by
          unfold Joint.operandTokens
          split <;> rfl
        dsimp only
        rw [hcut]
        refine (Cuts.ok left (token :: rest)).ite ((hright hoperand).bind fun right after hread =>
          hchain right after hread ?_)
        exact ((placed_closed registry stop).at_binary _ _ right after hread).1 hoperand

end Reader

/-! ## 5. Whole formulas -/

namespace Expr

variable {registry : Registry} {stop : Nat} {tokens : List Token} {e : Expr}

/-- The tokens of a formula are placed. -/
theorem placed_of_read (h : ofTokens registry stop tokens = .ok e) : Token.Placed false tokens :=
  ((Reader.placed_closed registry stop).at_binary 0 tokens e [] (Reader.ofTokens_ok_iff.1 h)).2 trivial

/-- Placed tokens are read as they are read when they are cut. -/
theorem ofTokens_cut (h : Token.Placed false tokens) :
    ofTokens registry stop (tokens.map Token.cut) = .ok e ↔
      ofTokens registry stop tokens = .ok e := by
  rw [Reader.ofTokens_ok_iff, Reader.ofTokens_ok_iff]
  exact ((Reader.cut_closed registry stop).at_binary 0 tokens h).ok_nil_iff

/-- **What an operator token says behind its first character is not looked at behind an operand, and
    nowhere else may it say anything.** A row of tokens is a formula exactly if it is the same
    formula with its operator tokens cut to their first characters, and every operator token either
    writes an operator or a parenthesis as a whole, or begins an operator directly behind a token at
    which an operand ends. -/
theorem ofTokens_foreign (registry : Registry) (stop : Nat) (tokens : List Token) (e : Expr) :
    ofTokens registry stop tokens = .ok e ↔
      ofTokens registry stop (tokens.map Token.cut) = .ok e ∧
      ∀ front token rest, tokens = front ++ token :: rest →
        token.WritesSymbol ∨
          (token.BeginsOperator ∧ ∃ last ∈ front.getLast?, last.endsOperand = true) := by
  have hplaced : Token.Placed false tokens ↔
      ∀ front token rest, tokens = front ++ token :: rest →
        token.WritesSymbol ∨
          (token.BeginsOperator ∧ ∃ last ∈ front.getLast?, last.endsOperand = true) := by
    rw [Token.placed_iff]
    refine forall₄_congr fun front token rest _ => ?_
    cases front.getLast? <;> simp [Token.Admitted]
  rw [← hplaced]
  constructor
  · intro h
    exact ⟨(ofTokens_cut (placed_of_read h)).2 h, placed_of_read h⟩
  · rintro ⟨hcut, hplaced⟩
    exact (ofTokens_cut hplaced).1 hcut

/-- The tokens of `$x**$y`, with one operator token of two characters. -/
def doubledTokens : List Token := [⟨"$x", .var, 0⟩, ⟨"**", .operator, 2⟩, ⟨"$y", .var, 4⟩]

/-- **A token of two characters is taken for an operator of one.** -/
theorem ofTokens_doubled :
    ofTokens .standard 6 doubledTokens = .ok (.binary '*' (.var "x") (.var "y")) ∧
      (⟨"**", .operator, 2⟩ : Token) ∈ doubledTokens ∧
      ¬Token.WritesSymbol ⟨"**", .operator, 2⟩ := by
  have hright : Reader.binary .standard 6 41 [⟨"$y", .var, 4⟩] = .ok (.var "y", []) := by
    rw [Reader.binary_eq, Grammar.unary_of_kind (by decide), Reader.primary_var _ _ rfl]
    exact Reader.chain_nil ..
  obtain ⟨op, hop, hsymbol, hprecedence, hgrouping⟩ := Operator.find?_star
  have hjoint : Joint.ofToken? ⟨"**", .operator, 2⟩ = some ⟨op, true⟩ := by
    rw [Joint.ofToken?, if_neg (by decide)]
    exact congrArg (Option.map _) hop
  refine ⟨?_, List.mem_cons_of_mem _ (List.mem_cons_self ..), ?_⟩
  · rw [doubledTokens, Reader.ofTokens_eq, Reader.binary_eq, Grammar.unary_of_kind (by decide),
      Reader.primary_var _ _ rfl]
    simp only [Except.bind]
    rw [Reader.chain_cons, hjoint]
    have hname : variableName "$x" = "x" := rfl
    simp [Joint.operandTokens, hgrouping, hright, hsymbol, hname, Except.bind, Reader.chain_nil]
  · intro h
    obtain ⟨c, -, htext⟩ := h rfl
    simp at htext

end Expr

end Formula
