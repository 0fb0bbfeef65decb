import Formula.Proofs.Reader.Steps

/-!
# The reader does not look at places

A token carries the offset at which it stands, and the reader copies it into its faults without looking
at it. So a row of tokens is read as it would be if all of them stood at the beginning of an empty
source, up to the places of faults.

* `Token.unplaced` and `Fault.unplaced` forget a place, `Reader.unplaced` those in what a step of the
  reader gives.
* `Commutes` says of one step that it may forget the places before or after; `Commutes.bind` goes
  on from step to step.
* `unplaced_closed` is one step of each kind, and `ofTokens_unplaced` a whole row of tokens.
-/

namespace Formula

/-- The token at the beginning of its source. -/
def Token.unplaced (token : Token) : Token := { token with position := 0 }

/-- The fault at the beginning of its source. -/
def Fault.unplaced (fault : Fault) : Fault := { fault with position := 0 }

/-- What continues a formula does so at any place. -/
theorem Joint.ofToken?_unplaced (token : Token) :
    Joint.ofToken? token.unplaced = Joint.ofToken? token := rfl

theorem Joint.operandTokens_unplaced (joint : Joint) (token : Token) (rest : List Token) :
    joint.operandTokens token.unplaced (rest.map Token.unplaced) =
      (joint.operandTokens token rest).map Token.unplaced := by
  unfold operandTokens
  split <;> rfl

namespace Reader

variable {registry : Registry} {stop : Nat} {α β : Type}

/-! ## 1. Forgetting the places -/

/-- A step of the reader without the places of the tokens left over and of the fault. -/
def unplaced (x : Step α) : Step α :=
  (x.map fun r => (r.1, r.2.map Token.unplaced)).mapError Fault.unplaced

/-- The second step is the first with all places forgotten. -/
def Commutes (x y : Step α) : Prop := y = unplaced x

namespace Commutes

variable {x y x' y' : Step α}

/-- **Places may be forgotten before a step if they may be forgotten in what it calls next.** -/
theorem bind {f g : α × List Token → Step β} (h : Commutes x y)
    (hnext : ∀ a rest, x = .ok (a, rest) → Commutes (f (a, rest)) (g (a, rest.map Token.unplaced))) :
    Commutes (x.bind f) (y.bind g) := by
  subst h
  cases x with
  | error fault => rfl
  | ok r => exact hnext r.1 r.2 rfl

theorem map (h : Commutes x y) (f : α → β) :
    Commutes (x.map fun r => (f r.1, r.2)) (y.map fun r => (f r.1, r.2)) := by
  subst h
  cases x <;> rfl

theorem ite {p : Prop} [Decidable p] (hpos : Commutes x y) (hneg : Commutes x' y') :
    Commutes (if p then x else x') (if p then y else y') := by
  split
  · exact hpos
  · exact hneg

/-- A value in front of the tokens left over. -/
theorem ok (a : α) (rest : List Token) :
    Commutes (.ok (a, rest)) (.ok (a, rest.map Token.unplaced)) := rfl

/-- A fault at a place. -/
theorem error (fault : Fault) : Commutes (α := α) (.error fault) (.error fault.unplaced) := rfl

end Commutes

/-! ## 2. Steps without recursion -/

theorem ofLiteral_unplaced (token : Token) (rest : List Token) :
    Commutes (leaf rest (Expr.ofLiteral token))
      (leaf (rest.map Token.unplaced) (Expr.ofLiteral token.unplaced)) := by
  unfold Expr.ofLiteral Token.unplaced
  dsimp only
  cases Double.read token.text <;> rfl

theorem ofName_unplaced (token : Token) (rest : List Token) :
    Commutes (leaf rest (Expr.ofName registry token))
      (leaf (rest.map Token.unplaced) (Expr.ofName registry token.unplaced)) := by
  unfold Expr.ofName Token.unplaced
  dsimp only
  cases registry.constant? token.text <;> rfl

theorem close_unplaced (e : Expr) (tokens : List Token) :
    Commutes (close stop (e, tokens)) (close 0 (e, tokens.map Token.unplaced)) := by
  cases tokens with
  | nil => exact .error _
  | cons token rest => exact (Commutes.ok e rest).ite (.error _)

theorem finishCall_unplaced (name : Token) (function : Function) (es : List Expr)
    (rest : List Token) :
    Commutes (finishCall name function (es, rest))
      (finishCall name.unplaced function (es, rest.map Token.unplaced)) :=
  (Commutes.ok (Expr.call name.text es) rest).ite (.error _)

/-! ## 3. Steps that call others -/

theorem call_unplaced (name : Token) {tokens : List Token}
    (harguments : Commutes (arguments registry stop tokens)
      (arguments registry 0 (tokens.map Token.unplaced))) :
    Commutes (call registry stop name tokens)
      (call registry 0 name.unplaced (tokens.map Token.unplaced)) := by
  have htext : name.unplaced.text = name.text := rfl
  unfold call
  rw [htext]
  cases registry.function? name.text with
  | none => exact .error _
  | some function => exact harguments.bind fun es rest _ => finishCall_unplaced name function es rest

theorem primary_unplaced {token : Token} {rest : List Token}
    (hbinary : Commutes (binary registry stop 0 rest)
      (binary registry 0 0 (rest.map Token.unplaced)))
    (harguments : ∀ next after, rest = next :: after →
      Commutes (arguments registry stop after) (arguments registry 0 (after.map Token.unplaced))) :
    Commutes (primary registry stop token rest)
      (primary registry 0 token.unplaced (rest.map Token.unplaced)) := by
  have hsame : token.unplaced.kind = token.kind := rfl
  cases hkind : token.kind with
  | literal =>
    rw [primary_literal _ _ hkind, primary_literal _ _ (hsame.trans hkind)]
    exact ofLiteral_unplaced token rest
  | var =>
    rw [primary_var _ _ hkind, primary_var _ _ (hsame.trans hkind)]
    exact .ok _ rest
  | comma =>
    rw [primary_comma _ _ hkind, primary_comma _ _ (hsame.trans hkind)]
    exact .error _
  | operator =>
    rw [primary_operator _ _ hkind, primary_operator _ _ (hsame.trans hkind)]
    exact (hbinary.bind fun e after _ => close_unplaced e after).ite (.error _)
  | identifier =>
    cases rest with
    | nil =>
      rw [primary_name_nil _ _ hkind, List.map_nil, primary_name_nil _ _ (hsame.trans hkind)]
      exact ofName_unplaced token []
    | cons next after =>
      rw [primary_name_cons _ _ hkind, List.map_cons, primary_name_cons _ _ (hsame.trans hkind)]
      have hcall := call_unplaced token (harguments next after rfl)
      exact hcall.ite (ofName_unplaced token (next :: after))

theorem nextItem_unplaced {e : Expr} {tokens : List Token}
    (hitems : ∀ token rest, tokens = token :: rest →
      Commutes (items registry stop rest) (items registry 0 (rest.map Token.unplaced))) :
    Commutes (nextItem registry stop (e, tokens))
      (nextItem registry 0 (e, tokens.map Token.unplaced)) := by
  cases tokens with
  | nil => exact .error _
  | cons token rest =>
    have hmore := (hitems token rest rfl).map (e :: ·)
    exact (Commutes.ok [e] rest).ite (hmore.ite (.error _))

/-- **Each step may forget the places if the steps that it calls may.** -/
theorem unplaced_closed (registry : Registry) (stop : Nat) : Closed registry stop
    (fun tokens =>
      Commutes (unary registry stop tokens) (unary registry 0 (tokens.map Token.unplaced)))
    (fun token rest => Commutes (primary registry stop token rest)
      (primary registry 0 token.unplaced (rest.map Token.unplaced)))
    (fun tokens =>
      Commutes (arguments registry stop tokens) (arguments registry 0 (tokens.map Token.unplaced)))
    (fun tokens =>
      Commutes (items registry stop tokens) (items registry 0 (tokens.map Token.unplaced)))
    (fun weakest tokens => Commutes (binary registry stop weakest tokens)
      (binary registry 0 weakest (tokens.map Token.unplaced)))
    (fun weakest left tokens => Commutes (chain registry stop weakest left tokens)
      (chain registry 0 weakest left (tokens.map Token.unplaced))) where
  unary_nil := by
    rw [List.map_nil, unary_nil, unary_nil]
    exact .error _
  unary_cons token rest hunary hprimary := by
    rw [List.map_cons, unary_cons, unary_cons]
    exact (hunary.map Expr.negation).ite (hunary.ite hprimary)
  primary token rest hbinary harguments := primary_unplaced hbinary harguments
  arguments tokens hitems := by
    cases tokens with
    | nil =>
      rw [List.map_nil, arguments_nil, arguments_nil]
      exact hitems
    | cons token rest =>
      rw [List.map_cons, arguments_cons, arguments_cons]
      exact (Commutes.ok [] rest).ite hitems
  items tokens hbinary hitems := by
    rw [items_eq, items_eq]
    refine hbinary.bind fun e after hread => nextItem_unplaced fun token rest hafter => ?_
    exact hitems e token rest (hafter ▸ hread)
  binary weakest tokens hunary hchain := by
    rw [binary_eq, binary_eq]
    exact hunary.bind fun left rest hread => hchain left rest hread
  chain weakest left tokens hnext := by
    cases tokens with
    | nil =>
      rw [List.map_nil, chain_nil, chain_nil]
      exact .ok left []
    | cons token rest =>
      rw [List.map_cons, chain_cons, chain_cons, Joint.ofToken?_unplaced]
      cases hjoint : Joint.ofToken? token with
      | none => exact .ok left (token :: rest)
      | some joint =>
        obtain ⟨hright, hchain⟩ := hnext token rest joint rfl hjoint
        dsimp only
        rw [Joint.operandTokens_unplaced]
        refine (Commutes.ok left (token :: rest)).ite (hright.bind fun right after hread => ?_)
        exact hchain right after hread

/-! ## 4. Whole formulas -/

/-- **A row of tokens is read as it would be without places.** -/
theorem ofTokens_unplaced (registry : Registry) (stop : Nat) (tokens : List Token) :
    Expr.ofTokens registry 0 (tokens.map Token.unplaced) =
      (Expr.ofTokens registry stop tokens).mapError Fault.unplaced := by
  have hbinary := (unplaced_closed registry stop).at_binary 0 tokens
  rw [ofTokens_eq, ofTokens_eq, hbinary]
  rcases binary registry stop 0 tokens with fault | ⟨e, _ | ⟨token, rest⟩⟩ <;> rfl

end Reader

end Formula
