import Formula.Proofs.Reader.Steps
import Formula.Proofs.Registry.Growth

/-!
# Reading with more names

The reader asks the registry in two places only: for the constant of a name, and for the function of a
name with a parenthesis after it. Where a name is found it stands for the same in every larger
registry, so two readings of the same tokens go the same way until one of them misses a name that the
other one has.

* `Agrees registry later x y`: the results are the same, unless the first is a fault that names what
  the larger registry has and the smaller one lacks (`Fault.Cause.Resolved`).
* `Agrees.bind`: agreement is kept from step to step.
* `agrees_closed` is one step of each kind, and `ofSource_agrees` a whole source.
-/

namespace Formula

/-- The fault is that a name is missing which is there in a later registry. -/
def Fault.Cause.Resolved (registry later : Registry) : Fault.Cause → Prop
  | .unknownConstant name =>
    registry.constant? name = none ∧ ∃ found, later.constant? name = some found
  | .unknownFunction name =>
    registry.function? name = none ∧ ∃ function, later.function? name = some function
  | .unknownCharacter _ | .unexpectedToken _ | .unexpectedEnd | .unclosedParenthesis
  | .malformedLiteral _ | .wrongArgumentCount _ _ _ => False

namespace Reader

variable {registry later : Registry} {stop : Nat} {α β : Type}

/-! ## 1. Agreement -/

/-- The later result is the earlier one, or the earlier one misses a name that is there later. -/
def Agrees (registry later : Registry) (x y : Except Fault α) : Prop :=
  y = x ∨ ∃ fault, x = .error fault ∧ fault.cause.Resolved registry later

theorem Agrees.refl (x : Except Fault α) : Agrees registry later x x := Or.inl rfl

/-- **Agreement goes on after a value, if the steps after it agree.** -/
theorem Agrees.bind {x y : Except Fault α} {f g : α → Except Fault β}
    (h : Agrees registry later x y)
    (hnext : ∀ a, x = .ok a → Agrees registry later (f a) (g a)) :
    Agrees registry later (x.bind f) (y.bind g) := by
  rcases h with rfl | ⟨fault, rfl, hresolved⟩
  · cases y with
    | error fault => exact .refl _
    | ok a => exact hnext a rfl
  · exact Or.inr ⟨fault, rfl, hresolved⟩

theorem Agrees.map {x y : Except Fault α} (h : Agrees registry later x y) (f : α → β) :
    Agrees registry later (x.map f) (y.map f) := by
  rcases h with rfl | ⟨fault, rfl, hresolved⟩
  · exact .refl _
  · exact Or.inr ⟨fault, rfl, hresolved⟩

theorem Agrees.leaf {x y : Except Fault Expr} (h : Agrees registry later x y) (rest : List Token) :
    Agrees registry later (leaf rest x) (leaf rest y) := by
  rw [leaf_eq_map, leaf_eq_map]
  exact h.map _

theorem Agrees.ite {p : Prop} [Decidable p] {x y x' y' : Except Fault α}
    (hpos : Agrees registry later x y) (hneg : Agrees registry later x' y') :
    Agrees registry later (if p then x else x') (if p then y else y') := by
  by_cases hp : p
  · rw [if_pos hp, if_pos hp]
    exact hpos
  · rw [if_neg hp, if_neg hp]
    exact hneg

/-! ## 2. Names -/

theorem ofName_agrees (h : registry.Extends later) (token : Token) :
    Agrees registry later (Expr.ofName registry token) (Expr.ofName later token) := by
  unfold Expr.ofName
  cases hfound : registry.constant? token.text with
  | some found =>
    rw [h.constant hfound]
    exact .refl _
  | none =>
    cases hlater : later.constant? token.text with
    | none => exact .refl _
    | some found => exact Or.inr ⟨_, rfl, hfound, found, hlater⟩

theorem call_agrees (h : registry.Extends later) (name : Token) {tokens : List Token}
    (harguments : Agrees registry later (arguments registry stop tokens)
      (arguments later stop tokens)) :
    Agrees registry later (call registry stop name tokens) (call later stop name tokens) := by
  unfold call
  cases hfunction : registry.function? name.text with
  | some function =>
    rw [h.function hfunction]
    exact harguments.bind fun _ _ => .refl _
  | none =>
    cases hlater : later.function? name.text with
    | none => exact .refl _
    | some function => exact Or.inr ⟨_, rfl, hfunction, function, hlater⟩

/-! ## 3. Steps -/

theorem unary_agrees {token : Token} {rest : List Token}
    (hunary : Agrees registry later (unary registry stop rest) (unary later stop rest))
    (hprimary : Agrees registry later (primary registry stop token rest)
      (primary later stop token rest)) :
    Agrees registry later (unary registry stop (token :: rest)) (unary later stop (token :: rest)) := by
  rw [unary_cons, unary_cons]
  exact (hunary.map _).ite (hunary.ite hprimary)

theorem primary_agrees (h : registry.Extends later) {token : Token} {rest : List Token}
    (hbinary : Agrees registry later (binary registry stop 0 rest) (binary later stop 0 rest))
    (harguments : ∀ next after, rest = next :: after →
      Agrees registry later (arguments registry stop after) (arguments later stop after)) :
    Agrees registry later (primary registry stop token rest) (primary later stop token rest) := by
  cases hkind : token.kind with
  | literal => rw [primary_literal _ _ hkind, primary_literal _ _ hkind]; exact .refl _
  | var => rw [primary_var _ _ hkind, primary_var _ _ hkind]; exact .refl _
  | comma => rw [primary_comma _ _ hkind, primary_comma _ _ hkind]; exact .refl _
  | operator =>
    rw [primary_operator _ _ hkind, primary_operator _ _ hkind]
    exact (hbinary.bind fun r _ => .refl (close stop r)).ite (.refl _)
  | identifier =>
    cases rest with
    | nil =>
      rw [primary_name_nil _ _ hkind, primary_name_nil _ _ hkind]
      exact (ofName_agrees h token).leaf []
    | cons next after =>
      rw [primary_name_cons _ _ hkind, primary_name_cons _ _ hkind]
      have hcall := call_agrees h token (harguments next after rfl)
      exact hcall.ite ((ofName_agrees h token).leaf (next :: after))

theorem arguments_agrees {tokens : List Token}
    (hitems : Agrees registry later (items registry stop tokens) (items later stop tokens)) :
    Agrees registry later (arguments registry stop tokens) (arguments later stop tokens) := by
  cases tokens with
  | nil => rw [arguments_nil, arguments_nil]; exact hitems
  | cons token rest =>
    rw [arguments_cons, arguments_cons]
    exact (Agrees.refl _).ite hitems

theorem nextItem_agrees {e : Expr} {tokens : List Token}
    (hitems : ∀ token rest, tokens = token :: rest →
      Agrees registry later (items registry stop rest) (items later stop rest)) :
    Agrees registry later (nextItem registry stop (e, tokens)) (nextItem later stop (e, tokens)) := by
  cases tokens with
  | nil => exact .refl _
  | cons token rest =>
    rw [nextItem, nextItem]
    have hmore := (hitems token rest rfl).map fun r => (e :: r.1, r.2)
    exact (Agrees.refl _).ite (hmore.ite (.refl _))

/-- **Each step agrees if the steps that it calls agree.** -/
theorem agrees_closed (h : registry.Extends later) (stop : Nat) : Closed registry stop
    (fun tokens => Agrees registry later (unary registry stop tokens) (unary later stop tokens))
    (fun token rest =>
      Agrees registry later (primary registry stop token rest) (primary later stop token rest))
    (fun tokens =>
      Agrees registry later (arguments registry stop tokens) (arguments later stop tokens))
    (fun tokens => Agrees registry later (items registry stop tokens) (items later stop tokens))
    (fun weakest tokens => Agrees registry later (binary registry stop weakest tokens)
      (binary later stop weakest tokens))
    (fun weakest left tokens => Agrees registry later (chain registry stop weakest left tokens)
      (chain later stop weakest left tokens)) where
  unary_nil := by
    rw [unary_nil, unary_nil]
    exact .refl _
  unary_cons token rest hunary hprimary := unary_agrees hunary hprimary
  primary token rest hbinary harguments := primary_agrees h hbinary harguments
  arguments tokens hitems := arguments_agrees hitems
  items tokens hbinary hitems := by
    rw [items_eq, items_eq]
    refine hbinary.bind fun ⟨e, after⟩ hread => nextItem_agrees fun token rest hafter => ?_
    rw [hafter] at hread
    exact hitems e token rest hread
  binary weakest tokens hunary hchain := by
    rw [binary_eq, binary_eq]
    exact hunary.bind fun r hread => hchain r.1 r.2 hread
  chain weakest left tokens hnext := by
    cases tokens with
    | nil =>
      rw [chain_nil, chain_nil]
      exact .refl _
    | cons token rest =>
      rw [chain_cons, chain_cons]
      cases hjoint : Joint.ofToken? token with
      | none => exact .refl _
      | some joint =>
        dsimp only
        obtain ⟨hright, hchain⟩ := hnext token rest joint rfl hjoint
        have hrest := hright.bind fun r hread => hchain r.1 r.2 hread
        exact (Agrees.refl _).ite hrest

/-! ## 4. Whole formulas -/

theorem ofTokens_agrees (h : registry.Extends later) (stop : Nat) (tokens : List Token) :
    Agrees registry later (Expr.ofTokens registry stop tokens) (Expr.ofTokens later stop tokens) := by
  rw [ofTokens_eq, ofTokens_eq]
  exact ((agrees_closed h stop).at_binary 0 tokens).bind fun _ _ => .refl _

/-- **A source is read the same in a larger registry, unless it missed a name that is there now.** -/
theorem ofSource_agrees (h : registry.Extends later) (source : String) :
    Agrees registry later (Expr.ofSource registry source) (Expr.ofSource later source) := by
  unfold Expr.ofSource
  cases Token.ofSource source with
  | error fault => exact .refl _
  | ok tokens => exact ofTokens_agrees h _ tokens

end Reader

end Formula
