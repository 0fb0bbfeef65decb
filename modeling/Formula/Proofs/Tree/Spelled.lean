import Formula.Proofs.Reader.Success

/-!
# Spelled trees

The trees that a row of tokens can give (`Expr.Spelled`), whatever the texts of the tokens are. A number has
the value that its text is read as, a constant has the value under its name, an operator is in the table,
and a call is one that its function accepts. The zero of a negation is the only number without a text, since
no text is read off nothing (`Double.text_ne_empty`).

`Spelled.of_tokens` is the main statement. The reader is followed once here, so a fact about all trees that
are read is proved by induction on `Spelled`.
-/

namespace Formula

variable {registry : Registry} {stop : Nat}

/-- What is read as a number has a text. -/
theorem Double.text_ne_empty {text : String} {value : Float} (h : Double.read text = .ok value) :
    text ≠ "" := by
  rintro rfl
  cases h

/-- The operator of a joint is in the table, under its own symbol. -/
theorem Joint.find?_symbol {token : Token} {joint : Joint} (h : Joint.ofToken? token = some joint) :
    ∃ op, Operator.find? joint.operator.symbol = some op := by
  have hfound : ∃ symbol, Operator.find? symbol = some joint.operator := by
    unfold Joint.ofToken? at h
    split at h
    · obtain ⟨op, hop, rfl⟩ := Option.map_eq_some_iff.1 h
      exact ⟨_, hop⟩
    · obtain ⟨op, hop, rfl⟩ := Option.map_eq_some_iff.1 h
      obtain ⟨symbol, -, hsymbol⟩ := Option.bind_eq_some_iff.1 hop
      exact ⟨symbol, hsymbol⟩
  obtain ⟨symbol, hsymbol⟩ := hfound
  rw [Operator.find?_symbol hsymbol]
  exact ⟨_, hsymbol⟩

namespace Expr

/-- The trees that a row of tokens can give. -/
inductive Spelled (registry : Registry) : Expr → Prop
  | number {value : Float} {text : String} (hvalue : Double.read text = .ok value) :
      Spelled registry (.number value text)
  | constant {name : String} {found : Constant} (hfound : registry.constant? name = some found) :
      Spelled registry (.constant name found.value)
  | var (name : String) : Spelled registry (.var name)
  | negation {operand : Expr} : Spelled registry operand → Spelled registry (.negation operand)
  | binary {symbol : Char} {left right : Expr} (hsymbol : ∃ op, Operator.find? symbol = some op) :
      Spelled registry left → Spelled registry right →
      Spelled registry (.binary symbol left right)
  | call {name : String} {function : Function} {arguments : List Expr}
      (hfunction : registry.function? name = some function)
      (harity : function.arity.accepts arguments.length = true) :
      (∀ a ∈ arguments, Spelled registry a) → Spelled registry (.call name arguments)

namespace Spelled

open Reader in
/-- Each step of the reader gives spelled trees. -/
theorem closed : Closed registry stop
    (fun tokens => ∀ e rest, unary registry stop tokens = .ok (e, rest) → Spelled registry e)
    (fun token tokens => ∀ e rest, primary registry stop token tokens = .ok (e, rest) →
      Spelled registry e)
    (fun tokens => ∀ es rest, arguments registry stop tokens = .ok (es, rest) →
      ∀ e ∈ es, Spelled registry e)
    (fun tokens => ∀ es rest, items registry stop tokens = .ok (es, rest) →
      ∀ e ∈ es, Spelled registry e)
    (fun weakest tokens => ∀ e rest, Reader.binary registry stop weakest tokens = .ok (e, rest) →
      Spelled registry e)
    (fun weakest left tokens => Spelled registry left →
      ∀ e rest, chain registry stop weakest left tokens = .ok (e, rest) → Spelled registry e) where
  unary_nil e rest h := by rw [unary_nil] at h; cases h
  unary_cons token tokens hunary hprimary e rest h := by
    cases unary_read h with
    | minus _ hread => exact (hunary _ _ hread).negation
    | plus _ hread => exact hunary _ _ hread
    | primary hread => exact hprimary _ _ hread
  primary token tokens hbinary harguments e rest h := by
    cases primary_read h with
    | literal _ hvalue => exact .number hvalue
    | var => exact .var _
    | group _ hread => exact hbinary _ _ hread
    | call _ _ hfunction hread harity => exact .call hfunction harity (harguments _ _ rfl _ _ hread)
    | constant _ _ hfound => exact .constant hfound
  arguments tokens hitems es rest h := by
    cases arguments_read h with
    | none => exact List.forall_mem_nil _
    | some hread => exact hitems _ _ hread
  items tokens hbinary hitems es rest h := by
    cases items_read h with
    | last hread => exact List.forall_mem_singleton.2 (hbinary _ _ hread)
    | more hread _ hrest =>
      exact List.forall_mem_cons.2 ⟨hbinary _ _ hread, hitems _ _ _ hread _ _ hrest⟩
  binary weakest tokens hunary hchain e rest h := by
    obtain ⟨left, after, hleft, hrest⟩ := binary_ok h
    exact hchain _ _ hleft (hunary _ _ hleft) _ _ hrest
  chain weakest left tokens hstep hleft e rest h := by
    cases chain_read h with
    | done => exact hleft
    | step hjoint _ hright hrest =>
      obtain ⟨hbinary, hchain⟩ := hstep _ _ _ rfl hjoint
      exact hchain _ _ hright (.binary (Joint.find?_symbol hjoint) hleft (hbinary _ _ hright)) _ _ hrest

/-- **A tree that is read from tokens is spelled**, whatever the tokens are. -/
theorem of_tokens {tokens : List Token} {e : Expr} (h : ofTokens registry stop tokens = .ok e) :
    Spelled registry e :=
  closed.at_binary 0 tokens e [] (Reader.ofTokens_ok_iff.1 h)

theorem of_source {source : String} {e : Expr} (h : ofSource registry source = .ok e) :
    Spelled registry e := by
  unfold ofSource at h
  split at h
  · cases h
  · exact of_tokens h

end Spelled

end Expr

end Formula
