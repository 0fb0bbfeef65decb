import Formula.Proofs.Registry.Growth
import Formula.Proofs.Tree.Spelled

/-!
# Checked trees

What the reader checks of a tree before it gives it away (`Expr.Checked`): every operator is in the
table, every constant carries the value that is registered under its name, and every call names a
registered function that accepts the number of its arguments.

* `Checked.of_spelled`: all trees that are read are checked, since they are spelled (`Expr.Spelled`). The
  tokens may come from a source or be of any kind.
* `Checked.mono`: a checked tree stays checked while the registry grows.
* `Checked.of_part`: what is right below the root of a checked tree is checked.
-/

namespace Formula.Expr

variable {registry later : Registry} {stop : Nat}

/-- The trees that pass every check of the reader. -/
inductive Checked (registry : Registry) : Expr → Prop
  | number (value : Float) (text : String) : Checked registry (.number value text)
  | constant {name : String} {found : Constant} (hfound : registry.constant? name = some found) :
      Checked registry (.constant name found.value)
  | var (name : String) : Checked registry (.var name)
  | binary {symbol : Char} {left right : Expr} (hsymbol : ∃ op, Operator.find? symbol = some op) :
      Checked registry left → Checked registry right →
      Checked registry (.binary symbol left right)
  | call {name : String} {function : Function} {arguments : List Expr}
      (hfunction : registry.function? name = some function)
      (harity : function.arity.accepts arguments.length = true) :
      (∀ a ∈ arguments, Checked registry a) → Checked registry (.call name arguments)

namespace Checked

/-! ## 1. What is read is checked -/

theorem negation {e : Expr} (h : Checked registry e) : Checked registry (.negation e) :=
  .binary ⟨_, rfl⟩ (.number 0.0 "") h

/-- **Spelled trees have passed the checks.** -/
theorem of_spelled {e : Expr} (h : Spelled registry e) : Checked registry e := by
  induction h with
  | number => exact .number _ _
  | constant hfound => exact .constant hfound
  | var name => exact .var name
  | negation _ ih => exact ih.negation
  | binary hsymbol _ _ ihleft ihright => exact .binary hsymbol ihleft ihright
  | call hfunction harity _ ih => exact .call hfunction harity ih

/-- A tree that a source gives is checked. -/
theorem of_source {source : String} {e : Expr} (h : ofSource registry source = .ok e) :
    Checked registry e := .of_spelled (.of_source h)

/-- A tree that is read from tokens is checked, whatever the tokens are. -/
theorem of_tokens {tokens : List Token} {e : Expr} (h : ofTokens registry stop tokens = .ok e) :
    Checked registry e := .of_spelled (.of_tokens h)

/-! ## 2. Growth -/

/-- **A checked tree stays checked while names are added.** -/
theorem mono {e : Expr} (h : Checked registry e) (hlater : registry.Extends later) :
    Checked later e := by
  induction h with
  | number value text => exact .number value text
  | constant hfound => exact .constant (hlater.constant hfound)
  | var name => exact .var name
  | binary hsymbol _ _ ihleft ihright => exact .binary hsymbol ihleft ihright
  | call hfunction harity _ ih => exact .call (hlater.function hfunction) harity ih

/-! ## 3. Parts -/

/-- The parts of a checked tree are checked. -/
theorem of_part {e part : Expr} (h : Checked registry e) (hpart : part ∈ e.parts) :
    Checked registry part := by
  cases h with
  | number | constant | var => cases hpart
  | binary hsymbol hleft hright =>
    exact List.forall_mem_cons.2 ⟨hleft, List.forall_mem_singleton.2 hright⟩ part hpart
  | call hfunction harity harguments => exact harguments part hpart

end Checked

end Formula.Expr
