import Formula.Function.Basic
import Formula.Proofs.Function.Outcomes
import Formula.Proofs.Grammar.Completeness
import Formula.Proofs.Tree.Basic
import Formula.Proofs.Tree.Checked

/-!
# Formulas that were read do not go wrong

What the reader checked of a tree is all that evaluation asks of it, also in a registry that has grown
since: the operators are found, the functions are found, and the numbers of arguments are accepted.
What is left are the failures of arithmetic and the refusals of `sum`, `max` and `min`
(`Failure.Ordinary`).

* `Operator.apply_ordinary` and `Builtin.yields` are the steps, for an operator and for a call.
* `Expr.eval_ordinary` is the induction on checked trees.
* `Expr.eval_ofSource_ordinary` is the main statement, for sources and rows of registrations.
-/

namespace Formula

/-! ## 1. Ordinary failures -/

/-- The failures that the operands or the arguments can be blamed for. -/
def Failure.Ordinary : Failure → Prop
  | divisionByZero _ | remainderByZero _ => True
  | refused function _ => function ∈ ["sum", "max", "min"]
  | wrongArgumentCount _ _ _ | unknownFunction _ | unknownOperator _ => False

/-- A value or an ordinary failure. -/
def Outcome.Ordinary : Outcome → Prop
  | .ok _ => True
  | .error failure => failure.Ordinary

/-- What an argument comes to: an ordinary outcome, if there is an argument of that number at all. -/
def Outcome.OrdinaryBelow (count index : Nat) (outcome : Outcome) : Prop :=
  index < count → outcome.Ordinary

theorem Outcome.passes_ordinary (count : Nat) :
    Rule.Passes (Outcome.OrdinaryBelow count) Outcome.Ordinary count :=
  ⟨fun _ => trivial, fun _ hindex _ h => h hindex⟩

theorem Outcome.ordinary_ite {p : Prop} [Decidable p] {failure : Failure}
    (h : failure.Ordinary) (x : Float) :
    Outcome.Ordinary (if p then .error failure else .ok x) := by
  by_cases hp : p
  · rw [if_pos hp]
    exact h
  · rw [if_neg hp]
    exact trivial

/-- **An operator refuses a zero divisor and nothing else.** -/
theorem Operator.apply_ordinary {op : Operator} (h : op ∈ Operator.table) (x y : Float) :
    Outcome.Ordinary (op.apply x y) := by
  have hdivision : (Failure.divisionByZero x).Ordinary := trivial
  have hremainder : (Failure.remainderByZero x).Ordinary := trivial
  simp only [Operator.table, List.mem_cons, List.not_mem_nil, or_false] at h
  rcases h with rfl | rfl | rfl | rfl | rfl | rfl
  · exact trivial
  · exact trivial
  · exact trivial
  · exact Outcome.ordinary_ite hdivision (x / y)
  · exact Outcome.ordinary_ite hremainder (Double.remainder x y)
  · exact trivial

/-! ## 2. Trees -/

namespace Expr

variable {registry : Registry}

theorem supplied_ordinary {angle : Angle} {arguments : List Expr}
    (h : ∀ a ∈ arguments, ∀ s, Outcome.Ordinary (a.eval registry angle s).1) (index : Nat)
    (s : Scope) :
    Outcome.OrdinaryBelow arguments.length index
      (Rule.supplied (evalAll registry angle arguments) [index] s).1 := by
  intro hindex
  rw [supplied_evalAll hindex]
  exact h _ (List.getElem_mem hindex) s

/-- **A checked tree that calls builtin functions has ordinary outcomes.** -/
theorem eval_ordinary (hregistry : registry.Reachable) (angle : Angle) {e : Expr}
    (he : Checked registry e) (hcallees : ∀ name ∈ e.callees, name ∈ Builtin.names) (s : Scope) :
    Outcome.Ordinary (e.eval registry angle s).1 := by
  induction he generalizing s with
  | number value text => rw [eval]; exact trivial
  | constant hfound => rw [eval]; exact trivial
  | var name => rw [eval]; exact trivial
  | binary hsymbol _ _ ihleft ihright =>
    obtain ⟨op, hop⟩ := hsymbol
    obtain ⟨hl, hr⟩ := forall_callees_binary.1 hcallees
    have hleft := ihleft hl s
    generalize h : eval registry angle _ s = r
    cases eval_binary hop h with
    | left hevaluation =>
      rw [hevaluation] at hleft
      exact hleft
    | @right x failure t u _ hevaluation =>
      have hright := ihright hr t
      rw [hevaluation] at hright
      exact hright
    | values _ _ => exact Operator.apply_ordinary (Operator.find?_mem hop) _ _
  | @call name function arguments hfunction harity _ ih =>
    obtain ⟨hname, harguments⟩ := forall_callees_call.1 hcallees
    obtain ⟨builtin, hlookup, hmem⟩ := hregistry.builtin hname
    rw [hfunction] at hlookup
    cases hlookup
    rw [eval_call hfunction harity]
    have hyields := Builtin.yields hmem harity (Outcome.passes_ordinary arguments.length)
      fun hname _ => hname
    exact Rule.run_yields (supplied_ordinary fun a ha => ih a ha (harguments a ha)) hyields s

/-- **A formula that was read and calls builtin functions fails in no other way than by a zero divisor
    or by a refusal of `sum`, `max` or `min`**, whatever has been registered since it was read. -/
theorem eval_ofSource_ordinary (hregistry : registry.Reachable) {source : String} {e : Expr}
    (hread : ofSource registry source = .ok e)
    (hcallees : ∀ name ∈ e.callees, name ∈ Builtin.names) (registrations : List Registration)
    (angle : Angle) (s : Scope) {failure : Failure}
    (h : (e.eval (registry.after registrations) angle s).1 = .error failure) :
    failure.Ordinary := by
  have hchecked := (Checked.of_source hread).mono (registry.after_extends registrations)
  have hordinary := eval_ordinary (hregistry.after registrations) angle hchecked hcallees s
  rw [h] at hordinary
  exact hordinary

/-- The tree of `$x+max()`. -/
def emptyChoice : Expr := .binary '+' (.var "x") (.call "max" [])

theorem ofSource_emptyChoice : ofSource .standard "$x+max()" = .ok emptyChoice := by
  have htokens : Token.ofSource "$x+max()" = .ok [⟨"$x", .var, 0⟩, ⟨"+", .operator, 2⟩,
      ⟨"max", .identifier, 3⟩, ⟨"(", .operator, 6⟩, ⟨")", .operator, 7⟩] := by
    simp +decide [Token.ofSource, Token.scan, Token.lexeme?, Token.ofLexeme]
  refine Grammar.ofSource_iff_derives.2 ⟨_, htokens, ?_⟩
  have hsum : '+' ∈ ['+', '-'] := by simp
  exact .add hsum rfl (.product (.power (.signed (.primary (.var rfl)))))
    (.power (.signed (.primary (.callEmpty rfl rfl rfl rfl rfl))))

/-- A maximum of nothing is refused by `max`, also after an attempt to register another `max`. -/
theorem eval_ofSource_ordinary_emptyChoice :
    let replacing := [Registration.function "max" ⟨.variadic, Stock.total, none⟩]
    let failure : Failure := .refused "max" .noArgument
    ofSource .standard "$x+max()" = .ok emptyChoice ∧
      (∀ name ∈ emptyChoice.callees, name ∈ Builtin.names) ∧
      (emptyChoice.eval (Registry.standard.after replacing) .degrees ⟨.empty, []⟩).1 =
        .error failure ∧
      failure.Ordinary := by
  intro replacing failure
  have hcallees : ∀ name ∈ emptyChoice.callees, name ∈ Builtin.names := by
    intro name hname
    rw [List.mem_singleton.1 hname]
    decide
  have hmax : (Registry.standard.after replacing).function? "max" =
      some (Builtin.choosing "max" "\\max" Double.larger).2 :=
    (Registry.standard.after_extends replacing).function rfl
  have hfailure : (emptyChoice.eval (Registry.standard.after replacing) .degrees
      ⟨.empty, []⟩).1 = .error failure := by
    simp only [emptyChoice, eval, hmax]
    rfl
  exact ⟨ofSource_emptyChoice, hcallees, hfailure, eval_ofSource_ordinary
    Registry.reachable_standard ofSource_emptyChoice hcallees replacing .degrees _ hfailure⟩

end Expr

end Formula
