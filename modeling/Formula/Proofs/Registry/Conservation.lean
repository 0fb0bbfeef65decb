import Formula.Expr.Eval
import Formula.Function.Basic
import Formula.Latex
import Formula.Proofs.Grammar.Completeness
import Formula.Proofs.Reader.Growth
import Formula.Proofs.Tree.Basic
import Formula.Proofs.Tree.Checked

/-!
# Registering more names changes nothing else

A formula that could be read goes on meaning what it meant, whatever is registered after it.

* `Latex.shape_extends` and `Expr.node_extends`: a checked tree has the same evaluation and the same
  typeset form in every larger registry, and so has every node in it. A rule may evaluate and typeset
  any node of its arguments and look at all variables, and a form may go on as the text of a node says;
  so the induction carries the claim for all parts of a tree along.
* `Expr.conservative` is the main statement, for sources and rows of registrations. It does not ask
  where the registry comes from.
-/

namespace Formula

variable {registry later : Registry}

/-! ## 1. Checked trees -/

namespace Latex

theorem shape_eq_iff {e : Expr} :
    shape later e = shape registry e ↔ ofExpr later e = ofExpr registry e ∧
      unregistered later e = unregistered registry e ∧
      innerShapes later e = innerShapes registry e := by
  simp only [shape, Rose.mk.injEq, Shape.mk.injEq, funext_iff, forall_const, and_assoc]

/-- **A checked tree is typeset the same in a larger registry**, and so are all nodes in it that the
    form of a call around it may ask for. -/
theorem shape_extends (h : registry.Extends later) {e : Expr} (he : Expr.Checked registry e) :
    shape later e = shape registry e := by
  induction e using Expr.inductParts with
  | h e ih =>
    have hparts : innerShapes later e = innerShapes registry e := by
      rw [innerShapes_eq_map, innerShapes_eq_map]
      exact List.map_congr_left fun part hpart => ih part hpart (he.of_part hpart)
    suffices ofExpr later e = ofExpr registry e ∧ unregistered later e = unregistered registry e from
      shape_eq_iff.2 ⟨this.1, this.2, hparts⟩
    cases he with
    | number | var => simp only [ofExpr, unregistered, and_self]
    | constant hfound => simp only [ofExpr, unregistered, hfound, h.constant hfound, and_self]
    | @binary symbol left right hsymbol hleft hright =>
      obtain ⟨htextLeft, hmissingLeft, -⟩ := shape_eq_iff.1 (ih left (by simp [Expr.parts]) hleft)
      obtain ⟨htextRight, hmissingRight, -⟩ :=
        shape_eq_iff.1 (ih right (by simp [Expr.parts]) hright)
      constructor
      · rw [ofExpr, ofExpr, htextLeft, htextRight]
      · rw [unregistered, unregistered, hmissingLeft, hmissingRight]
    | call hfunction harity _ =>
      -- the form meets the same texts, so it asks for the same nodes and goes on in the same way
      rw [innerShapes, innerShapes] at hparts
      constructor
      · rw [ofExpr, ofExpr, hfunction, h.function hfunction, hparts]
      · rw [unregistered, unregistered, hfunction, h.function hfunction, hparts]

theorem ofExpr_extends (h : registry.Extends later) {e : Expr} (he : Expr.Checked registry e) :
    ofExpr later e = ofExpr registry e := (shape_eq_iff.1 (shape_extends h he)).1

theorem typeset_extends (h : registry.Extends later) {e : Expr} (he : Expr.Checked registry e) :
    typeset later e = typeset registry e := by
  obtain ⟨htext, hmissing, -⟩ := shape_eq_iff.1 (shape_extends h he)
  unfold typeset
  rw [htext, hmissing]

end Latex

namespace Expr

theorem node_eq_iff {angle : Angle} {e : Expr} (htypeset : Latex.typeset later e =
    Latex.typeset registry e) :
    e.node later angle = e.node registry angle ↔
      e.eval later angle = e.eval registry angle ∧
      e.evalParts later angle = e.evalParts registry angle := by
  simp only [node, htypeset, Rose.mk.injEq, Node.mk.injEq, and_true]

/-- **A checked tree evaluates the same in a larger registry**, and so do all nodes in it that the rule
    of a call around it may ask for. -/
theorem node_extends (h : registry.Extends later) {e : Expr} (he : Checked registry e)
    (angle : Angle) : e.node later angle = e.node registry angle := by
  induction e using inductParts with
  | h e ih =>
    have hparts : e.evalParts later angle = e.evalParts registry angle := by
      rw [evalParts_eq_map, evalParts_eq_map]
      exact List.map_congr_left fun part hpart => ih part hpart (he.of_part hpart)
    suffices e.eval later angle = e.eval registry angle from
      (node_eq_iff (Latex.typeset_extends h he)).2 ⟨this, hparts⟩
    funext s
    cases he with
    | number | constant | var => rw [eval, eval]
    | @binary symbol left right hsymbol hleft hright =>
      have hevalLeft := ih left (by simp [parts]) hleft
      have hevalRight := ih right (by simp [parts]) hright
      rw [node_eq_iff (Latex.typeset_extends h hleft)] at hevalLeft
      rw [node_eq_iff (Latex.typeset_extends h hright)] at hevalRight
      rw [eval, eval, hevalLeft.1, hevalRight.1]
    | call hfunction harity _ =>
      -- the rule meets the same outcomes and texts, so each of its steps is the same
      rw [evalParts, evalParts] at hparts
      rw [eval, eval, hfunction, h.function hfunction, hparts]

theorem eval_extends (h : registry.Extends later) {e : Expr} (he : Checked registry e)
    (angle : Angle) : e.eval later angle = e.eval registry angle :=
  ((node_eq_iff (Latex.typeset_extends h he)).1 (node_extends h he angle)).1

end Expr

/-! ## 2. Sources -/

namespace Expr

/-- **Registering names is conservative.** What a source is read as, how that evaluates and how it is
    typeset stay the same; and so does the fault of a source that could not be read, unless it was
    a missing name that has been registered since. -/
theorem conservative (registry : Registry) (registrations : List Registration) (source : String) :
    (∀ e, ofSource registry source = .ok e →
      ofSource (registry.after registrations) source = .ok e ∧
      (∀ angle s, e.eval (registry.after registrations) angle s = e.eval registry angle s) ∧
      Latex.ofExpr (registry.after registrations) e = Latex.ofExpr registry e) ∧
    ∀ fault, ofSource registry source = .error fault →
      ofSource (registry.after registrations) source = .error fault ∨
      fault.cause.Resolved registry (registry.after registrations) := by
  have hextends := registry.after_extends registrations
  rcases Reader.ofSource_agrees hextends source with hsame | ⟨missing, hmissing, hresolved⟩
  · rw [hsame]
    refine ⟨fun e hread => ?_, fun fault hread => Or.inl hread⟩
    have hchecked := Checked.of_source hread
    refine ⟨hread, fun angle s => ?_, Latex.ofExpr_extends hextends hchecked⟩
    rw [eval_extends hextends hchecked]
  · rw [hmissing]
    refine ⟨fun e hread => ?_, fun fault hread => ?_⟩
    · cases hread
    · cases hread
      exact Or.inr hresolved

/-- A function that goes into its argument. Its value is that of the second part of the argument plus
    whatever `y` is bound to; a part that is written `0` is not evaluated. It is typeset as the second
    part in bars, except for a part that is written `x`. -/
def lens : Function where
  arity := .exactly 1
  rule _ := .typeset [0, 1] fun text =>
    if text = "0" then .value 0.0
    else .evaluate [0, 1] (Rule.onValue fun x => .read fun context => .value (x + context.value "y"))
  form := some fun _ => .typeset [0, 1] fun text =>
    .row [.text (if text = "x" then "\\xi" else "|" ++ text ++ "|")]

/-- The standard registry with one function more. -/
def lensed : Registry := .after .standard [.function "lens" lens]

/-- One new name, and one that is refused since it is taken. -/
def additions : List Registration :=
  [.constant "tau" ⟨6.283185307179586, "\\tau"⟩, .function "lens" ⟨.variadic, Stock.total, none⟩]

/-- The tree of `lens(pi $x)`. -/
def magnified : Expr :=
  .call "lens" [.binary '*' (.constant "pi" 3.141592653589793) (.var "x")]

theorem ofSource_magnified : ofSource lensed "lens(pi $x)" = .ok magnified := by
  have htokens : Token.ofSource "lens(pi $x)" =
      .ok [⟨"lens", .identifier, 0⟩, ⟨"(", .operator, 4⟩, ⟨"pi", .identifier, 5⟩, ⟨"$x", .var, 8⟩,
        ⟨")", .operator, 10⟩] := by
    simp +decide [Token.ofSource, Token.scan, Token.lexeme?, Token.ofLexeme]
  have hpi : Derives lensed .signed
      [⟨"pi", .identifier, 5⟩, ⟨"$x", .var, 8⟩, ⟨")", .operator, 10⟩]
      [⟨"$x", .var, 8⟩, ⟨")", .operator, 10⟩] (.constant "pi" 3.141592653589793) :=
    .primary (@Derives.constant lensed _ _ ⟨3.141592653589793, "\\pi"⟩ rfl (by decide) rfl)
  have hargument := Derives.product (.juxtapose rfl (.power (.signed hpi))
    (.signed (.primary (.var rfl))))
  have hcall := @Derives.call lensed ⟨"lens", .identifier, 0⟩ ⟨"(", .operator, 4⟩ _ [] lens _ rfl rfl
    rfl rfl (.last rfl hargument)
  exact Grammar.ofSource_iff_derives.2
    ⟨_, htokens, .product (.power (.signed (.primary hcall)))⟩

theorem ofSource_tau : ofSource lensed "tau" = .error ⟨.unknownConstant "tau", 0⟩ := by
  have htokens : Token.ofSource "tau" = .ok [⟨"tau", .identifier, 0⟩] := by
    simp +decide [Token.ofSource, Token.scan, Token.lexeme?, Token.ofLexeme]
  rw [ofSource, htokens]
  dsimp only
  rw [Reader.ofTokens_eq, Reader.binary_eq, Grammar.unary_of_kind (by decide),
    Reader.primary_name_nil _ _ rfl]
  rfl

/-- With `tau` registered and `lens` refused, `lens(pi $x)` is what it was, and `tau` need not be a fault
    any more. -/
theorem conservative_additions :
    (ofSource lensed "lens(pi $x)" = .ok magnified ∧
      ofSource (lensed.after additions) "lens(pi $x)" = .ok magnified ∧
      (∀ angle s, (magnified.eval lensed angle s).1 =
        .ok (s.context.value "x" + s.context.value "y")) ∧
      (∀ angle s,
        magnified.eval (lensed.after additions) angle s = magnified.eval lensed angle s) ∧
      Latex.ofExpr lensed magnified = "\\xi" ∧
      Latex.ofExpr (lensed.after additions) magnified = Latex.ofExpr lensed magnified) ∧
    ofSource lensed "tau" = .error ⟨.unknownConstant "tau", 0⟩ ∧
      (ofSource (lensed.after additions) "tau" = .error ⟨.unknownConstant "tau", 0⟩ ∨
        (Fault.Cause.unknownConstant "tau").Resolved lensed (lensed.after additions)) := by
  obtain ⟨hread, heval, htypeset⟩ :=
    (conservative lensed additions "lens(pi $x)").1 magnified ofSource_magnified
  have hfault := (conservative lensed additions "tau").2 _ ofSource_tau
  exact ⟨⟨ofSource_magnified, hread, fun _ _ => rfl, heval, rfl, htypeset⟩, ofSource_tau, hfault⟩

end Expr

end Formula
