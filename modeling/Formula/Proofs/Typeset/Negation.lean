import Formula.Proofs.Tree.Nodes
import Formula.Proofs.Typeset.Layout
import Mathlib.Data.List.TakeWhile

/-!
# Subtractions that look like negations

A negation is a subtraction from a zero without digits, and it is typeset without a left operand. The
rule of the operator `-` does not look for that zero: it takes every left operand that shows nothing for
one. So a subtraction from a formula that shows nothing is typeset as a negation.

* `Silent`: the formulas that are typeset as nothing. These are the variables of sigils only, the calls of
  `noerr`, which has no form, and the sums with neither two nor three arguments; a registration can add
  constants with an empty display, functions without a form and calls of which its form makes nothing.
* `ofExpr_eq_empty_iff`: a formula of a source is typeset as nothing exactly if it is silent. Whatever is
  built from silent formulas shows something again, except for calls of the kinds above.
* `ofExpr_subtraction_ne_negation_iff` is the main statement: a subtraction of a source is told from the
  negation of its right operand exactly if its left operand is not silent.
-/

namespace Formula.Latex

variable {registry : Registry}

/-! ## 1. Silent formulas -/

/-- The formulas that are typeset as nothing. -/
inductive Silent (registry : Registry) : Expr → Prop
  | constant {name : String} {value : Float} {found : Constant}
      (hfound : registry.constant? name = some found) (hdisplay : found.display = "") :
      Silent registry (.constant name value)
  | var {name : String} (hname : ∀ c ∈ name.toList, c = '#') : Silent registry (.var name)
  | noerr (arguments : List Expr) : Silent registry (.call "noerr" arguments)
  | sum {arguments : List Expr} (hcount : arguments.length ∉ [2, 3]) :
      Silent registry (.call "sum" arguments)
  | formless {name : String} {function : Function} {arguments : List Expr}
      (hname : name ∉ Builtin.names) (hfunction : registry.function? name = some function)
      (hform : function.form = none) : Silent registry (.call name arguments)
  | registered {name : String} {function : Function} {form : Form} {arguments : List Expr}
      (hname : name ∉ Builtin.names) (hfunction : registry.function? name = some function)
      (hform : function.form = some form) (hempty : ofCall registry form arguments = "") :
      Silent registry (.call name arguments)

/-- The ways in which a call is silent. -/
theorem Silent.of_call {name : String} {arguments : List Expr}
    (h : Silent registry (.call name arguments)) :
    name = "noerr" ∨ (name = "sum" ∧ arguments.length ∉ [2, 3]) ∨
      (name ∉ Builtin.names ∧ ∃ function, registry.function? name = some function ∧
        ∀ form, function.form = some form → ofCall registry form arguments = "") := by
  cases h with
  | noerr => exact .inl rfl
  | sum hcount => exact .inr (.inl ⟨rfl, hcount⟩)
  | formless hname hfunction hform =>
    refine .inr (.inr ⟨hname, _, hfunction, fun form hsome => ?_⟩)
    rw [hform] at hsome
    cases hsome
  | registered hname hfunction hform hempty =>
    refine .inr (.inr ⟨hname, _, hfunction, fun form hsome => ?_⟩)
    rw [← Option.some.inj (hform.symm.trans hsome)]
    exact hempty

theorem withoutSigil_eq_empty_iff {name : String} :
    withoutSigil name = "" ↔ ∀ c ∈ name.toList, c = '#' := by
  rw [withoutSigil, ← String.toList_inj, String.toList_ofList, String.toList_empty,
    List.dropWhile_eq_nil_iff]
  simp only [beq_iff_eq]

/-- A call of a function without a form is typeset as nothing. -/
theorem ofExpr_call_formless {name : String} {function : Function}
    (hfunction : registry.function? name = some function) (hform : function.form = none)
    (arguments : List Expr) : ofExpr registry (.call name arguments) = "" := by
  rw [ofExpr, hfunction]
  dsimp only
  rw [hform, ite_self]

/-! ## 2. Calls -/

/-- A sum is typeset as nothing unless it has two or three arguments. -/
theorem ofExpr_sum_eq_empty_iff (h : registry.Reachable) (arguments : List Expr) :
    ofExpr registry (.call "sum" arguments) = "" ↔ arguments.length ∉ [2, 3] := by
  rw [ofExpr_call_row h.sum rfl rfl]
  rcases sumRow_cases arguments with ⟨hcount, hshows⟩ | ⟨hcount, hnone⟩
  · exact iff_of_false (hshows.join_ne_empty _) fun hother => hother hcount
  · rw [hnone]
    exact iff_of_true rfl hcount

theorem ofExpr_call_eq_empty_iff (h : registry.Reachable) {name : String} {function : Function}
    {arguments : List Expr} (hfunction : registry.function? name = some function)
    (harity : function.arity.accepts arguments.length = true) :
    ofExpr registry (.call name arguments) = "" ↔ Silent registry (.call name arguments) := by
  by_cases hnoerr : name = "noerr"
  · subst hnoerr
    exact iff_of_true (ofExpr_call_formless h.noerr rfl _) (.noerr _)
  by_cases hsum : name = "sum"
  · subst hsum
    rw [ofExpr_sum_eq_empty_iff h]
    refine ⟨.sum, fun hsilent => ?_⟩
    rcases hsilent.of_call with hother | ⟨_, hcount⟩ | ⟨hname, _⟩
    · exact absurd hother hnoerr
    · exact hcount
    · exact absurd (by decide) hname
  by_cases hname : name ∈ Builtin.names
  · -- any other builtin function shows something, and none of its calls is silent
    have hstyle := ((builtin_cases h hname hfunction).resolve_left
      fun hother => hnoerr hother.1).resolve_left fun hother => hsum hother.1
    obtain ⟨row, hform⟩ := hstyle.row
    rw [ofExpr_call_row hfunction harity hform]
    refine iff_of_false ((hstyle.shows hform harity).join_ne_empty _) fun hsilent => ?_
    rcases hsilent.of_call with hother | ⟨hother, _⟩ | ⟨hother, _⟩
    · exact hnoerr hother
    · exact hsum hother
    · exact hother hname
  · cases hform : function.form with
    | none =>
      exact iff_of_true (ofExpr_call_formless hfunction hform _) (.formless hname hfunction hform)
    | some form =>
      rw [ofExpr_call hfunction harity hform]
      refine ⟨.registered hname hfunction hform, fun hsilent => ?_⟩
      rcases hsilent.of_call with hother | ⟨hother, _⟩ | ⟨_, other, hother, hempty⟩
      · exact absurd hother hnoerr
      · exact absurd hother hsum
      · obtain rfl := Option.some.inj (hfunction.symm.trans hother)
        exact hempty form hform

/-! ## 3. All formulas -/

/-- **A formula of a source is typeset as nothing exactly if it is silent.** -/
theorem ofExpr_eq_empty_iff (h : registry.Reachable) {e : Expr} (he : Expr.Written registry e) :
    ofExpr registry e = "" ↔ Silent registry e := by
  cases he with
  | @number value text htext _ =>
    obtain ⟨d, more, hshape, _, _⟩ := htext.shape
    rw [ofExpr]
    refine iff_of_false ?_ fun hsilent => by cases hsilent
    rintro rfl
    cases hshape
  | @constant name found hfound =>
    rw [ofExpr, hfound]
    constructor
    · exact .constant hfound
    · rintro ⟨hother, hdisplay⟩
      obtain rfl := Option.some.inj (hfound.symm.trans hother)
      exact hdisplay
  | var name =>
    rw [ofExpr, withoutSigil_eq_empty_iff]
    refine ⟨.var, fun hsilent => ?_⟩
    cases hsilent with
    | var hname => exact hname
  | negation => exact iff_of_false (ofExpr_binary_ne_empty rfl _ _ _) fun hsilent => by cases hsilent
  | binary hop _ _ =>
    exact iff_of_false (ofExpr_binary_ne_empty hop _ _ _) fun hsilent => by cases hsilent
  | call hfunction harity _ => exact ofExpr_call_eq_empty_iff h hfunction harity

/-- Brackets do not hide that an operand shows nothing, since only an operator gets them. -/
theorem operand_ofExpr_eq_empty_iff (op : Operator) (side : Side) (e : Expr) :
    operand op side e (ofExpr registry e) = "" ↔ ofExpr registry e = "" := by
  unfold operand
  split
  case isFalse => rfl
  case isTrue hbrackets =>
    refine iff_of_false (by simp [bracketed]) ?_
    cases e with
    | number | constant | var | call => cases hbrackets
    | binary symbol left right =>
      rw [needsBrackets] at hbrackets
      cases hchild : Operator.find? symbol with
      | none => simp [hchild] at hbrackets
      | some child => exact ofExpr_binary_ne_empty hchild _ _ _

/-- A subtraction is typeset as a negation exactly if its left operand is typeset as nothing. -/
theorem ofExpr_subtraction_eq_negation_iff (left right : Expr) :
    ofExpr registry (.binary '-' left right) = ofExpr registry (.negation right) ↔
      ofExpr registry left = "" := by
  obtain ⟨op, hop, hnegation⟩ := ofExpr_negation registry right
  have htypeset : op.typeset = Operator.typesetSubtraction := by
    cases hop
    rfl
  rw [hnegation, ofExpr, hop, ← operand_ofExpr_eq_empty_iff op .left left]
  dsimp only
  rw [htypeset]
  by_cases hleft : operand op .left left (ofExpr registry left) = ""
  · simp [Operator.typesetSubtraction, hleft]
  · rw [typesetSubtraction_of_ne _ _ hleft]
    refine iff_of_false (fun hsame => ?_) hleft
    have hlength := congrArg String.length hsame
    simp only [String.length_append] at hlength
    have hminus : " - ".length = 3 := rfl
    have hsign : "-".length = 1 := rfl
    omega

/-- **A subtraction of a source is told from a negation exactly if its left operand is not silent.** -/
theorem ofExpr_subtraction_ne_negation_iff (h : registry.Reachable) {source : String} {e : Expr}
    (he : Expr.ofSource registry source = .ok e) {left right : Expr}
    (hnode : .binary '-' left right ∈ e.nodes) (hleft : left ≠ .number 0.0 "") :
    ofExpr registry (.binary '-' left right) ≠ ofExpr registry (.negation right) ↔
      ¬ Silent registry left := by
  have hwritten : Expr.Written registry left := by
    rcases (Expr.Written.of_source he).of_mem_nodes _ hnode with hbinary | hzero
    · exact hbinary.left.resolve_right hleft
    · cases hzero
  rw [ne_eq, ofExpr_subtraction_eq_negation_iff, ofExpr_eq_empty_iff h hwritten]

/-- A product that begins with a silent variable is not silent. -/
def silentProduct : Expr := .binary '*' (.var "##") (.var "x")

/-- A subtraction from a product whose first factor is silent is told from a negation. -/
theorem ofExpr_subtraction_ne_negation_product :
    Expr.ofSource .standard "##*$x-$y" = .ok (.binary '-' silentProduct (.var "y")) ∧
      silentProduct ≠ .number 0.0 "" ∧ ¬ Silent .standard silentProduct ∧
      ofExpr .standard (.binary '-' silentProduct (.var "y")) ≠
        ofExpr .standard (.negation (.var "y")) := by
  have hsource : Expr.ofSource .standard "##*$x-$y" = .ok (.binary '-' silentProduct (.var "y")) := by
    have hstar : Token.isSymbol ⟨"*", .operator, 2⟩ '*' = true := rfl
    have hminus : Token.isSymbol ⟨"-", .operator, 5⟩ '-' = true := rfl
    have hvariable {text : String} {position : Nat} (rest : List Token) :
        Derives .standard .primary (⟨text, .var, position⟩ :: rest) rest
          (.var (Expr.variableName text)) := .var rfl
    have hproduct := Derives.multiply (by decide) hstar ((@hvariable "##" 0 _).toProduct (by decide))
      ((@hvariable "$x" 3 [⟨"-", .operator, 5⟩, ⟨"$y", .var, 6⟩]).toPower (by decide))
    have hderives := Derives.add (by decide) hminus hproduct.toSum
      ((@hvariable "$y" 6 []).toProduct (by decide))
    refine Grammar.ofSource_iff_derives.2 ⟨_, ?_, hderives⟩
    simp +decide [Token.ofSource, Token.scan, Token.lexeme?, Token.ofLexeme, Source.width]
  have hleft : silentProduct ≠ .number 0.0 "" := fun heq => by cases heq
  have hsilent : ¬ Silent .standard silentProduct := fun hsilent => by cases hsilent
  have hnode : .binary '-' silentProduct (.var "y") ∈
      (Expr.binary '-' silentProduct (.var "y")).nodes := Expr.mem_nodes_self _
  exact ⟨hsource, hleft, hsilent, (ofExpr_subtraction_ne_negation_iff Registry.reachable_standard
    hsource hnode hleft).2 hsilent⟩

/-- A call of `noerr`, which is typeset as nothing. -/
def guardedVariable : Expr := .call "noerr" [.var "x"]

/-- A subtraction from a call of `noerr` is typeset as the negation of what is subtracted. -/
theorem ofExpr_subtraction_from_noerr :
    Expr.ofSource .standard "noerr($x)-$y" = .ok (.binary '-' guardedVariable (.var "y")) ∧
      guardedVariable ≠ .number 0.0 "" ∧
      ofExpr .standard (.binary '-' guardedVariable (.var "y")) = "-y" ∧
      ofExpr .standard (.negation (.var "y")) = "-y" := by
  refine ⟨?_, (fun heq => by cases heq), rfl, rfl⟩
  have hclosing : Token.isSymbol ⟨")", .operator, 8⟩ ')' = true := rfl
  have hminus : Token.isSymbol ⟨"-", .operator, 9⟩ '-' = true := rfl
  have hargument : Derives .standard .primary
      [⟨"$x", .var, 6⟩, ⟨")", .operator, 8⟩, ⟨"-", .operator, 9⟩, ⟨"$y", .var, 10⟩]
      [⟨")", .operator, 8⟩, ⟨"-", .operator, 9⟩, ⟨"$y", .var, 10⟩] (.var "x") := .var rfl
  have hcall := @Derives.call .standard ⟨"noerr", .identifier, 0⟩ ⟨"(", .operator, 5⟩ _ _ _ _
    rfl rfl rfl rfl (.last hclosing hargument.toSum)
  have hright : Derives .standard .primary [⟨"$y", .var, 10⟩] [] (.var "y") := .var rfl
  have hderives := Derives.add (by decide) hminus hcall.toSum (hright.toProduct (by decide))
  refine Grammar.ofSource_iff_derives.2 ⟨_, ?_, hderives⟩
  simp +decide [Token.ofSource, Token.scan, Token.lexeme?, Token.ofLexeme, Source.width]

end Formula.Latex
