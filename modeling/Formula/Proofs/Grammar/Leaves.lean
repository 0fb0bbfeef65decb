import Formula.Proofs.Tree.Nodes

/-!
# Leaves of a phrase

The literals and variables among the tokens of a phrase are the numbers and variables of its tree, each as
often and in the same order; only the zeros of negations are in the tree and not among the tokens.

`Derives.leaves` says so for whatever is read off tokens and leaves alike (`ReadsLeaves`);
`Expr.literals_of_source` is the case of the texts of literals.
-/

namespace Formula

/-! ## 1. Reading leaves -/

/-- Something is read off the tokens of leaves, off the leaves in the same way, and nowhere else. -/
structure ReadsLeaves {α : Type} (ofToken : Token → Option α) (ofNode : Expr → Option α) : Prop where
  other : ∀ {token : Token}, token.kind ≠ .literal → token.kind ≠ .var → ofToken token = none
  literal : ∀ {token : Token} {value : Float}, token.kind = .literal →
    Double.read token.text = .ok value → ofToken token = ofNode (.number value token.text)
  var : ∀ {token : Token}, token.kind = .var →
    ofToken token = ofNode (.var (Expr.variableName token.text))
  zero : ofNode (.number 0.0 "") = none
  constant : ∀ name value, ofNode (.constant name value) = none
  binary : ∀ symbol left right, ofNode (.binary symbol left right) = none
  call : ∀ name arguments, ofNode (.call name arguments) = none

namespace ReadsLeaves

variable {α : Type} {ofToken : Token → Option α} {ofNode : Expr → Option α}

theorem symbol (h : ReadsLeaves ofToken ofNode) {token : Token} {c : Char}
    (hsymbol : token.isSymbol c = true) : ofToken token = none :=
  h.other (by simp [(Token.isSymbol_iff.1 hsymbol).1]) (by simp [(Token.isSymbol_iff.1 hsymbol).1])

theorem kind (h : ReadsLeaves ofToken ofNode) {token : Token}
    (hkind : token.kind = .identifier ∨ token.kind = .comma) : ofToken token = none := by
  rcases hkind with hkind | hkind <;> exact h.other (by simp [hkind]) (by simp [hkind])

/-- A token and a leaf that give the same. -/
theorem filterMap_leaf {token : Token} {leaf : Expr} (h : ofToken token = ofNode leaf)
    (rest : List Token) : (token :: rest).filterMap ofToken =
      [leaf].filterMap ofNode ++ rest.filterMap ofToken := by
  rw [List.filterMap_cons, h, List.filterMap_cons]
  cases ofNode leaf <;> rfl

theorem nodes_binary (h : ReadsLeaves ofToken ofNode) (symbol : Char) (left right : Expr) :
    (Expr.binary symbol left right).nodes.filterMap ofNode =
      left.nodes.filterMap ofNode ++ right.nodes.filterMap ofNode := by
  rw [Expr.nodes, List.filterMap_cons_none (h.binary symbol left right), List.filterMap_append]

theorem nodes_call (h : ReadsLeaves ofToken ofNode) (name : String) (arguments : List Expr) :
    (Expr.call name arguments).nodes.filterMap ofNode =
      (Expr.nodesAll arguments).filterMap ofNode := by
  rw [Expr.nodes, List.filterMap_cons_none (h.call name arguments)]

theorem nodes_negation (h : ReadsLeaves ofToken ofNode) (operand : Expr) :
    (Expr.negation operand).nodes.filterMap ofNode = operand.nodes.filterMap ofNode := by
  rw [Expr.negation, h.nodes_binary, Expr.nodes, List.filterMap_cons_none h.zero,
    List.filterMap_nil, List.nil_append]

end ReadsLeaves

/-! ## 2. Phrases -/

namespace Derives

variable {registry : Registry} {α : Type} {ofToken : Token → Option α} {ofNode : Expr → Option α}

mutual

/-- **What is read off the tokens of a phrase is what is read off its tree**, in the same order. -/
theorem leaves (reads : ReadsLeaves ofToken ofNode) :
    ∀ {p : Phrase} {tokens rest : List Token} {e : Expr}, Derives registry p tokens rest e →
      tokens.filterMap ofToken = e.nodes.filterMap ofNode ++ rest.filterMap ofToken
  | _, _, _, _, .product h | _, _, _, _, .power h | _, _, _, _, .signed h | _, _, _, _, .primary h =>
    h.leaves reads
  | _, _, _, _, .add _ hoperator hl hr | _, _, _, _, .multiply _ hoperator hl hr
  | _, _, _, _, .raise hoperator hl hr => by
    rw [hl.leaves reads, List.filterMap_cons_none (reads.symbol hoperator), hr.leaves reads,
      reads.nodes_binary, List.append_assoc]
  | _, _, _, _, .juxtapose _ hl hr => by
    rw [hl.leaves reads, hr.leaves reads, reads.nodes_binary, List.append_assoc]
  | _, _, _, _, .minus hsign h => by
    rw [List.filterMap_cons_none (reads.symbol hsign), h.leaves reads, reads.nodes_negation]
  | _, _, _, _, .plus hsign h => by
    rw [List.filterMap_cons_none (reads.symbol hsign), h.leaves reads]
  | _, _, _, _, .literal hkind hvalue => ReadsLeaves.filterMap_leaf (reads.literal hkind hvalue) _
  | _, _, _, _, .var hkind => ReadsLeaves.filterMap_leaf (reads.var hkind) _
  | _, _, _, _, .constant hname _ _ => by
    rw [List.filterMap_cons_none (reads.kind (.inl hname)), Expr.nodes,
      List.filterMap_cons_none (reads.constant _ _), List.filterMap_nil, List.nil_append]
  | _, _, _, _, .call hname hopening _ _ h => by
    rw [List.filterMap_cons_none (reads.kind (.inl hname)),
      List.filterMap_cons_none (reads.symbol hopening), leaves_arguments reads h, reads.nodes_call]
  | _, _, _, _, .callEmpty hname hopening hclosing _ _ => by
    rw [List.filterMap_cons_none (reads.kind (.inl hname)),
      List.filterMap_cons_none (reads.symbol hopening),
      List.filterMap_cons_none (reads.symbol hclosing), reads.nodes_call]
    rfl
  | _, _, _, _, .group hopening hclosing h => by
    rw [List.filterMap_cons_none (reads.symbol hopening), h.leaves reads,
      List.filterMap_cons_none (reads.symbol hclosing)]

theorem leaves_arguments (reads : ReadsLeaves ofToken ofNode) :
    ∀ {tokens rest : List Token} {es : List Expr}, DerivesArguments registry tokens rest es →
      tokens.filterMap ofToken =
        (Expr.nodesAll es).filterMap ofNode ++ rest.filterMap ofToken
  | _, _, _, .last hclosing h => by
    rw [h.leaves reads, List.filterMap_cons_none (reads.symbol hclosing), Expr.nodesAll,
      Expr.nodesAll, List.append_nil]
  | _, _, _, .more hcomma h hes => by
    rw [h.leaves reads, List.filterMap_cons_none (reads.kind (.inr hcomma)),
      leaves_arguments reads hes, Expr.nodesAll, List.filterMap_append, List.append_assoc]

end

end Derives

/-! ## 3. Literals -/

/-- The text of a literal. -/
def Token.literalText? (token : Token) : Option String :=
  if token.kind = .literal then some token.text else none

/-- The digits of a number; the zero of a negation has none. -/
def Expr.literalText? : Expr → Option String
  | number _ text => if text = "" then none else some text
  | constant _ _ | var _ | binary _ _ _ | call _ _ => none

/-- The literals of a tree, from left to right. -/
def Expr.literals (e : Expr) : List String := e.nodes.filterMap literalText?

theorem readsLeaves_literalText : ReadsLeaves Token.literalText? Expr.literalText? where
  other hliteral _ := if_neg hliteral
  literal := by
    intro token value hkind hvalue
    have htext : token.text ≠ "" := by
      intro hempty
      rw [hempty] at hvalue
      cases hvalue
    rw [Token.literalText?, if_pos hkind, Expr.literalText?, if_neg htext]
  var hkind := if_neg (by simp [hkind])
  zero := rfl
  constant _ _ := rfl
  binary _ _ _ := rfl
  call _ _ := rfl

/-- **The literals of a source are those of its tree**, in the same order. -/
theorem Expr.literals_of_source {registry : Registry} {source : String} {e : Expr}
    (h : ofSource registry source = .ok e) :
    ∃ tokens, Token.ofSource source = .ok tokens ∧
      tokens.filterMap Token.literalText? = e.literals := by
  obtain ⟨tokens, htokens, hderives⟩ := Grammar.ofSource_iff_derives.1 h
  have hleaves := hderives.leaves readsLeaves_literalText
  rw [List.filterMap_nil, List.append_nil] at hleaves
  exact ⟨tokens, htokens, hleaves⟩

end Formula
