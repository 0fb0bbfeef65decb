import Formula.Latex
import Formula.Proofs.Grammar.Soundness

/-!
# Operands without brackets

Where an operand of an operator needs no brackets. The typesetter asks whether the operand is looser than
the operator (`Latex.isLooser`), the grammar asks for a phrase that is tight enough; here both are
told by one number, `Operator.operandPrecedence`.

* `Latex.level_of_not_needsBrackets`: an operand that gets no brackets is as tight as that number.
* `Derives.operated`: two phrases that are as tight as that number make a phrase of the operator's own
  precedence.
-/

namespace Formula

/-! ## 1. The precedence of operands -/

/-- The weakest precedence that an operand may have without brackets on a side of an operator. -/
def Operator.operandPrecedence (op : Operator) (side : Side) : Nat :=
  if side = op.grouping then op.precedence else op.precedence + 1

theorem Operator.operandPrecedence_sides (op : Operator) :
    op.operandPrecedence .right = op.rightPrecedence ∧
      op.operandPrecedence .left + op.rightPrecedence = 2 * op.precedence + 1 := by
  unfold Operator.operandPrecedence Operator.rightPrecedence
  cases op.grouping with
  | left => exact ⟨rfl, by simp only [if_true]; omega⟩
  | right => exact ⟨rfl, by simp only [reduceCtorEq, if_false]; omega⟩

/-- How tightly the parts of a tree are bound. A tree without an operator at its root is tighter
    than all that have one. -/
def Expr.level : Expr → Nat
  | .binary symbol _ _ =>
    match Operator.find? symbol with
    | some op => op.precedence
    | none => 62
  | .number _ _ | .constant _ _ | .var _ | .call _ _ => 62

namespace Latex

/-- An operator is not looser than another one if it may be its operand without brackets. -/
theorem isLooser_eq_false_iff {parent child : Operator} {side : Side} :
    isLooser parent child side = false ↔ parent.operandPrecedence side ≤ child.precedence := by
  unfold isLooser Operator.operandPrecedence
  by_cases hside : side = parent.grouping
  · simp [hside]
  · have hother : (side != parent.grouping) = true := by simp [hside]
    simp only [hside, hother, if_false, Bool.and_true, Bool.or_eq_false_iff, decide_eq_false_iff_not,
      beq_eq_false_iff_ne]
    omega

theorem precedence_le {op : Operator} (h : op ∈ Operator.table) : op.precedence ≤ 62 := by
  cases Operator.hasLevel h with
  | sum hprecedence | product hprecedence | power hprecedence =>
    rw [hprecedence]
    decide

theorem operandPrecedence_le {op : Operator} (h : op ∈ Operator.table) (side : Side) :
    op.operandPrecedence side ≤ 62 := by
  unfold Operator.operandPrecedence
  cases Operator.hasLevel h with
  | sum hprecedence | product hprecedence | power hprecedence =>
    rw [hprecedence]
    split <;> decide

/-- **An operand that would need no brackets, if the operator had no boxes, is tight enough.** -/
theorem level_of_not_needsBrackets {op : Operator} (hop : op ∈ Operator.table) {side : Side}
    {e : Expr} (h : needsBrackets { op with delimits := false } side e = false) :
    op.operandPrecedence side ≤ e.level := by
  cases e with
  | number | constant | var | call => exact operandPrecedence_le hop side
  | binary symbol left right =>
    rw [needsBrackets] at h
    rw [Expr.level]
    cases hfind : Operator.find? symbol with
    | none => exact operandPrecedence_le hop side
    | some child =>
      rw [hfind] at h
      exact isLooser_eq_false_iff.1 h

end Latex

/-! ## 2. Phrases around an operator -/

namespace Derives

variable {registry : Registry} {p q : Phrase} {tokens middle rest : List Token} {l r : Expr}

/-- **Two phrases that are tight enough make a phrase of the operator between them.** -/
theorem operated {symbol : Char} {op : Operator} {token : Token}
    (hop : Operator.find? symbol = some op) (htoken : token.isSymbol symbol = true)
    (hl : Derives registry p tokens (token :: middle) l)
    (hp : op.operandPrecedence .left ≤ p.level)
    (hr : Derives registry q middle rest r) (hq : op.operandPrecedence .right ≤ q.level) :
    ∃ s : Phrase, op.precedence ≤ s.level ∧
      Derives registry s tokens rest (.binary symbol l r) := by
  obtain ⟨hright, hsum⟩ := op.operandPrecedence_sides
  rw [hright] at hq
  rw [← Operator.find?_symbol hop] at htoken ⊢
  cases Operator.hasLevel (Operator.find?_mem hop) with
  | sum hprecedence hlevel hsymbol =>
    have hproduct : 21 ≤ q.level := by omega
    refine ⟨.sum, Nat.le_of_eq hprecedence, .add hsymbol htoken hl.toSum ?_⟩
    exact hr.toProduct (Phrase.product_of_level hproduct)
  | product hprecedence hlevel hsymbol =>
    have hproduct : 40 ≤ p.level := by omega
    have hpower : 41 ≤ q.level := by omega
    refine ⟨.product, Nat.le_of_eq hprecedence, .multiply hsymbol htoken (hl.toProduct hproduct) ?_⟩
    exact hr.toPower (Phrase.power_of_level hpower)
  | power hprecedence hlevel hsymbol =>
    have hsigned : 61 ≤ p.level := by omega
    have hpower : 60 ≤ q.level := by omega
    rw [hsymbol] at htoken ⊢
    exact ⟨.power, Nat.le_of_eq hprecedence, .raise htoken (hl.toSigned hsigned) (hr.toPower hpower)⟩

end Derives

end Formula
