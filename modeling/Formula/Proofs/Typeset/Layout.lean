import Formula.Proofs.Typeset.Unambiguous

/-!
# How each formula is laid out

A typeset formula is a row of pieces: fixed texts and the typeset forms of the formulas right below it
(`parts`). Which pieces these are depends on the root and a little on the parts (`layout`): on the operators
at their roots, for the brackets, and on whether the left operand of a subtraction shows anything.

* `ofExpr_eq_join`: typesetting joins the pieces of the layout. What is proved of all rows of pieces is so
  proved of operators and of calls at once.
* `Shows`: a row with a fixed text that is not empty. The layout of an operator shows something, and so
  does a call of a builtin function, except for `noerr` and for a sum that is given another number of
  arguments than two or three (`layout_shows`).
-/

namespace Formula

namespace Latex

/-! ## 1. Pieces of operators -/

/-- An operand with its number, in brackets or not. -/
def operandPieces (index : Nat) (brackets : Bool) : List Piece :=
  if brackets then [.text "\\left(", .argument index, .text "\\right)"] else [.argument index]

/-- An operator around its operands. A subtraction shows only its sign if its left operand is bare. -/
def operatorPieces (symbol : Char) (bare : Bool) (left right : List Piece) : List Piece :=
  match symbol with
  | '-' => left ++ .text (if bare then "-" else " - ") :: right
  | '*' => left ++ .text " \\cdot " :: right
  | '%' => left ++ .text " \\bmod " :: right
  | '/' => .text "\\frac\x7b" :: left ++ .text "\x7d\x7b" :: right ++ [.text "\x7d"]
  | '^' => .text "\x7b" :: left ++ .text "\x7d^\x7b" :: right ++ [.text "\x7d"]
  | _ => left ++ .text " + " :: right

theorem join_operandPieces {texts : List String} {index : Nat} {text : String}
    (h : texts[index]?.getD "" = text) (op : Operator) (side : Side) (e : Expr) :
    Piece.join texts (operandPieces index (needsBrackets op side e)) = operand op side e text := by
  unfold operandPieces operand
  split
  · simp [Piece.join, h, bracketed, String.append_assoc]
  · simp [Piece.join, h]

/-- **An operator is typeset as its pieces.** -/
theorem join_operatorPieces {op : Operator} (h : op ∈ Operator.table) (texts : List String)
    (left right : List Piece) :
    Piece.join texts
        (operatorPieces op.symbol (Piece.join texts left).isEmpty left right) =
      op.typeset (Piece.join texts left) (Piece.join texts right) := by
  simp only [Operator.table, List.mem_cons, List.not_mem_nil, or_false] at h
  rcases h with rfl | rfl | rfl | rfl | rfl | rfl
  · simp [operatorPieces, Piece.join_append, Piece.join, String.append_assoc]
  · by_cases hbare : Piece.join texts left = ""
    · simp [operatorPieces, Piece.join_append, Piece.join, Operator.typesetSubtraction, hbare]
    · simp [operatorPieces, Piece.join_append, Piece.join, Operator.typesetSubtraction, hbare,
        String.append_assoc]
  all_goals simp [operatorPieces, Piece.join_append, Piece.join, String.append_assoc]

/-! ## 2. Pieces of formulas -/

/-- The pieces of a call: those of its row, or one text where the form typesets step by step. -/
def callPieces (registry : Registry) (form : Form) (arguments : List Expr) : List Piece :=
  match form arguments with
  | .row pieces => pieces
  | .typeset _ _ => [.text (ofCall registry form arguments)]

theorem ofCall_eq_join (registry : Registry) (form : Form) (arguments : List Expr) :
    ofCall registry form arguments =
      Piece.join (arguments.map (ofExpr registry)) (callPieces registry form arguments) := by
  unfold callPieces
  split
  · rename_i pieces hrow
    exact ofCall_of_row hrow
  · simp [Piece.join]

/-- The pieces of a formula around its parts. -/
def layout (registry : Registry) : Expr → List Piece
  | .number _ text => [.text text]
  | .constant name _ =>
    match registry.constant? name with
    | some found => [.text found.display]
    | none => [.text name]
  | .var name => [.text (withoutSigil name)]
  | .binary symbol left right =>
    match Operator.find? symbol with
    | none => []
    | some op =>
      operatorPieces symbol (operand op .left left (ofExpr registry left)).isEmpty
        (operandPieces 0 (needsBrackets op .left left))
        (operandPieces 1 (needsBrackets op .right right))
  | .call name arguments =>
    match registry.function? name with
    | none => []
    | some function =>
      if function.arity.accepts arguments.length then
        match function.form with
        | none => []
        | some form => callPieces registry form arguments
      else []

/-- **A formula is typeset as its pieces, put together.** -/
theorem ofExpr_eq_join (registry : Registry) (e : Expr) :
    ofExpr registry e = Piece.join (e.parts.map (ofExpr registry)) (layout registry e) := by
  cases e with
  | number | var => simp [ofExpr, layout, Piece.join]
  | constant name value =>
    rw [ofExpr, layout]
    cases registry.constant? name <;> simp [Piece.join]
  | binary symbol left right =>
    rw [ofExpr, layout]
    cases hop : Operator.find? symbol with
    | none => rfl
    | some op =>
      have hleft := @join_operandPieces [ofExpr registry left, ofExpr registry right]
        0 _ rfl op .left left
      have hright := @join_operandPieces [ofExpr registry left, ofExpr registry right]
        1 _ rfl op .right right
      have hjoin := join_operatorPieces (Operator.find?_mem hop)
        [ofExpr registry left, ofExpr registry right]
        (operandPieces 0 (needsBrackets op .left left))
        (operandPieces 1 (needsBrackets op .right right))
      rw [hleft, hright, Operator.find?_symbol hop] at hjoin
      exact hjoin.symm
  | call name arguments =>
    rw [ofExpr, layout, Expr.parts]
    cases registry.function? name with
    | none => rfl
    | some function =>
      dsimp only
      split
      · cases function.form with
        | none => rfl
        | some form => exact ofCall_eq_join registry form arguments
      · rfl

theorem CallStyle.row {name : String} {function : Function} (h : CallStyle name function) :
    ∃ row : Row, function.form = some row.form := by
  cases h with
  | applied _ hform | delimited _ _ hform | logarithm _ hform => exact ⟨_, hform⟩

/-- A function has one row. -/
theorem row_unique {function : Function} {row other : Row} (h : function.form = some row.form)
    (hother : function.form = some other.form) : row = other :=
  Row.form_injective (Option.some.inj (h.symm.trans hother))

section Builtin

variable {registry : Registry} (hregistry : registry.Reachable) {name : String}
  (hname : name ∈ Builtin.names) {function : Function}
  (hfunction : registry.function? name = some function)

include hregistry hname hfunction

/-- A builtin function has no form, the form of a sum or a form in one of three styles. -/
theorem builtin_cases :
    (name = "noerr" ∧ function.form = none) ∨ (name = "sum" ∧ function.form = some Sum.row.form) ∨
      CallStyle name function := by
  by_cases hnoerr : name = "noerr"
  · subst hnoerr
    obtain rfl := Option.some.inj (hfunction.symm.trans hregistry.noerr)
    exact .inl ⟨rfl, rfl⟩
  by_cases hsum : name = "sum"
  · subst hsum
    obtain rfl := Option.some.inj (hfunction.symm.trans hregistry.sum)
    exact .inr (.inl ⟨rfl, rfl⟩)
  · obtain ⟨builtin, hbuiltin, htable⟩ := hregistry.builtin hname
    obtain rfl := Option.some.inj (hfunction.symm.trans hbuiltin)
    exact .inr (.inr (callStyle htable (by simp [hnoerr, hsum])))

/-- The form of a builtin function is a row. -/
theorem form_cases {form : Form} (hform : function.form = some form) :
    ∃ row : Row, form = row.form ∧ ((name = "sum" ∧ row = Sum.row) ∨ CallStyle name function) := by
  rcases builtin_cases hregistry hname hfunction with ⟨_, hnone⟩ | ⟨hsum, hsome⟩ | hstyle
  · rw [hform] at hnone
    cases hnone
  · exact ⟨Sum.row, Option.some.inj (hform.symm.trans hsome), .inl ⟨hsum, rfl⟩⟩
  · obtain ⟨row, hrow⟩ := hstyle.row
    exact ⟨row, Option.some.inj (hform.symm.trans hrow), .inr hstyle⟩

end Builtin

/-- The symbols of the operators. -/
theorem symbol_mem {op : Operator} (h : op ∈ Operator.table) :
    op.symbol ∈ ['+', '-', '*', '/', '%', '^'] := by
  simp only [Operator.table, List.mem_cons, List.not_mem_nil, or_false] at h
  rcases h with rfl | rfl | rfl | rfl | rfl | rfl <;> decide

/-! ## 3. Formulas that show something -/

/-- A row of pieces with a fixed text that is not empty. -/
def Shows (pieces : List Piece) : Prop := ∃ text, text ≠ "" ∧ Piece.text text ∈ pieces

theorem Shows.join_ne_empty {pieces : List Piece} (h : Shows pieces) (texts : List String) :
    Piece.join texts pieces ≠ "" := by
  obtain ⟨text, hne, hmem⟩ := h
  induction pieces with
  | nil => cases hmem
  | cons piece pieces ih =>
    rcases List.mem_cons.1 hmem with rfl | hrest
    · rw [Piece.join]
      exact fun hempty => hne (String.append_eq_empty_iff.1 hempty).1
    · cases piece <;> rw [Piece.join] <;>
        exact fun hempty => ih hrest (String.append_eq_empty_iff.1 hempty).2

theorem operatorPieces_shows (symbol : Char) (bare : Bool) (left right : List Piece) :
    Shows (operatorPieces symbol bare left right) := by
  unfold operatorPieces
  split
  · exact ⟨_, by split <;> decide, List.mem_append_right _ List.mem_cons_self⟩
  · exact ⟨_, by decide, List.mem_append_right _ List.mem_cons_self⟩
  · exact ⟨_, by decide, List.mem_append_right _ List.mem_cons_self⟩
  · exact ⟨_, by decide, List.mem_cons_self⟩
  · exact ⟨_, by decide, List.mem_cons_self⟩
  · exact ⟨_, by decide, List.mem_append_right _ List.mem_cons_self⟩

/-- **An operator always shows something.** -/
theorem ofExpr_binary_ne_empty {symbol : Char} {op : Operator}
    (hop : Operator.find? symbol = some op) (registry : Registry) (left right : Expr) :
    ofExpr registry (.binary symbol left right) ≠ "" := by
  rw [ofExpr_eq_join, layout, hop]
  exact (operatorPieces_shows _ _ _ _).join_ne_empty _

/-- A sum shows something if it has two or three arguments, and has no pieces otherwise. -/
theorem sumRow_cases (arguments : List Expr) :
    (arguments.length ∈ [2, 3] ∧ Shows (Sum.row arguments)) ∨
      (arguments.length ∉ [2, 3] ∧ Sum.row arguments = []) := by
  rcases arguments with _ | ⟨start, _ | ⟨last, _ | ⟨body, _ | ⟨a, rest⟩⟩⟩⟩
  · exact .inr ⟨by simp, rfl⟩
  · exact .inr ⟨by simp, rfl⟩
  · exact .inl ⟨by simp, _, by decide, List.mem_cons_self⟩
  · exact .inl ⟨by simp, _, by decide, List.mem_cons_self⟩
  · exact .inr ⟨by simp, rfl⟩

/-- **A call of a builtin function shows something**, unless it is one of `noerr` or `sum`. -/
theorem CallStyle.shows {name : String} {function : Function} (h : CallStyle name function)
    {row : Row} (hform : function.form = some row.form) {arguments : List Expr}
    (harity : function.arity.accepts arguments.length = true) : Shows (row arguments) := by
  cases h with
  | applied _ hstyle =>
    obtain rfl := row_unique hform hstyle
    exact ⟨_, by simp, List.mem_cons_self⟩
  | delimited hname hcount hstyle =>
    have hall : ∀ entry ∈ delimiters, entry.2.1 ≠ "" := by decide
    obtain rfl := row_unique hform hstyle
    obtain ⟨a, rfl⟩ := List.length_eq_one_iff.1 (by simpa [hcount] using harity)
    exact ⟨_, hall _ hname, List.mem_cons_self⟩
  | logarithm hcount hstyle =>
    obtain rfl := row_unique hform hstyle
    obtain ⟨base, a, rfl⟩ := List.length_eq_two.1 (by simpa [hcount] using harity)
    exact ⟨_, by decide, List.mem_cons_self⟩

end Latex

end Formula
