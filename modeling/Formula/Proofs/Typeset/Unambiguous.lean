import Formula.Proofs.Registry.Growth
import Formula.Proofs.Tree.Basic
import Formula.Proofs.Typeset.ReadBack

/-!
# The typeset form is unambiguous

The trees of two sources that are typeset alike have the same operators, calls and negations in the
same places; they differ in their leaves only, and there in nothing that is typeset (`Alike`). This is
about the builtin functions except `noerr`, whose calls are typeset as nothing, and `sum`, whose body
has no brackets, and about variables that are named by a letter or a digit.

* `outline` puts a variable for each leaf, named by the typeset form of the leaf.
* `Plain.readsBack`: the typeset form of a tree is read back as the outline of the tree. The induction is
  on the tree, with the level of its root as the tightness of what is read.
* `ofExpr_unambiguous` is the main statement: what is typeset alike has one outline, since a text is
  read back as one tree only.
-/

namespace Formula.Latex

/-! ## 1. Trees without their leaves -/

/-- Whether a tree is a number, a constant or a variable. -/
def isLeaf : Expr → Bool
  | .number _ _ | .constant _ _ | .var _ => true
  | .binary _ _ _ | .call _ _ => false

/-- Two trees are one tree up to leaves that are typeset alike. The zero of a negation is typeset as
    nothing, so it is no leaf in this sense, and a negation is like a negation only. -/
inductive Alike (registry : Registry) : Expr → Expr → Prop
  | leaf {e f : Expr} (he : isLeaf e = true) (hf : isLeaf f = true)
      (htext : ofExpr registry e = ofExpr registry f) (hne : ofExpr registry e ≠ "") :
      Alike registry e f
  | negation {e f : Expr} : Alike registry e f → Alike registry (.negation e) (.negation f)
  | binary {symbol : Char} {l r l' r' : Expr} :
      Alike registry l l' → Alike registry r r' →
      Alike registry (.binary symbol l r) (.binary symbol l' r')
  | call {name : String} {es fs : List Expr} :
      List.Forall₂ (Alike registry) es fs → Alike registry (.call name es) (.call name fs)

mutual

/-- The tree with a variable for each leaf, named by the typeset form of the leaf. -/
def outline : Expr → Expr
  | .binary symbol left right => .binary symbol (outline left) (outline right)
  | .call name arguments => .call name (outlines arguments)
  | .number value text => .var (ofExpr .standard (.number value text))
  | .constant name value => .var (ofExpr .standard (.constant name value))
  | .var name => .var (ofExpr .standard (.var name))

/-- The outline of each argument. -/
def outlines : List Expr → List Expr
  | [] => []
  | e :: rest => outline e :: outlines rest

end

theorem outline_leaf {e : Expr} (h : isLeaf e = true) : outline e = .var (ofExpr .standard e) := by
  cases e with
  | number | constant | var => rw [outline]
  | binary | call => cases h

theorem outline_binary (symbol : Char) (left right : Expr) :
    outline (.binary symbol left right) = .binary symbol (outline left) (outline right) := by
  rw [outline]

theorem outline_negation (operand : Expr) :
    outline (.negation operand) = .binary '-' (.var "") (outline operand) := by
  rw [Expr.negation, outline_binary, outline_leaf rfl, ofExpr]

theorem outlines_eq_map (es : List Expr) : outlines es = es.map outline := by
  induction es with
  | nil => rw [outlines, List.map_nil]
  | cons e es ih => rw [outlines, ih, List.map_cons]

theorem outline_call (name : String) (arguments : List Expr) :
    outline (.call name arguments) = .call name (arguments.map outline) := by
  rw [outline, outlines_eq_map]

/-! ## 2. Trees that can be read back -/

/-- A letter or a digit, perhaps under the sigil that stays in the name of a variable. -/
def IsPlainName (name : String) : Prop :=
  ∃ c : Char, c.isAlphanum = true ∧ (name = String.ofList [c] ∨ name = String.ofList ['#', c])

/-- The trees whose typeset form can be read back. -/
inductive Plain : Expr → Prop
  | leaf {e : Expr} (he : isLeaf e = true)
      (h : ReadsBack 62 (ofExpr .standard e) (.var (ofExpr .standard e))) : Plain e
  | negation {operand : Expr} : Plain operand → Plain (.negation operand)
  | binary {symbol : Char} {op : Operator} {left right : Expr}
      (hop : Operator.find? symbol = some op) :
      Plain left → Plain right → Plain (.binary symbol left right)
  | call {name : String} {function : Function} {arguments : List Expr}
      (hfunction : Registry.standard.function? name = some function)
      (harity : function.arity.accepts arguments.length = true) (hstyle : CallStyle name function) :
      (∀ a ∈ arguments, Plain a) → Plain (.call name arguments)

namespace Plain

theorem number {value : Float} {text : String} (h : Token.IsLiteralText text) :
    Plain (.number value text) := by
  refine .leaf rfl ?_
  obtain ⟨d, more, htext, hd, hmore⟩ := h.shape
  rw [ofExpr]
  exact .run htext (by simp [Char.isAlphanum, hd]) hmore

theorem constant {name : String} {found : Constant}
    (h : Registry.standard.constant? name = some found) : Plain (.constant name found.value) := by
  refine .leaf rfl ?_
  have hdisplay : ofExpr .standard (.constant name found.value) = found.display := by rw [ofExpr, h]
  rw [hdisplay]
  have hmem := Registry.mem_of_lookup? h
  simp only [Registry.standard, Registry.standardConstants, List.mem_cons, List.not_mem_nil,
    or_false, Prod.mk.injEq] at hmem
  rcases hmem with ⟨-, rfl⟩ | ⟨-, rfl⟩ | ⟨-, rfl⟩
  · exact .command (mem_signs (by decide))
  · exact .run rfl rfl (List.forall_mem_nil _)
  · exact .command (mem_signs (by decide))

theorem var {name : String} (h : IsPlainName name) : Plain (.var name) := by
  refine .leaf rfl ?_
  obtain ⟨c, hc, hname⟩ := h
  have hne : c ≠ '#' := by
    rintro rfl
    cases hc
  have htext : ofExpr .standard (.var name) = String.ofList [c] := by
    rw [ofExpr, withoutSigil]
    rcases hname with rfl | rfl <;> simp [hne]
  rw [htext]
  exact .run String.toList_ofList hc (List.forall_mem_nil _)

/-- **Trees of sources can be read back**, without `noerr` and `sum` and with plain names. -/
theorem of_written {e : Expr} (h : Expr.Written .standard e)
    (hcallees : ∀ name ∈ e.callees, name ∉ ["noerr", "sum"])
    (hvariables : ∀ name ∈ e.variableNames, IsPlainName name) : Plain e := by
  induction h with
  | number htext => exact .number htext
  | constant hfound => exact .constant hfound
  | var name => exact .var (hvariables name List.mem_cons_self)
  | negation _ ih =>
    rw [Expr.negation, Expr.forall_callees_binary] at hcallees
    rw [Expr.negation, Expr.forall_variableNames_binary] at hvariables
    exact .negation (ih hcallees.2 hvariables.2)
  | binary hop _ _ ihleft ihright =>
    rw [Expr.forall_callees_binary] at hcallees
    rw [Expr.forall_variableNames_binary] at hvariables
    exact .binary hop (ihleft hcallees.1 hvariables.1) (ihright hcallees.2 hvariables.2)
  | call hfunction harity _ ih =>
    rw [Expr.forall_callees_call] at hcallees
    rw [Expr.forall_variableNames_call] at hvariables
    have hstyle := callStyle (Registry.mem_of_lookup? hfunction) hcallees.1
    exact .call hfunction harity hstyle fun a ha => ih a ha (hcallees.2 a ha) (hvariables a ha)

end Plain

/-! ## 3. Reading back -/

/-- A negation shows its sign and its operand. -/
theorem ofExpr_negation (registry : Registry) (operand : Expr) :
    ∃ op, Operator.find? '-' = some op ∧ ofExpr registry (.negation operand) =
      "-" ++ Latex.operand op .right operand (ofExpr registry operand) := by
  refine ⟨_, rfl, ?_⟩
  rw [Expr.negation, ofExpr]
  rfl

theorem ofExpr_call {registry : Registry} {name : String} {function : Function} {form : Form}
    {arguments : List Expr} (hfunction : registry.function? name = some function)
    (harity : function.arity.accepts arguments.length = true) (hform : function.form = some form) :
    ofExpr registry (.call name arguments) = ofCall registry form arguments := by
  rw [ofExpr, hfunction]
  dsimp only
  rw [if_pos harity, hform, ofCall]

theorem ofExpr_call_row {registry : Registry} {name : String} {function : Function} {row : Row}
    {arguments : List Expr} (hfunction : registry.function? name = some function)
    (harity : function.arity.accepts arguments.length = true)
    (hform : function.form = some row.form) :
    ofExpr registry (.call name arguments) =
      Piece.join (arguments.map (ofExpr registry)) (row arguments) := by
  rw [ofExpr_call hfunction harity hform, ofCall_of_row rfl]

/-- A command stands before its arguments in brackets. -/
theorem join_applied (command : String) (arguments : List Expr) (text : Expr → String) :
    Piece.join (arguments.map text) (Row.applied command arguments) =
      command ++ "\\left(" ++ Piece.row ", " (arguments.map text) ++ "\\right)" := by
  have hrow := Piece.join_separated ", " [] (arguments.map text)
  rw [List.length_map, List.nil_append, List.length_nil] at hrow
  rw [Row.applied, List.cons_append, Piece.join, Piece.join_append, hrow, ← String.append_assoc]
  simp [Piece.join]

/-- **The typeset form of a tree is read back as its outline.** -/
theorem Plain.readsBack {e : Expr} (h : Plain e) :
    ReadsBack e.level (ofExpr .standard e) (outline e) := by
  induction h with
  | @leaf e he h =>
    rw [outline_leaf he]
    cases e with
    | number | constant | var => exact h
    | binary | call => cases he
  | @negation operand _ ih =>
    obtain ⟨op, hop, htext⟩ := ofExpr_negation .standard operand
    rw [htext, outline_negation, Expr.negation, Expr.level, hop]
    exact .negation hop ih
  | @binary symbol op left right hop _ _ ihleft ihright =>
    rw [Expr.level, hop, ofExpr, hop, outline_binary]
    exact .binary hop ihleft ihright
  | @call name function arguments hfunction harity hstyle _ ih =>
    rw [Expr.level, outline_call]
    have hread {a : Expr} (ha : a ∈ arguments) :
        ReadsBack 0 (ofExpr .standard a) (outline a) := (ih a ha).mono (Nat.zero_le _)
    cases hstyle with
    | @applied _ command _ hname hform =>
      rw [ofExpr_call_row hfunction harity hform, join_applied]
      have hall : List.Forall₂ (ReadsBack 0) (arguments.map (ofExpr .standard))
          (arguments.map outline) := by
        rw [List.forall₂_map_left_iff, List.forall₂_map_right_iff, List.forall₂_same]
        exact fun a ha => hread ha
      exact .applied hname hfunction (by rw [List.length_map]; exact harity) hall
    | @delimited _ opening closing _ hname hcount hform =>
      have hlength : arguments.length = 1 := by simpa [hcount] using harity
      obtain ⟨a, rfl⟩ := List.length_eq_one_iff.1 hlength
      have htext : ofExpr .standard (.call name [a]) =
          opening ++ ofExpr .standard a ++ closing := by
        rw [ofExpr_call_row hfunction harity hform]
        simp [Row.delimited, Piece.join, String.append_assoc]
      rw [htext]
      exact .delimited hname hfunction harity (hread List.mem_cons_self)
    | logarithm hcount hform =>
      have hlength : arguments.length = 2 := by simpa [hcount] using harity
      obtain ⟨base, a, rfl⟩ := List.length_eq_two.1 hlength
      have htext : ofExpr .standard (.call "log" [base, a]) =
          "\\log_\x7b" ++ ofExpr .standard base ++ "\x7d\\left(" ++ ofExpr .standard a ++
            "\\right)" := by
        rw [ofExpr_call_row hfunction harity hform]
        simp [Builtin.logarithmRow, Piece.join, String.append_assoc]
      rw [htext]
      exact .logarithm hfunction harity (hread List.mem_cons_self)
        (hread (List.mem_cons_of_mem _ List.mem_cons_self))

/-! ## 4. Trees that are typeset alike -/

/-- An outline without a text is that of no plain tree. -/
theorem Plain.outline_ne_zero {e : Expr} (h : Plain e) : outline e ≠ .var "" := by
  intro hzero
  cases h with
  | leaf he h => exact h.ne_empty (Expr.var.inj ((outline_leaf he).symm.trans hzero))
  | negation => cases (outline_negation _).symm.trans hzero
  | binary => cases (outline_binary _ _ _).symm.trans hzero
  | call => cases (outline_call _ _).symm.trans hzero

theorem Alike.of_outlines {es fs : List Expr}
    (h : ∀ e ∈ es, ∀ f ∈ fs, outline e = outline f → Alike .standard e f)
    (houtline : es.map outline = fs.map outline) : List.Forall₂ (Alike .standard) es fs := by
  induction es generalizing fs with
  | nil =>
    obtain rfl := List.map_eq_nil_iff.1 houtline.symm
    exact .nil
  | cons e es ih =>
    obtain ⟨f, fs, rfl, hf, hfs⟩ := List.map_eq_cons_iff.1 houtline.symm
    refine .cons (h e List.mem_cons_self f List.mem_cons_self hf.symm) (ih ?_ hfs.symm)
    exact fun a ha b hb => h a (List.mem_cons_of_mem e ha) b (List.mem_cons_of_mem f hb)

/-- **Plain trees with one outline are alike.** The kind of a tree is seen in its outline: only leaves
    become variables, and only a negation has one without a text on the left. -/
theorem Alike.of_outline {e f : Expr} (he : Plain e) (hf : Plain f)
    (h : outline e = outline f) : Alike .standard e f := by
  induction he generalizing f with
  | leaf he hread =>
    rw [outline_leaf he] at h
    cases hf with
    | leaf hf =>
      rw [outline_leaf hf] at h
      exact .leaf he hf (Expr.var.inj h) hread.ne_empty
    | negation => cases h.trans (outline_negation _)
    | binary => cases h.trans (outline_binary _ _ _)
    | call => cases h.trans (outline_call _ _)
  | negation _ ih =>
    rw [outline_negation] at h
    cases hf with
    | leaf hf => cases h.trans (outline_leaf hf)
    | negation hoperand =>
      rw [outline_negation] at h
      exact .negation (ih hoperand (Expr.binary.inj h).2.2)
    | binary _ hl =>
      rw [outline_binary] at h
      exact absurd (Expr.binary.inj h).2.1.symm hl.outline_ne_zero
    | call => cases h.trans (outline_call _ _)
  | @binary symbol _ _ _ _ hl _ ihl ihr =>
    rw [outline_binary] at h
    cases hf with
    | leaf hf => cases h.trans (outline_leaf hf)
    | negation =>
      rw [outline_negation] at h
      exact absurd (Expr.binary.inj h).2.1 hl.outline_ne_zero
    | binary _ hl' hr' =>
      rw [outline_binary] at h
      obtain ⟨rfl, hleft, hright⟩ := Expr.binary.inj h
      exact .binary (ihl hl' hleft) (ihr hr' hright)
    | call => cases h.trans (outline_call _ _)
  | call _ _ _ _ ih =>
    rw [outline_call] at h
    cases hf with
    | leaf hf => cases h.trans (outline_leaf hf)
    | negation => cases h.trans (outline_negation _)
    | binary => cases h.trans (outline_binary _ _ _)
    | call _ _ _ harguments =>
      rw [outline_call] at h
      obtain ⟨rfl, houtlines⟩ := Expr.call.inj h
      exact .call (of_outlines (fun a ha b hb => ih a ha (harguments b hb)) houtlines)

/-- **The typeset form is unambiguous.** Two sources whose trees are typeset alike have one tree, up to
    leaves that are typeset alike. -/
theorem ofExpr_unambiguous {source other : String} {e f : Expr}
    (he : Expr.ofSource .standard source = .ok e) (hf : Expr.ofSource .standard other = .ok f)
    (hcallees : ∀ name ∈ e.callees ++ f.callees, name ∉ ["noerr", "sum"])
    (hvariables : ∀ name ∈ e.variableNames ++ f.variableNames, IsPlainName name)
    (h : ofExpr .standard e = ofExpr .standard f) : Alike .standard e f := by
  rw [List.forall_mem_append] at hcallees hvariables
  have hplain := Plain.of_written (.of_source he) hcallees.1 hvariables.1
  have hplain' := Plain.of_written (.of_source hf) hcallees.2 hvariables.2
  have hread := hplain.readsBack
  rw [h] at hread
  exact .of_outline hplain hplain' (hread.unique hplain'.readsBack)

/-- The tree of `-sin(#x)^2` or of `-sin($x)^$2`. -/
def signedSquare (name : String) (exponent : Expr) : Expr :=
  .binary '^' (.negation (.call "sin" [.var name])) exponent

/-- The tokens of `-sin(#x)^2` or of `-sin($x)^$2`. -/
def signedSquareTokens (name exponent : String) (kind : Token.Kind) : List Token :=
  [⟨"-", .operator, 0⟩, ⟨"sin", .identifier, 1⟩, ⟨"(", .operator, 4⟩, ⟨name, .var, 5⟩,
    ⟨")", .operator, 7⟩, ⟨"^", .operator, 8⟩, ⟨exponent, kind, 9⟩]

theorem derives_signedSquare {name exponent : String} {kind : Token.Kind} {e : Expr}
    (h : Derives .standard .primary [⟨exponent, kind, 9⟩] [] e) :
    Derives .standard .sum (signedSquareTokens name exponent kind) []
      (signedSquare (Expr.variableName name) e) := by
  have hvar : Derives .standard .sum ((signedSquareTokens name exponent kind).drop 3)
      ((signedSquareTokens name exponent kind).drop 4) (.var (Expr.variableName name)) :=
    Derives.toSum (.var rfl)
  have hsin : Derives .standard .signed (signedSquareTokens name exponent kind)
      ((signedSquareTokens name exponent kind).drop 5) (.negation (.call "sin" [.var _])) :=
    .minus rfl (.primary (.call rfl rfl rfl rfl (.last rfl hvar)))
  exact .product (.power (.raise rfl hsin (.signed (.primary h))))

/-- The number two, as it is written. -/
def writtenTwo : Expr := .number (Double.ofCode false (Decimal.code ⟨2, 0⟩)) "2"

/-- A name under another sigil and a name in place of a number, in two sources that are typeset alike. -/
theorem ofExpr_unambiguous_signedSquare :
    Expr.ofSource .standard "-sin(#x)^2" = .ok (signedSquare "#x" writtenTwo) ∧
      Expr.ofSource .standard "-sin($x)^$2" = .ok (signedSquare "x" (.var "2")) ∧
      ofExpr .standard (signedSquare "x" (.var "2")) =
        "\x7b\\left(-\\sin\\left(x\\right)\\right)\x7d^\x7b2\x7d" ∧
      Alike .standard (signedSquare "#x" writtenTwo) (signedSquare "x" (.var "2")) := by
  have htokens : Token.ofSource "-sin(#x)^2" = .ok (signedSquareTokens "#x" "2" .literal) := by
    simp +decide [Token.ofSource, Token.scan, Token.lexeme?, Token.ofLexeme, Token.splitExponent,
      Source.width, signedSquareTokens]
  have htokens' : Token.ofSource "-sin($x)^$2" = .ok (signedSquareTokens "$x" "$2" .var) := by
    simp +decide [Token.ofSource, Token.scan, Token.lexeme?, Token.ofLexeme, Source.width,
      signedSquareTokens]
  have he := Grammar.ofSource_iff_derives.2 ⟨_, htokens, derives_signedSquare (.literal rfl rfl)⟩
  have hf := Grammar.ofSource_iff_derives.2 ⟨_, htokens', derives_signedSquare (.var rfl)⟩
  have hnames : ∀ name ∈ ["#x", "x", "2"], IsPlainName name := by
    simp only [List.forall_mem_cons]
    exact ⟨⟨'x', rfl, .inr rfl⟩, ⟨'x', rfl, .inl rfl⟩, ⟨'2', rfl, .inl rfl⟩, List.forall_mem_nil _⟩
  exact ⟨he, hf, rfl, ofExpr_unambiguous he hf (by decide) hnames rfl⟩

end Formula.Latex
