import Formula.Proofs.Grammar.Leaves
import Formula.Proofs.Typeset.Negation

/-!
# Literals of typeset formulas

Typesetting takes the literals of a source over as they stand, each once and in the order of the source.
All that is between them depends only on the formula with its literals blanked out.

* `Expr.blank` blanks out the literals of a tree. The zeros of negations stay without digits, so a negation
  is still told from a subtraction.
* `template` is the row of pieces that a formula is typeset as: the numbered pieces are its literals, and all
  other pieces are fixed texts. It comes about by putting the rows of the parts into the layout of a formula
  (`Piece.expand`).
* `layout_blank`: the layout of a formula does not look at literals. Brackets depend on operators, the form of
  a builtin function on the number of arguments only, and no literal is typeset as nothing.
* `Complete`: a formula whose layout shows each part once and in order. All nodes of a source are complete
  except for calls of `noerr` and malformed sums (`complete_of_written`).
* `ofExpr_literals` is the main statement.
-/

namespace Formula

/-! ## 1. Blank trees -/

namespace Expr

mutual

/-- A tree with its literals blanked out: all of them are alike, and only the zeros of negations still have no
    digits. -/
def blank : Expr → Expr
  | number _ text => number 0.0 (if text = "" then "" else "0")
  | constant name value => constant name value
  | var name => var name
  | binary symbol left right => binary symbol left.blank right.blank
  | call name arguments => call name (blankAll arguments)

/-- Arguments with their literals blanked out. -/
def blankAll : List Expr → List Expr
  | [] => []
  | e :: rest => e.blank :: blankAll rest

end

theorem blankAll_eq_map (arguments : List Expr) : blankAll arguments = arguments.map blank := by
  induction arguments with
  | nil => rw [blankAll, List.map_nil]
  | cons e rest ih => rw [blankAll, ih, List.map_cons]

/-- Whether a tree is a number. -/
def isNumber : Expr → Bool
  | number _ _ => true
  | constant _ _ | var _ | binary _ _ _ | call _ _ => false

theorem literals_binary (symbol : Char) (left right : Expr) :
    (binary symbol left right).literals = left.literals ++ right.literals :=
  readsLeaves_literalText.nodes_binary symbol left right

theorem literals_call (name : String) (arguments : List Expr) :
    (call name arguments).literals = arguments.flatMap literals := by
  rw [literals, readsLeaves_literalText.nodes_call]
  induction arguments with
  | nil => rfl
  | cons a rest ih => rw [nodesAll, List.filterMap_append, ih, List.flatMap_cons, literals]

/-- Blanking a tree out leaves all literals in their places. -/
theorem length_literals_blank (e : Expr) : e.blank.literals.length = e.literals.length := by
  induction e with
  | number value text =>
    by_cases htext : text = "" <;>
      simp [blank, literals, nodes, literalText?, htext]
  | constant | var => rfl
  | binary symbol left right ihleft ihright =>
    rw [blank, literals_binary, literals_binary, List.length_append, List.length_append, ihleft,
      ihright]
  | call name arguments ih =>
    rw [blank, literals_call, literals_call, blankAll_eq_map]
    induction arguments with
    | nil => rfl
    | cons a rest ihrest =>
      obtain ⟨ha, hrest⟩ := List.forall_mem_cons.1 ih
      rw [List.map_cons, List.flatMap_cons, List.flatMap_cons, List.length_append,
        List.length_append, ha, ihrest hrest]

end Expr

/-! ## 2. Rows in the place of arguments -/

namespace Piece

/-- Puts a row of pieces in the place of each argument. -/
def expand (rows : List (List Piece)) : List Piece → List Piece
  | [] => []
  | .text fixed :: pieces => .text fixed :: expand rows pieces
  | .argument index :: pieces => rows[index]?.getD [] ++ expand rows pieces

/-- Rows that are put in and then joined are joined and then put in. -/
theorem join_expand (texts : List String) (rows : List (List Piece)) (pieces : List Piece) :
    join texts (expand rows pieces) = join (rows.map (join texts)) pieces := by
  fun_induction expand rows pieces with
  | case1 => rfl
  | case2 fixed pieces ih => rw [join, join, ih]
  | case3 index pieces ih =>
    rw [join_append, join, ih, List.getElem?_map]
    cases rows[index]? <;> rfl

theorem argumentIndices_append (pieces more : List Piece) :
    argumentIndices (pieces ++ more) = argumentIndices pieces ++ argumentIndices more := by
  fun_induction argumentIndices pieces with
  | case1 => rfl
  | case2 fixed pieces ih => exact ih
  | case3 index pieces ih => rw [List.cons_append, argumentIndices, ih, List.cons_append]

theorem argumentIndices_expand (rows : List (List Piece)) (pieces : List Piece) :
    argumentIndices (expand rows pieces) =
      (argumentIndices pieces).flatMap fun index => argumentIndices (rows[index]?.getD []) := by
  fun_induction expand rows pieces with
  | case1 => rfl
  | case2 fixed pieces ih => exact ih
  | case3 index pieces ih => rw [argumentIndices_append, ih, argumentIndices, List.flatMap_cons]

/-- If all arguments occur once and in order, so do the rows that are put in. -/
theorem argumentIndices_expand_range {rows : List (List Piece)} {pieces : List Piece}
    (h : argumentIndices pieces = List.range rows.length) :
    argumentIndices (expand rows pieces) = rows.flatMap argumentIndices := by
  have hrows : (List.range rows.length).map (fun index => rows[index]?.getD []) = rows := by
    refine List.ext_getElem (by simp) fun index hindex _ => ?_
    simp at hindex
    simp [hindex]
  rw [argumentIndices_expand, h]
  conv_rhs => rw [← hrows]
  rw [List.flatMap_map]

theorem argumentIndices_separated (separator : String) (count index : Nat) :
    argumentIndices (separated separator count index) = List.range' index count := by
  fun_induction separated with
  | case1 => rfl
  | case2 => rfl
  | case3 count index ih =>
    rw [argumentIndices, argumentIndices, ih, ← List.range'_succ]

/-- The texts around and between the arguments of a row, behind a text in front of it. -/
def gaps (front : String) : List Piece → List String
  | [] => [front]
  | .text fixed :: pieces => gaps (front ++ fixed) pieces
  | .argument _ :: pieces => front :: gaps "" pieces

/-- Puts texts into the gaps between others. -/
def interleave : (gaps fillings : List String) → String
  | first :: gaps, filling :: fillings => first ++ filling ++ interleave gaps fillings
  | [last], [] => last
  | _, _ => ""

/-- A row with all arguments once and in order is joined by putting them into its gaps. -/
theorem join_eq_interleave {pieces : List Piece} (front : String) (before texts : List String)
    (h : argumentIndices pieces = List.range' before.length texts.length) :
    (gaps front pieces).length = texts.length + 1 ∧
      front ++ join (before ++ texts) pieces = interleave (gaps front pieces) texts := by
  fun_induction argumentIndices pieces generalizing front before texts with
  | case1 =>
    obtain rfl : texts = [] := by simpa using h.symm
    exact ⟨rfl, by simp [join, gaps, interleave]⟩
  | case2 fixed pieces ih =>
    obtain ⟨hlength, hjoin⟩ := ih (front ++ fixed) before texts h
    rw [gaps, join, ← String.append_assoc]
    exact ⟨hlength, hjoin⟩
  | case3 index pieces ih =>
    cases texts with
    | nil => cases h
    | cons filling fillings =>
      rw [List.length_cons, List.range'_succ] at h
      obtain ⟨rfl, hrest⟩ := List.cons_eq_cons.1 h
      have hbefore : (before ++ [filling]).length = before.length + 1 := by simp
      rw [← hbefore] at hrest
      obtain ⟨hlength, hjoin⟩ := ih "" (before ++ [filling]) fillings hrest
      rw [String.empty_append, List.append_assoc, List.singleton_append] at hjoin
      have hfilling : (before ++ filling :: fillings)[before.length]?.getD "" = filling := by simp
      refine ⟨by rw [gaps, List.length_cons, hlength, List.length_cons], ?_⟩
      rw [join, hfilling, hjoin, gaps, interleave, String.append_assoc]

end Piece

namespace Latex

/-! ## 3. Layouts of blank trees -/

theorem needsBrackets_blank (op : Operator) (side : Side) (e : Expr) :
    needsBrackets op side e.blank = needsBrackets op side e := by
  cases e <;> rfl

theorem parts_blank (e : Expr) : e.blank.parts = e.parts.map Expr.blank := by
  cases e with
  | number | constant | var | binary => rfl
  | call name arguments => exact Expr.blankAll_eq_map arguments

/-- The row of a builtin function looks at the number of arguments only. -/
theorem row_replicate {name : String} {function : Function}
    (hfunction : Registry.standard.function? name = some function) {row : Row}
    (hform : function.form = some row.form) (arguments : List Expr) :
    row arguments = row (List.replicate arguments.length (.var "")) := by
  have hname : name ∈ Builtin.names := List.mem_map_of_mem (Registry.mem_of_lookup? hfunction)
  obtain ⟨other, hother, hcases⟩ := form_cases Registry.reachable_standard hname hfunction hform
  obtain rfl := Row.form_injective hother
  rcases hcases with ⟨_, rfl⟩ | hstyle
  · rcases arguments with _ | ⟨_, _ | ⟨_, _ | ⟨_, _ | ⟨_, rest⟩⟩⟩⟩ <;> rfl
  · cases hstyle with
    | applied _ hstyle =>
      obtain rfl := row_unique hform hstyle
      rw [Row.applied, Row.applied, List.length_replicate]
    | delimited _ _ hstyle =>
      obtain rfl := row_unique hform hstyle
      rcases arguments with _ | ⟨_, _ | ⟨_, rest⟩⟩ <;> rfl
    | logarithm _ hstyle =>
      obtain rfl := row_unique hform hstyle
      rcases arguments with _ | ⟨_, _ | ⟨_, _ | ⟨_, rest⟩⟩⟩ <;> rfl

/-- The layout of a call of a builtin function does not look at the literals in the arguments. -/
theorem layout_call_blank (name : String) (arguments : List Expr) :
    layout .standard (.call name (arguments.map Expr.blank)) =
      layout .standard (.call name arguments) := by
  rw [layout, layout]
  cases hfunction : Registry.standard.function? name with
  | none => rfl
  | some function =>
    dsimp only
    rw [List.length_map]
    split
    case isFalse => rfl
    case isTrue =>
      cases hform : function.form with
      | none => rfl
      | some form =>
        have hname : name ∈ Builtin.names := List.mem_map_of_mem (Registry.mem_of_lookup? hfunction)
        obtain ⟨row, rfl, -⟩ := form_cases Registry.reachable_standard hname hfunction hform
        show row (arguments.map Expr.blank) = row arguments
        rw [row_replicate hfunction hform, List.length_map, ← row_replicate hfunction hform]

/-- A call of a builtin function shows something, whatever its arguments are, or it has no pieces. -/
theorem layout_call_shows (name : String) (arguments : List Expr) :
    layout .standard (.call name arguments) = [] ∨
      Shows (layout .standard (.call name arguments)) := by
  rw [layout]
  cases hfunction : Registry.standard.function? name with
  | none => exact .inl rfl
  | some function =>
    dsimp only
    split
    case isFalse => exact .inl rfl
    case isTrue harity =>
      cases hform : function.form with
      | none => exact .inl rfl
      | some form =>
        have hname : name ∈ Builtin.names := List.mem_map_of_mem (Registry.mem_of_lookup? hfunction)
        obtain ⟨row, rfl, hcases⟩ := form_cases Registry.reachable_standard hname hfunction hform
        rcases hcases with ⟨_, rfl⟩ | hstyle
        · rcases sumRow_cases arguments with ⟨_, hshows⟩ | ⟨_, hnone⟩
          · exact .inr hshows
          · exact .inl hnone
        · exact .inr (hstyle.shows hform harity)

/-- **A formula shows something exactly if it does with its literals blanked out.** -/
theorem ofExpr_blank_eq_empty_iff (e : Expr) :
    ofExpr .standard e.blank = "" ↔ ofExpr .standard e = "" := by
  cases e with
  | number value text =>
    by_cases htext : text = "" <;> simp [Expr.blank, ofExpr, htext]
  | constant | var => rfl
  | binary symbol left right =>
    rw [Expr.blank]
    cases hop : Operator.find? symbol with
    | none => simp only [ofExpr, hop]
    | some op =>
      exact iff_of_false (ofExpr_binary_ne_empty hop _ _ _) (ofExpr_binary_ne_empty hop _ _ _)
  | call name arguments =>
    rw [Expr.blank, Expr.blankAll_eq_map, ofExpr_eq_join, ofExpr_eq_join, layout_call_blank]
    rcases layout_call_shows name arguments with hnone | hshows
    · rw [hnone]
      exact Iff.rfl
    · exact iff_of_false (hshows.join_ne_empty _) (hshows.join_ne_empty _)

/-- **The layout of a formula does not look at literals**, unless the formula is one. -/
theorem layout_blank {e : Expr} (he : e.isNumber = false) :
    layout .standard e.blank = layout .standard e := by
  cases e with
  | number value text => cases he
  | constant | var => rfl
  | call name arguments => rw [Expr.blank, Expr.blankAll_eq_map, layout_call_blank]
  | binary symbol left right =>
    rw [Expr.blank, layout, layout]
    cases hop : Operator.find? symbol with
    | none => rfl
    | some op =>
      have hbare : (operand op .left left.blank (ofExpr .standard left.blank)).isEmpty =
          (operand op .left left (ofExpr .standard left)).isEmpty := by
        rw [Bool.eq_iff_iff, String.isEmpty_iff, String.isEmpty_iff, operand_ofExpr_eq_empty_iff,
          operand_ofExpr_eq_empty_iff, ofExpr_blank_eq_empty_iff]
      dsimp only
      rw [hbare, needsBrackets_blank, needsBrackets_blank]

/-! ## 4. Literals in fixed texts -/

mutual

/-- The pieces of a formula around its literals, which are numbered from `first` on. -/
def template (registry : Registry) : (first : Nat) → Expr → List Piece
  | first, .number _ text => if text = "" then [] else [.argument first]
  | _, e@(.constant _ _) | _, e@(.var _) => layout registry e
  | first, e@(.binary _ left right) =>
    Piece.expand [template registry first left, template registry (first + left.literals.length) right]
      (layout registry e)
  | first, e@(.call _ arguments) => Piece.expand (templates registry first arguments) (layout registry e)

/-- The pieces of formulas around their literals. -/
def templates (registry : Registry) : (first : Nat) → List Expr → List (List Piece)
  | _, [] => []
  | first, e :: rest =>
    template registry first e :: templates registry (first + e.literals.length) rest

end

/-- The literals of a formula, put into its template, give its typeset form, and each is put in once and in
    order. The literals may stand among others. -/
structure Filled (e : Expr) : Prop where
  join : ∀ before after, Piece.join (before ++ e.literals ++ after)
    (template .standard before.length e.blank) = ofExpr .standard e
  indices : ∀ first, Piece.argumentIndices (template .standard first e.blank) =
    List.range' first e.literals.length

theorem length_templates (registry : Registry) (first : Nat) (es : List Expr) :
    (templates registry first es).length = es.length := by
  induction es generalizing first with
  | nil => rfl
  | cons e rest ih => rw [templates, List.length_cons, ih, List.length_cons]

theorem join_templates {es : List Expr} (h : ∀ e ∈ es, Filled e) (before after : List String) :
    (templates .standard before.length (es.map Expr.blank)).map
        (Piece.join (before ++ es.flatMap Expr.literals ++ after)) =
      es.map (ofExpr .standard) := by
  induction es generalizing before with
  | nil => rfl
  | cons e rest ih =>
    obtain ⟨he, hrest⟩ := List.forall_mem_cons.1 h
    have hfirst := he.join before (rest.flatMap Expr.literals ++ after)
    have hothers := ih hrest (before ++ e.literals)
    rw [List.length_append] at hothers
    rw [List.map_cons, templates, List.map_cons, List.map_cons, List.flatMap_cons,
      Expr.length_literals_blank, ← hothers, ← hfirst]
    simp only [List.append_assoc]

theorem indices_templates {es : List Expr} (h : ∀ e ∈ es, Filled e) (first : Nat) :
    (templates .standard first (es.map Expr.blank)).flatMap Piece.argumentIndices =
      List.range' first (es.flatMap Expr.literals).length := by
  induction es generalizing first with
  | nil => rfl
  | cons e rest ih =>
    obtain ⟨he, hrest⟩ := List.forall_mem_cons.1 h
    rw [List.map_cons, templates, List.flatMap_cons, he.indices, Expr.length_literals_blank,
      ih hrest, List.flatMap_cons, List.length_append, List.range'_append_1]

/-- A formula that is no literal has the templates of its parts in its layout. -/
theorem template_eq (registry : Registry) (first : Nat) {e : Expr} (he : e.isNumber = false) :
    template registry first e = Piece.expand (templates registry first e.parts) (layout registry e) := by
  cases e with
  | number value text => cases he
  | constant name value =>
    rw [template, layout]
    cases registry.constant? name <;> rfl
  | var name => rfl
  | binary symbol left right => rw [template, Expr.parts, templates, templates, templates]
  | call name arguments => rw [template, Expr.parts]

/-- A formula whose layout shows each part once and in order. -/
def Complete (e : Expr) : Prop :=
  Piece.argumentIndices (layout .standard e) = List.range e.parts.length

theorem literals_eq_parts {e : Expr} (he : e.isNumber = false) :
    e.literals = e.parts.flatMap Expr.literals := by
  cases e with
  | number value text => cases he
  | constant | var => rfl
  | binary symbol left right => simp [Expr.literals_binary, Expr.parts]
  | call name arguments => rw [Expr.literals_call, Expr.parts]

/-- **A complete formula is filled if its parts are.** -/
theorem Filled.of_parts {e : Expr} (he : e.isNumber = false)
    (hcomplete : Complete e) (h : ∀ part ∈ e.parts, Filled part) : Filled e := by
  have hblank : e.blank.isNumber = false := by
    cases e with
    | number value text => cases he
    | constant | var | binary | call => rfl
  have htemplate (first : Nat) : template .standard first e.blank =
      Piece.expand (templates .standard first (e.parts.map Expr.blank)) (layout .standard e) := by
    rw [template_eq .standard first hblank, parts_blank, layout_blank he]
  constructor
  · intro before after
    rw [htemplate, Piece.join_expand, literals_eq_parts he, join_templates h, ← ofExpr_eq_join]
  · intro first
    have hlength : Piece.argumentIndices (layout .standard e) =
        List.range (templates .standard first (e.parts.map Expr.blank)).length := by
      rw [length_templates, List.length_map, hcomplete]
    rw [htemplate, Piece.argumentIndices_expand_range hlength, indices_templates h,
      literals_eq_parts he]

/-- **A formula all of whose nodes are complete is filled.** -/
theorem filled_of_complete {e : Expr} (h : ∀ node ∈ e.nodes, Complete node) : Filled e := by
  induction e with
  | number value text =>
    by_cases htext : text = ""
    · constructor <;> simp [template, Expr.blank, Expr.literals, Expr.nodes, Expr.literalText?,
        ofExpr, Piece.join, Piece.argumentIndices, htext]
    · constructor <;> simp [template, Expr.blank, Expr.literals, Expr.nodes, Expr.literalText?,
        ofExpr, Piece.join, Piece.argumentIndices, htext]
  | constant name value =>
    exact .of_parts rfl (h _ (Expr.mem_nodes_self _)) (List.forall_mem_nil _)
  | var name => exact .of_parts rfl (h _ (Expr.mem_nodes_self _)) (List.forall_mem_nil _)
  | binary symbol left right ihleft ihright =>
    obtain ⟨hroot, hleft, hright⟩ := Expr.forall_nodes_binary.1 h
    refine .of_parts rfl hroot ?_
    simpa [Expr.parts] using ⟨ihleft hleft, ihright hright⟩
  | call name arguments ih =>
    obtain ⟨hroot, harguments⟩ := Expr.forall_nodes_call.1 h
    exact .of_parts rfl hroot fun a ha => ih a ha (harguments a ha)

/-! ## 5. Formulas of a source -/

theorem complete_binary {symbol : Char} {op : Operator} (hop : Operator.find? symbol = some op)
    (left right : Expr) : Complete (.binary symbol left right) := by
  have hindices (bare left right : Bool) : Piece.argumentIndices
      (operatorPieces symbol bare (operandPieces 0 left) (operandPieces 1 right)) = [0, 1] := by
    have hsymbol := symbol_mem (Operator.find?_mem hop)
    rw [Operator.find?_symbol hop] at hsymbol
    simp only [List.mem_cons, List.not_mem_nil, or_false] at hsymbol
    rcases hsymbol with rfl | rfl | rfl | rfl | rfl | rfl <;> revert bare left right <;> decide
  rw [Complete, layout, hop]
  exact hindices _ _ _

theorem CallStyle.argumentIndices {name : String} {function : Function} (h : CallStyle name function)
    {row : Row} (hform : function.form = some row.form) {arguments : List Expr}
    (harity : function.arity.accepts arguments.length = true) :
    Piece.argumentIndices (row arguments) = List.range arguments.length := by
  cases h with
  | applied _ hstyle =>
    obtain rfl := row_unique hform hstyle
    rw [Row.applied, List.cons_append, Piece.argumentIndices, Piece.argumentIndices_append,
      Piece.argumentIndices_separated, List.range_eq_range', Piece.argumentIndices,
      Piece.argumentIndices, List.append_nil]
  | delimited _ hcount hstyle =>
    obtain rfl := row_unique hform hstyle
    obtain ⟨a, rfl⟩ := List.length_eq_one_iff.1 (by simpa [hcount] using harity)
    rfl
  | logarithm hcount hstyle =>
    obtain rfl := row_unique hform hstyle
    obtain ⟨base, a, rfl⟩ := List.length_eq_two.1 (by simpa [hcount] using harity)
    rfl

theorem argumentIndices_sum {arguments : List Expr} (h : arguments.length ∈ [2, 3]) :
    Piece.argumentIndices (Sum.row arguments) = List.range arguments.length := by
  simp only [List.mem_cons, List.not_mem_nil, or_false] at h
  rcases h with h | h
  · obtain ⟨start, last, rfl⟩ := List.length_eq_two.1 h
    rfl
  · obtain ⟨start, last, body, rfl⟩ := List.length_eq_three.1 h
    rfl

/-- **All nodes of a written tree are complete**, except for calls of `noerr` and malformed sums. -/
theorem complete_of_written {node : Expr} (h : Expr.Written .standard node)
    (hnoerr : ∀ arguments, node ≠ .call "noerr" arguments)
    (hsum : ∀ arguments, node = .call "sum" arguments → arguments.length ∈ [2, 3]) :
    Complete node := by
  cases h with
  | number | var => rfl
  | @constant name found hfound =>
    rw [Complete, layout, hfound]
    rfl
  | negation => exact complete_binary rfl _ _
  | binary hop => exact complete_binary hop _ _
  | @call name function arguments hfunction harity _ =>
    rw [Complete, layout, hfunction]
    dsimp only
    rw [if_pos harity]
    have hname : name ∈ Builtin.names := List.mem_map_of_mem (Registry.mem_of_lookup? hfunction)
    rcases builtin_cases Registry.reachable_standard hname hfunction with
      ⟨rfl, _⟩ | ⟨rfl, hform⟩ | hstyle
    · exact absurd rfl (hnoerr arguments)
    · rw [hform]
      exact argumentIndices_sum (hsum arguments rfl)
    · obtain ⟨row, hform⟩ := hstyle.row
      rw [hform]
      exact hstyle.argumentIndices hform harity

/-- The fixed texts around the literals of a formula. -/
def gaps (e : Expr) : List String := Piece.gaps "" (template .standard 0 e)

/-- **Typesetting takes the literals of a source over**, each once and in order, into gaps that do not depend
    on them. -/
theorem ofExpr_literals {source : String} {e : Expr} (he : Expr.ofSource .standard source = .ok e)
    (hnoerr : ∀ arguments, .call "noerr" arguments ∉ e.nodes)
    (hsum : ∀ arguments, .call "sum" arguments ∈ e.nodes → arguments.length ∈ [2, 3]) :
    ∃ tokens, Token.ofSource source = .ok tokens ∧
      (gaps e.blank).length = (tokens.filterMap Token.literalText?).length + 1 ∧
      ofExpr .standard e = Piece.interleave (gaps e.blank) (tokens.filterMap Token.literalText?) := by
  obtain ⟨tokens, htokens, hliterals⟩ := Expr.literals_of_source he
  have hcomplete : ∀ node ∈ e.nodes, Complete node := by
    intro node hnode
    rcases (Expr.Written.of_source he).of_mem_nodes node hnode with hwritten | rfl
    · refine complete_of_written hwritten ?_ ?_
      · rintro arguments rfl
        exact hnoerr arguments hnode
      · rintro arguments rfl
        exact hsum arguments hnode
    · rfl
  have hfilled := filled_of_complete hcomplete
  obtain ⟨hlength, hjoin⟩ := Piece.join_eq_interleave "" [] e.literals (hfilled.indices 0)
  refine ⟨tokens, htokens, ?_⟩
  rw [hliterals]
  refine ⟨hlength, ?_⟩
  rw [gaps, ← hjoin, String.empty_append, List.nil_append, ← hfilled.join [] []]
  simp

/-- The difference of a number and of a maximum, given the values of its literals. -/
def maximumFrom (ten two : Float) : Expr :=
  .binary '-' (.number ten "10") (.call "max" [.var "x", .number two "2"])

/-- A source of this tree, in which one literal is written with a separator. -/
theorem ofSource_maximumFrom :
    ∃ ten two, Expr.ofSource .standard "1_0-max($x,2)" = .ok (maximumFrom ten two) := by
  obtain ⟨ten, hten⟩ : ∃ value, Double.read "10" = .ok value := ⟨_, rfl⟩
  obtain ⟨two, htwo⟩ : ∃ value, Double.read "2" = .ok value := ⟨_, rfl⟩
  have hliteral {text : String} {value : Float} (hvalue : Double.read text = .ok value)
      (position : Nat) (rest : List Token) :
      Derives .standard .sum (⟨text, .literal, position⟩ :: rest) rest (.number value text) :=
    Derives.toSum (.literal rfl hvalue)
  have hvariable (rest : List Token) :
      Derives .standard .sum (⟨"$x", .var, 8⟩ :: rest) rest (.var "x") := Derives.toSum (.var rfl)
  have hminus : Token.isSymbol ⟨"-", .operator, 3⟩ '-' = true := rfl
  have hclosing : Token.isSymbol ⟨")", .operator, 12⟩ ')' = true := rfl
  have hsecond : DerivesArguments .standard [⟨"2", .literal, 11⟩, ⟨")", .operator, 12⟩] [] _ :=
    .last hclosing (hliteral htwo 11 _)
  have hcall := @Derives.call .standard ⟨"max", .identifier, 4⟩ ⟨"(", .operator, 7⟩ _ _ _ _
    rfl rfl rfl rfl (.more (by rfl : Token.kind ⟨",", .comma, 10⟩ = .comma) (hvariable _) hsecond)
  have hderives := Derives.add (by decide) hminus (hliteral hten 0 _) (hcall.toProduct (by decide))
  refine ⟨ten, two, Grammar.ofSource_iff_derives.2 ⟨_, ?_, hderives⟩⟩
  simp +decide [Token.ofSource, Token.scan, Token.lexeme?, Token.ofLexeme, Token.splitExponent,
    Source.width]

/-- The literals `10` and `2` stand in the typeset form of `1_0-max($x,2)`. -/
theorem ofExpr_literals_maximumFrom : ∃ e tokens,
    Expr.ofSource .standard "1_0-max($x,2)" = .ok e ∧
      (∀ arguments, .call "noerr" arguments ∉ e.nodes) ∧
      (∀ arguments, .call "sum" arguments ∈ e.nodes → arguments.length ∈ [2, 3]) ∧
      Token.ofSource "1_0-max($x,2)" = .ok tokens ∧
      ofExpr .standard e = Piece.interleave (gaps e.blank) (tokens.filterMap Token.literalText?) := by
  obtain ⟨ten, two, hsource⟩ := ofSource_maximumFrom
  have hnoerr : ∀ arguments, Expr.call "noerr" arguments ∉ (maximumFrom ten two).nodes := by
    simp [maximumFrom, Expr.nodes, Expr.nodesAll]
  have hsum : ∀ arguments, Expr.call "sum" arguments ∈ (maximumFrom ten two).nodes →
      arguments.length ∈ [2, 3] := by
    simp [maximumFrom, Expr.nodes, Expr.nodesAll]
  obtain ⟨tokens, htokens, _, hliterals⟩ := ofExpr_literals hsource hnoerr hsum
  exact ⟨_, tokens, hsource, hnoerr, hsum, htokens, hliterals⟩

end Latex

end Formula
