import Formula.Proofs.Nesting
import Formula.Proofs.Tree.Nodes
import Formula.Proofs.Typeset.Layout

/-!
# Brackets of typeset formulas

Typesetting writes two kinds of brackets: braces, and delimiters after `\left` and `\right`. In a typeset
formula each bracket that closes is of the kind of the innermost one that is open, and in the end none is
open. This holds of all trees, also of those that no source has, as long as no text of a leaf and no
registration brings in brackets of its own that do not match.

* `edges` lists the brackets of a text from left to right, `Balanced` says that they match.
* A command could begin in one text and end in the next. In a row of pieces that is `insulated` this cannot
  happen, so the brackets of the whole are those of the pieces (`edges_join`). Typeset arguments that are
  balanced leave open what is open around them, so only the fixed texts of a row matter (`Frames`).
* `ofExpr_balanced` is the main statement.
-/

namespace Formula.Latex

variable {registry : Registry}

/-! ## 1. Brackets of a text -/

/-- A kind of bracket. -/
inductive Bracket
  | brace
  | sized
  deriving DecidableEq, Repr

/-- One end of a bracket. -/
inductive Edge
  | opening (bracket : Bracket)
  | closing (bracket : Bracket)
  deriving DecidableEq, Repr

/-- The texts that open or close a bracket. -/
def edgeTexts : List (String × Edge) :=
  [ ("\x7b", .opening .brace), ("\x7d", .closing .brace),
    ("\\left", .opening .sized), ("\\right", .closing .sized) ]

/-- What opens or closes at the beginning of a text. -/
def edgesAt (text : List Char) : List Edge :=
  (edgeTexts.filter fun entry => entry.1.toList.isPrefixOf text).map (·.2)

/-- What opens or closes in a text, from left to right. -/
def edges : List Char → List Edge
  | [] => []
  | c :: text => edgesAt (c :: text) ++ edges text

/-- The characters of a command. -/
def inCommand (c : Char) : Bool := c == '\\' || c.isAlpha

/-- Two texts such that no command begins in the first and goes on in the second. -/
def Apart (front back : List Char) : Prop :=
  (∀ c ∈ front.getLast?, inCommand c = false) ∨ ∀ c ∈ back.head?, c.isAlpha = false

theorem Apart.of_cons {c : Char} {front back : List Char} (h : Apart (c :: front) back) :
    Apart front back := by
  rcases h with h | h
  · cases front with
    | nil => exact .inl fun d hd => by cases hd
    | cons d front => exact .inl (by rwa [List.getLast?_cons_cons] at h)
  · exact .inr h

/-- No bracket lies partly in one text and partly in the next if the two are apart. -/
theorem Apart.begins_iff {entry : String × Edge} (hentry : entry ∈ edgeTexts)
    {front back : List Char} (hfront : front ≠ []) (h : Apart front back) :
    entry.1.toList <+: front ++ back ↔ entry.1.toList <+: front := by
  have hall : ∀ entry ∈ edgeTexts, entry.1.toList.dropLast.all inCommand = true ∧
      entry.1.toList.tail.all Char.isAlpha = true := by decide
  obtain ⟨hinit, htail⟩ := hall entry hentry
  rw [List.all_eq_true] at hinit htail
  refine ⟨fun hwhole => ?_, fun hbegins => hbegins.trans (List.prefix_append _ _)⟩
  rcases List.prefix_or_prefix_of_prefix hwhole (List.prefix_append _ _) with hle | ⟨more, hmore⟩
  · exact hle
  rw [← hmore] at hinit htail hwhole ⊢
  cases more with
  | nil => simp only [List.append_nil, List.prefix_rfl]
  | cons c more =>
    -- the bracket would go on with a letter after the last character of the first text
    rcases h with h | h
    · have hlast := hinit (front.getLast hfront)
        (by rw [List.dropLast_append_cons]; exact List.mem_append_left _ (List.getLast_mem hfront))
      rw [h _ (List.getLast?_eq_some_getLast hfront)] at hlast
      cases hlast
    · obtain ⟨tail, htail'⟩ := (List.prefix_append_right_inj front).1 hwhole
      have hfirst := htail c (by rw [List.tail_append_of_ne_nil hfront]; simp)
      rw [h c (by rw [← htail']; rfl)] at hfirst
      cases hfirst

theorem edges_append {front back : List Char} (h : Apart front back) :
    edges (front ++ back) = edges front ++ edges back := by
  induction front with
  | nil => rfl
  | cons c front ih =>
    have hat : edgesAt (c :: (front ++ back)) = edgesAt (c :: front) := by
      refine congrArg (List.map _) (List.filter_congr fun entry hentry => ?_)
      rw [Bool.eq_iff_iff, List.isPrefixOf_iff_prefix, List.isPrefixOf_iff_prefix]
      exact h.begins_iff hentry (List.cons_ne_nil _ _)
    rw [List.cons_append, edges, hat, ih h.of_cons, edges, List.append_assoc]

/-- The characters that brackets are made of, letters apart. -/
def bracketSigns : List Char := ['\x7b', '\x7d', '\\']

/-- A text without these characters has no brackets. -/
theorem edges_plain {text : List Char} (h : ∀ c ∈ text, c ∉ bracketSigns) : edges text = [] := by
  have hall : ∀ entry ∈ edgeTexts, entry.1.toList.head?.any (bracketSigns.contains ·) = true := by
    decide
  induction text with
  | nil => rfl
  | cons c text ih =>
    obtain ⟨hc, htext⟩ := List.forall_mem_cons.1 h
    rw [edges, ih htext, List.append_nil, edgesAt, List.map_eq_nil_iff, List.filter_eq_nil_iff]
    intro entry hentry hbegins
    obtain ⟨d, hhead, hd⟩ := (Option.any_eq_true _ _).1 (hall entry hentry)
    obtain ⟨more, hmore⟩ := List.isPrefixOf_iff_prefix.1 hbegins
    obtain ⟨tail, htail⟩ := List.head?_eq_some_iff.1 hhead
    rw [htail] at hmore
    cases hmore
    exact hc (List.contains_iff_mem.1 hd)

/-! ## 2. Matching brackets -/

/-- What an edge does to the brackets that are open, the innermost first. Only the innermost can be
    closed. -/
def Edge.step : Edge → List Bracket → Option (List Bracket)
  | opening bracket, opened => some (bracket :: opened)
  | closing _, [] => none
  | closing bracket, innermost :: opened => if bracket = innermost then some opened else none

/-- The brackets that are open after some edges. -/
def stillOpen (edges : List Edge) (opened : List Bracket) : Option (List Bracket) :=
  edges.foldlM (fun opened edge => edge.step opened) opened

/-- The brackets of a text are nested and match. -/
def Balanced (text : String) : Prop := stillOpen (edges text.toList) [] = some []

instance (text : String) : Decidable (Balanced text) :=
  inferInstanceAs (Decidable (stillOpen (edges text.toList) [] = some []))

theorem stillOpen_append (front back : List Edge) (opened : List Bracket) :
    stillOpen (front ++ back) opened = (stillOpen front opened).bind (stillOpen back) :=
  List.foldlM_append

/-- An edge does nothing to the brackets further out than those it needs. -/
theorem Edge.step_inner : Nesting.Inner Edge.step := by
  intro edge opened left h outer
  cases edge with
  | opening bracket =>
    cases h
    rfl
  | closing bracket =>
    cases opened with
    | nil => cases h
    | cons innermost opened =>
      rw [step] at h
      obtain ⟨rfl, hopened⟩ := Option.ite_none_right_eq_some.1 h
      cases hopened
      exact if_pos rfl

/-- A balanced text leaves open what is open around it. -/
theorem Balanced.around {text : String} (h : Balanced text) (opened : List Bracket) :
    stillOpen (edges text.toList) opened = some opened :=
  Nesting.run_outer Edge.step_inner h opened

theorem balanced_of_plain {text : String} (h : ∀ c ∈ text.toList, c ∉ bracketSigns) :
    Balanced text := by
  rw [Balanced, edges_plain h]
  rfl

/-! ## 3. Rows of pieces -/

/-- Whether no command can go on from one piece to the next, whatever the arguments are: a text that is not
    the last piece ends outside of a command, and after an argument no text begins with a letter. -/
def insulated : List Piece → Bool
  | .text a :: next :: pieces =>
    a.toList.getLast?.all (fun c => !inCommand c) && insulated (next :: pieces)
  | .argument _ :: .text b :: pieces =>
    b.toList.head?.any (fun c => !c.isAlpha) && insulated (.text b :: pieces)
  | .argument _ :: .argument _ :: _ => false
  | [_] | [] => true

/-- The edges of a piece, with the given typeset arguments. -/
def pieceEdges (texts : List String) : Piece → List Edge
  | .text text => edges text.toList
  | .argument index => edges (texts[index]?.getD "").toList

/-- **The brackets of an insulated row are those of its pieces.** -/
theorem edges_join {pieces : List Piece} (h : insulated pieces = true) (texts : List String) :
    edges (Piece.join texts pieces).toList = pieces.flatMap (pieceEdges texts) := by
  fun_induction insulated pieces with
  | case1 a next pieces ih =>
    obtain ⟨hlast, hrest⟩ := Bool.and_eq_true_iff.1 h
    rw [Piece.join, String.toList_append, List.flatMap_cons, ← ih hrest, pieceEdges]
    exact edges_append (.inl fun c hc => by simpa [Option.mem_def.1 hc] using hlast)
  | case2 index b pieces ih =>
    obtain ⟨hfirst, hrest⟩ := Bool.and_eq_true_iff.1 h
    rw [Piece.join, String.toList_append, List.flatMap_cons, ← ih hrest, pieceEdges]
    refine edges_append (.inr fun c hc => ?_)
    obtain ⟨d, hd, hletter⟩ := (Option.any_eq_true _ _).1 hfirst
    rw [Piece.join, String.toList_append, List.head?_append, hd, Option.some_or] at hc
    cases hc
    simpa using hletter
  | case3 => cases h
  | case4 piece =>
    cases piece <;> simp [Piece.join, pieceEdges]
  | case5 => rfl

/-- The edges of the fixed texts of a row. -/
def fixedEdges (pieces : List Piece) : List Edge := pieces.flatMap (pieceEdges [])

/-- A row of pieces that makes a balanced text out of balanced arguments. -/
structure Frames (pieces : List Piece) : Prop where
  insulated : insulated pieces = true
  balanced : stillOpen (fixedEdges pieces) [] = some []

instance (pieces : List Piece) : Decidable (Frames pieces) :=
  decidable_of_iff (insulated pieces = true ∧ stillOpen (fixedEdges pieces) [] = some [])
    ⟨fun h => ⟨h.1, h.2⟩, fun h => ⟨h.insulated, h.balanced⟩⟩

/-- Balanced arguments change nothing about what is open after a row. -/
theorem stillOpen_pieces {texts : List String} (htexts : ∀ text ∈ texts, Balanced text)
    (pieces : List Piece) (opened : List Bracket) :
    stillOpen (pieces.flatMap (pieceEdges texts)) opened =
      stillOpen (fixedEdges pieces) opened := by
  induction pieces generalizing opened with
  | nil => rfl
  | cons piece pieces ih =>
    rw [fixedEdges, List.flatMap_cons, List.flatMap_cons, stillOpen_append, stillOpen_append]
    cases piece with
    | text text => exact congrArg _ (funext ih)
    | argument index =>
      have hargument : Balanced (texts[index]?.getD "") := by
        cases hindex : texts[index]? with
        | none => rfl
        | some text => exact htexts text (List.mem_of_getElem? hindex)
      rw [pieceEdges, hargument.around]
      exact ih opened

theorem Frames.balanced_join {pieces : List Piece} (h : Frames pieces) {texts : List String}
    (htexts : ∀ text ∈ texts, Balanced text) : Balanced (Piece.join texts pieces) := by
  rw [Balanced, edges_join h.insulated, stillOpen_pieces htexts]
  exact h.balanced

/-! ## 4. Operators and builtin functions -/

theorem frames_operatorPieces {op : Operator} (h : op ∈ Operator.table) (bare left right : Bool) :
    Frames (operatorPieces op.symbol bare (operandPieces 0 left) (operandPieces 1 right)) := by
  have hsymbol := symbol_mem h
  simp only [List.mem_cons, List.not_mem_nil, or_false] at hsymbol
  rcases hsymbol with h | h | h | h | h | h <;> rw [h] <;> revert bare left right <;> decide +kernel

theorem insulated_text {a : String} (ha : a.toList.getLast?.all (fun c => !inCommand c) = true)
    {pieces : List Piece} (h : insulated pieces = true) : insulated (.text a :: pieces) = true := by
  cases pieces with
  | nil => rfl
  | cons piece pieces => exact Bool.and_eq_true_iff.2 ⟨ha, h⟩

/-- Arguments with commas between any two, before a text that closes a bracket. -/
theorem insulated_separated (count index : Nat) :
    insulated (Piece.separated ", " count index ++ [.text "\\right)"]) = true := by
  fun_induction Piece.separated with
  | case1 => rfl
  | case2 => rfl
  | case3 count index ih =>
    exact Bool.and_eq_true_iff.2 ⟨by decide, insulated_text (by decide) ih⟩

theorem fixedEdges_separated (count index : Nat) :
    fixedEdges (Piece.separated ", " count index) = [] := by
  have hcomma : edges ", ".toList = [] := by decide
  fun_induction Piece.separated with
  | case1 => rfl
  | case2 => rfl
  | case3 count index ih =>
    rw [fixedEdges, List.flatMap_cons, List.flatMap_cons, ← fixedEdges, ih, pieceEdges, pieceEdges,
      hcomma]
    rfl

theorem frames_applied {name command : String} (h : (name, command) ∈ commands)
    (arguments : List Expr) : Frames (Row.applied command arguments) := by
  have hall : ∀ entry ∈ commands,
      (entry.2 ++ "\\left(").toList.getLast?.all (fun c => !inCommand c) = true ∧
        stillOpen (edges (entry.2 ++ "\\left(").toList) [] = some [.sized] := by decide +kernel
  obtain ⟨hlast, hopening⟩ := hall _ h
  refine ⟨insulated_text hlast (insulated_separated _ _), ?_⟩
  have hedges : fixedEdges (Row.applied command arguments) =
      edges (command ++ "\\left(").toList ++ edges "\\right)".toList := by
    rw [Row.applied, fixedEdges, List.flatMap_append, List.flatMap_cons, ← fixedEdges,
      fixedEdges_separated, List.append_nil]
    rfl
  rw [hedges, stillOpen_append, hopening]
  decide

theorem CallStyle.frames {name : String} {function : Function} (h : CallStyle name function)
    {row : Row} (hform : function.form = some row.form) (arguments : List Expr) :
    Frames (row arguments) := by
  have hempty : Frames [] := by decide
  cases h with
  | applied hname hstyle =>
    obtain rfl := row_unique hform hstyle
    exact frames_applied hname arguments
  | delimited hname _ hstyle =>
    have hall : ∀ entry ∈ delimiters,
        Frames [.text entry.2.1, .argument 0, .text entry.2.2] := by decide +kernel
    obtain rfl := row_unique hform hstyle
    rcases arguments with _ | ⟨a, _ | ⟨b, rest⟩⟩
    · exact hempty
    · exact hall _ hname
    · exact hempty
  | logarithm _ hstyle =>
    obtain rfl := row_unique hform hstyle
    rcases arguments with _ | ⟨base, _ | ⟨a, _ | ⟨b, rest⟩⟩⟩
    · exact hempty
    · exact hempty
    · rw [Builtin.logarithmRow]
      decide +kernel
    · exact hempty

theorem frames_sum (arguments : List Expr) : Frames (Sum.row arguments) := by
  have hempty : Frames [] := by decide
  rcases arguments with _ | ⟨start, _ | ⟨last, _ | ⟨body, _ | ⟨a, rest⟩⟩⟩⟩
  · exact hempty
  · exact hempty
  · rw [Sum.row]
    decide +kernel
  · rw [Sum.row]
    decide +kernel
  · exact hempty

/-- **A builtin function makes balanced texts out of balanced arguments**, in any number. -/
theorem frames_builtin (hregistry : registry.Reachable) {name : String} (hname : name ∈ Builtin.names)
    {function : Function} (hfunction : registry.function? name = some function) {form : Form}
    (hform : function.form = some form) (arguments : List Expr) :
    ∃ row : Row, form = row.form ∧ Frames (row arguments) := by
  obtain ⟨row, rfl, ⟨_, rfl⟩ | hstyle⟩ := form_cases hregistry hname hfunction hform
  · exact ⟨_, rfl, frames_sum arguments⟩
  · exact ⟨_, rfl, hstyle.frames hform arguments⟩

/-! ## 5. Formulas -/

/-- The text of a leaf that typesetting takes over. A constant that is registered has a display instead. -/
def leafText? (registry : Registry) : Expr → Option String
  | .number _ text => some text
  | .var name => some name
  | .constant name _ => if (registry.constant? name).isSome then none else some name
  | .binary _ _ _ | .call _ _ => none

/-- No leaf of a formula brings in a brace or a command. -/
def Unbracketed (registry : Registry) (e : Expr) : Prop :=
  ∀ node ∈ e.nodes, ∀ text ∈ leafText? registry node, ∀ c ∈ text.toList, c ∉ bracketSigns

instance (registry : Registry) (e : Expr) : Decidable (Unbracketed registry e) :=
  decidable_of_iff (e.nodes.all fun node => (leafText? registry node).all fun text =>
    text.toList.all fun c => !bracketSigns.contains c)
    (by simp [Unbracketed, Option.all_eq_true])

/-- What has to hold of the registrations: displays are balanced, and forms that are not builtin make
    balanced texts out of arguments all of whose nodes are typeset so. -/
structure BalancedEntries (registry : Registry) : Prop where
  display : ∀ name found, registry.constant? name = some found → Balanced found.display
  call : ∀ name ∉ Builtin.names, ∀ function form, registry.function? name = some function →
    function.form = some form → ∀ arguments,
      (∀ a ∈ Expr.nodesAll arguments, Unbracketed registry a ∧ Balanced (ofExpr registry a)) →
      Balanced (ofCall registry form arguments)

theorem Unbracketed.of_mem_nodesAll {arguments : List Expr}
    (h : ∀ a ∈ arguments, Unbracketed registry a) {node : Expr}
    (hnode : node ∈ Expr.nodesAll arguments) : Unbracketed registry node := by
  obtain ⟨a, ha, hnode⟩ := Expr.mem_nodesAll.1 hnode
  exact fun inner hinner => h a ha inner (Expr.mem_nodes_trans hnode hinner)

theorem balanced_withoutSigil {name : String} (h : ∀ c ∈ name.toList, c ∉ bracketSigns) :
    Balanced (withoutSigil name) := by
  refine balanced_of_plain fun c hc => h c ?_
  rw [withoutSigil, String.toList_ofList] at hc
  exact (List.dropWhile_sublist _).subset hc

/-- **Every typeset tree is balanced**, given that its leaves and the registrations bring in no brackets
    that do not match. -/
theorem ofExpr_balanced (hregistry : registry.Reachable) (hentries : BalancedEntries registry)
    {e : Expr} (he : Unbracketed registry e) : Balanced (ofExpr registry e) := by
  have hnothing : Balanced "" := rfl
  induction e using Expr.inductNodes with
  | number value text =>
    rw [ofExpr]
    exact balanced_of_plain (he _ (Expr.mem_nodes_self _) text rfl)
  | constant name value =>
    rw [ofExpr]
    cases hfound : registry.constant? name with
    | none => exact balanced_of_plain (he _ (Expr.mem_nodes_self _) name (by simp [leafText?, hfound]))
    | some found => exact hentries.display name found hfound
  | var name =>
    rw [ofExpr]
    exact balanced_withoutSigil (he _ (Expr.mem_nodes_self _) name rfl)
  | binary symbol left right ihleft ihright =>
    obtain ⟨_, hleft, hright⟩ := Expr.forall_nodes_binary.1 he
    cases hop : Operator.find? symbol with
    | none => rwa [ofExpr, hop]
    | some op =>
      rw [ofExpr_eq_join, layout, hop, ← Operator.find?_symbol hop]
      refine (frames_operatorPieces (Operator.find?_mem hop) _ _ _).balanced_join ?_
      simpa [Expr.parts] using ⟨ihleft hleft, ihright hright⟩
  | call name arguments ih =>
    obtain ⟨_, harguments⟩ := Expr.forall_nodes_call.1 he
    have hall : ∀ a ∈ Expr.nodesAll arguments,
        Unbracketed registry a ∧ Balanced (ofExpr registry a) := by
      intro a ha
      have hunbracketed := Unbracketed.of_mem_nodesAll harguments ha
      obtain ⟨path, hpath⟩ := Expr.mem_nodesAll_iff_at?.1 ha
      exact ⟨hunbracketed, ih path a hpath hunbracketed⟩
    rw [ofExpr]
    cases hfunction : registry.function? name with
    | none => exact hnothing
    | some function =>
      dsimp only
      split
      case isFalse => exact hnothing
      case isTrue =>
        cases hform : function.form with
        | none => exact hnothing
        | some form =>
          by_cases hname : name ∈ Builtin.names
          · obtain ⟨row, rfl, hframes⟩ := frames_builtin hregistry hname hfunction hform arguments
            show Balanced (ofCall registry row.form arguments)
            rw [ofCall_of_row rfl]
            exact hframes.balanced_join
              (List.forall_mem_map.2 fun a ha => (hall a (Expr.mem_nodesAll_of_mem ha)).2)
          · exact hentries.call name hname function form hfunction hform arguments hall

/-- A registry with a constant whose display has braces and a function that is typeset as a fraction. -/
def fractionRegistry : Registry :=
  Registry.standard.after
    [.constant "k" ⟨2.0, "\\hat\x7bk\x7d"⟩,
      .function "half" ⟨.exactly 1, fun _ => .argument 0 fun x => .value (x / 2.0),
        some (Row.delimited "\\frac\x7b" "\x7d\x7b2\x7d").form⟩]

theorem fractionRegistry_entries : BalancedEntries fractionRegistry := by
  constructor
  · intro name found hfound
    have hall : ∀ entry ∈ fractionRegistry.constants, Balanced entry.2.display := by decide +kernel
    exact hall _ (Registry.mem_of_lookup? hfound)
  · intro name hname function form hfunction hform arguments harguments
    have hmem : (name, function) ∈ Builtin.table ++ [("half", _)] := Registry.mem_of_lookup? hfunction
    rcases List.mem_append.1 hmem with hbuiltin | hhalf
    · exact absurd (List.mem_map_of_mem hbuiltin) hname
    · cases List.mem_singleton.1 hhalf
      cases hform
      rw [ofCall_of_row rfl]
      have hframes : Frames (Row.delimited "\\frac\x7b" "\x7d\x7b2\x7d" arguments) := by
        rcases arguments with _ | ⟨a, _ | ⟨b, rest⟩⟩
        · exact (by decide : Frames [])
        · rw [Row.delimited]
          decide +kernel
        · exact (by decide : Frames [])
      exact hframes.balanced_join
        (List.forall_mem_map.2 fun a ha => (harguments a (Expr.mem_nodesAll_of_mem ha)).2)

/-- A tree with calls of a registered function and of one that is not. -/
def mixedTree : Expr :=
  .binary '^' (.call "half" [.binary '+' (.constant "k" 2.0) (.var "x")])
    (.call "cos" [.call "nowhere" [.number 1.0 "1"], .constant "unknown" 0.0])

/-- The brackets of a typeset tree with calls and constants of all kinds match. -/
theorem ofExpr_balanced_mixed :
    BalancedEntries fractionRegistry ∧ Unbracketed fractionRegistry mixedTree ∧
      Balanced (ofExpr fractionRegistry mixedTree) := by
  have hregistry : fractionRegistry.Reachable := ⟨_, rfl⟩
  have htree : Unbracketed fractionRegistry mixedTree := by decide +kernel
  exact ⟨fractionRegistry_entries, htree,
    ofExpr_balanced hregistry fractionRegistry_entries htree⟩

end Formula.Latex
