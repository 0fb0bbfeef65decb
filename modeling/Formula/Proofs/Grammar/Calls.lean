import Formula.Proofs.Grammar.Grafting
import Formula.Proofs.Grammar.Respelling
import Mathlib.Data.List.Forall2

/-!
# Calls put together from sources

The source of a call is a name and the sources of its arguments in parentheses. No lexeme goes on over a
comma or a closing parenthesis, so an argument has the tokens that it has on its own, and the tree that
it has on its own.

* `IsName`: the texts that are scanned as one identifier.
* `Splits.before`: a text in front of a comma or a parenthesis is split as it is on its own, wherever
  it stands.
* `enclosed` are the tokens of arguments up to the closing parenthesis.
* `ofSource_call` is the main statement: a call of a function that is registered is read exactly if the
  function accepts the number of arguments.
-/

namespace Formula

namespace Token

/-! ## 1. Names -/

/-- A text that is scanned as one identifier. -/
def IsName (name : String) : Prop :=
  ∃ position, ofSource name = .ok [⟨name, .identifier, position⟩]

theorem Fits.splits_name {name : String} (h : Fits .identifier name.toList) {position : Nat}
    {text rest : List Char} {tokens : List Token} (hends : Ends .identifier name.toList text)
    (hsplits : Splits (position + Source.width name.toList) text tokens rest) :
    Splits position (name.toList ++ text) (⟨name, .identifier, position⟩ :: tokens) rest :=
  .lexeme h hends rfl (by simp) hsplits

/-- **A name is an identifier as a whole.** -/
theorem isName_iff_fits {name : String} : IsName name ↔ Fits .identifier name.toList := by
  constructor
  · rintro ⟨position, h⟩
    obtain ⟨-, hfits, -, -, hword⟩ := stands_of_source h _ List.mem_cons_self
    rename_i before lexeme after
    have hchars : name.toList = lexeme := by
      rw [show name = String.ofList lexeme from hword, String.toList_ofList]
    rwa [hchars]
  · intro h
    have hends : Ends .identifier name.toList [] := nofun
    have hsplits := h.splits_name hends (@Splits.done (0 + Source.width name.toList) [])
    rw [List.append_nil] at hsplits
    exact ⟨0, scan_of_splits_end hsplits⟩

/-! ## 2. Texts in front of a comma or a parenthesis -/

/-- The characters behind an argument. -/
def closesArgument (c : Char) : Bool := c ∈ [',', ')']

theorem closesArgument_cases {c : Char} (h : closesArgument c = true) :
    continuesLiteral c = false ∧ continuesExponent c = false ∧ c.isAlphanum = false ∧
      isNumeric c = false := by
  have hmem : c ∈ [',', ')'] := by simpa [closesArgument] using h
  simp only [List.mem_cons, List.not_mem_nil, or_false] at hmem
  rcases hmem with rfl | rfl <;> decide

/-- A lexeme that ends in front of a text also ends there if more follows behind a comma or a
    parenthesis. -/
theorem Ends.append {kind : Kind} {lexeme rest : List Char} (h : Ends kind lexeme rest) {c : Char}
    (hc : closesArgument c = true) (more : List Char) : Ends kind lexeme (rest ++ c :: more) := by
  obtain ⟨hliteral, hexponent, halphanum, hnumeric⟩ := closesArgument_cases hc
  have hhead {p : Char → Bool} (hp : p c = false) (hrest : ∀ d ∈ rest.head?, p d = false) :
      ∀ d ∈ (rest ++ c :: more).head?, p d = false := by
    cases rest with
    | nil =>
      intro d hd
      cases hd
      exact hp
    | cons first rest => exact hrest
  cases kind with
  | literal =>
    by_cases he : 'e' ∈ lexeme
    · rw [Ends, if_pos he] at h ⊢
      exact hhead hexponent h
    · rw [Ends, if_neg he] at h ⊢
      refine ⟨hhead hliteral h.1, ?_⟩
      rintro ⟨mark, hmark, hbegins⟩
      rcases List.prefix_or_prefix_of_prefix hbegins (List.prefix_append _ _) with hle | ⟨tail, rfl⟩
      · exact h.2 ⟨mark, hmark, hle⟩
      · cases tail with
        | nil => exact h.2 ⟨rest, by simpa using hmark, List.prefix_rfl⟩
        | cons d tail =>
          -- the exponent would go on with the comma or the parenthesis
          obtain ⟨_, heq⟩ := (List.prefix_append_right_inj rest).1 hbegins
          cases heq
          have hmember : c ∈ rest ++ c :: tail := List.mem_append_right _ List.mem_cons_self
          rw [isNumeric_of_mark hmark hmember] at hnumeric
          cases hnumeric
  | identifier => exact hhead halphanum h
  | operator | comma | var => trivial

/-- **A text in front of a comma or a parenthesis has the tokens that it has on its own**, from whatever
    place on. -/
theorem Splits.before {position : Nat} {text rest : List Char} {tokens : List Token}
    (h : Splits position text tokens rest) (hrest : rest = []) {c : Char}
    (hc : closesArgument c = true) {more : List Char} {others : List Token} {place : Nat}
    (hmore : Splits (place + Source.width text) (c :: more) others []) :
    ∃ moved, Splits place (text ++ c :: more) (moved ++ others) [] ∧
      moved.map word = tokens.map word := by
  induction h generalizing place with
  | done =>
    subst hrest
    exact ⟨[], hmore, rfl⟩
  | blank hblank _ ih =>
    rw [Source.width_cons, ← Nat.add_assoc] at hmore
    obtain ⟨moved, hmoved, hwords⟩ := ih hrest hmore
    exact ⟨moved, .blank hblank hmoved, hwords⟩
  | @lexeme position lexeme text rest token tokens hfits hends _ htext _ ih =>
    rw [Source.width_append, ← Nat.add_assoc] at hmore
    obtain ⟨moved, hmoved, hwords⟩ := ih hrest hmore
    have hsplits : Splits place (lexeme ++ (text ++ c :: more))
        ({ token with position := place } :: (moved ++ others)) [] :=
      .lexeme hfits (hends.append hc more) rfl htext hmoved
    refine ⟨{ token with position := place } :: moved, ?_, by rw [List.map_cons, hwords]; rfl⟩
    rw [List.append_assoc]
    exact hsplits

/-! ## 3. Arguments -/

/-- The tokens of arguments with commas between them and a closing parenthesis behind them. -/
def enclosed : List (List Token) → List Token
  | [] => [⟨")", .operator, 0⟩]
  | [row] => row ++ [⟨")", .operator, 0⟩]
  | row :: next :: rows => row ++ ⟨",", .comma, 0⟩ :: enclosed (next :: rows)

/-- **Sources with commas between them and a parenthesis behind them have the tokens of each.** -/
theorem splits_enclosed {sources : List String} {rows : List (List Token)}
    (h : List.Forall₂ (fun source tokens => ofSource source = .ok tokens) sources rows)
    (position : Nat) :
    ∃ moved, Splits position ((",".intercalate sources).toList ++ [')']) moved [] ∧
      moved.map word = (enclosed rows).map word := by
  have hclosing (position : Nat) : Splits position [')'] [⟨")", .operator, position⟩] [] :=
    @Splits.lexeme position [')'] [] [] ⟨")", .operator, position⟩ [] (.operator rfl) trivial rfl rfl
      .done
  induction h generalizing position with
  | nil => exact ⟨_, hclosing position, rfl⟩
  | @cons source row sources rows hsource hrest ih =>
    have hsplits := splits_of_scan hsource
    cases hrest with
    | nil =>
      have hend := hclosing (position + Source.width source.toList)
      obtain ⟨moved, hmoved, hwords⟩ := hsplits.before rfl rfl hend
      rw [String.intercalate_singleton]
      refine ⟨_, hmoved, ?_⟩
      rw [List.map_append, hwords, enclosed, List.map_append]
      rfl
    | @cons next nextRow sources rows hnext hmore =>
      obtain ⟨others, hothers, hotherWords⟩ :=
        ih (position + Source.width source.toList + Source.width [','])
      have hcomma : Splits (position + Source.width source.toList)
          (',' :: ((",".intercalate (next :: sources)).toList ++ [')']))
          (⟨",", .comma, position + Source.width source.toList⟩ :: others) [] :=
        @Splits.lexeme _ [','] _ _ ⟨",", .comma, _⟩ _ .comma trivial rfl rfl hothers
      obtain ⟨moved, hmoved, hwords⟩ := hsplits.before rfl rfl hcomma
      have htext : (",".intercalate (source :: next :: sources)).toList ++ [')'] =
          source.toList ++ ',' :: ((",".intercalate (next :: sources)).toList ++ [')']) := by
        rw [String.intercalate_cons_cons, String.toList_append, String.toList_append,
          List.append_assoc, List.append_assoc]
        rfl
      rw [htext]
      refine ⟨_, hmoved, ?_⟩
      rw [List.map_append, hwords, List.map_cons, hotherWords, enclosed, List.map_append,
        List.map_cons]
      rfl

end Token

/-! ## 4. Calls -/

namespace Grammar

variable {registry : Registry}

/-- Phrases with commas between them and a parenthesis behind them are arguments. -/
theorem derivesArguments_enclosed {rows : List (List Token)} {es : List Expr}
    (h : List.Forall₂ (fun tokens e => Derives registry .sum tokens [] e) rows es) (hrows : rows ≠ []) :
    DerivesArguments registry (Token.enclosed rows) [] es := by
  have hclosing : OpensNothing [⟨")", .operator, 0⟩] := by
    intro next hnext
    cases hnext
    rfl
  have hcomma (rest : List Token) : OpensNothing (⟨",", .comma, 0⟩ :: rest) := by
    intro next hnext
    cases hnext
    rfl
  induction h with
  | nil => exact absurd rfl hrows
  | @cons row e rows es hrow hrest ih =>
    cases hrest with
    | nil => exact .last rfl (hrow.append hclosing)
    | cons hnext hmore =>
      exact .more rfl (hrow.append (hcomma _)) (ih (List.cons_ne_nil _ _))

open Reader in
/-- The arguments of a call are read up to the closing parenthesis. -/
theorem arguments_enclosed {rows : List (List Token)} {es : List Expr}
    (h : List.Forall₂ (fun tokens e => Derives registry .sum tokens [] e) rows es) (stop : Nat) :
    arguments registry stop (Token.enclosed rows) = .ok (es, []) := by
  cases h with
  | nil =>
    rw [Token.enclosed, arguments_cons]
    exact if_pos rfl
  | cons hrow hrest =>
    exact arguments_of_items
      (items_of_derives (derivesArguments_enclosed (.cons hrow hrest) (List.cons_ne_nil _ _)))

/-- A call, put together from the sources of its arguments. -/
def callText (name : String) (sources : List String) : String :=
  name ++ "(" ++ ",".intercalate sources ++ ")"

/-- The tokens of a call say what the name, the parentheses and the tokens of the arguments say. -/
theorem ofSource_callText {name : String} (hname : Token.IsName name) {sources : List String}
    {rows : List (List Token)}
    (h : List.Forall₂ (fun source tokens => Token.ofSource source = .ok tokens) sources rows) :
    ∃ tokens, Token.ofSource (callText name sources) = .ok tokens ∧
      tokens.map Token.word = Token.word ⟨name, .identifier, 0⟩ ::
        Token.word ⟨"(", .operator, 0⟩ :: (Token.enclosed rows).map Token.word := by
  obtain ⟨moved, hmoved, hwords⟩ :=
    Token.splits_enclosed h (0 + Source.width name.toList + Source.width ['('])
  have hopening : Token.Splits (0 + Source.width name.toList)
      ('(' :: ((",".intercalate sources).toList ++ [')']))
      (⟨"(", .operator, 0 + Source.width name.toList⟩ :: moved) [] :=
    @Token.Splits.lexeme _ ['('] _ _ ⟨"(", .operator, _⟩ _ (.operator rfl) trivial rfl rfl hmoved
  have hends : Token.Ends .identifier name.toList
      ('(' :: ((",".intercalate sources).toList ++ [')'])) := by
    intro c hc
    cases hc
    rfl
  have hsplits := (Token.isName_iff_fits.1 hname).splits_name hends hopening
  have htext : (callText name sources).toList =
      name.toList ++ '(' :: ((",".intercalate sources).toList ++ [')']) := by
    rw [callText, String.toList_append, String.toList_append, String.toList_append, List.append_assoc,
      List.append_assoc]
    rfl
  rw [← htext] at hsplits
  refine ⟨_, Token.scan_of_splits_end hsplits, ?_⟩
  rw [List.map_cons, List.map_cons, hwords]
  rfl

open Reader in
/-- **A call of a registered function is read exactly if the function accepts its arguments.** The sources
    of the arguments are any that are read on their own. -/
theorem ofSource_call {name : String} (hname : Token.IsName name) {function : Function}
    (hfunction : registry.function? name = some function) {sources : List String} {es : List Expr}
    (h : List.Forall₂ (fun source e => Expr.ofSource registry source = .ok e) sources es) :
    (Expr.ofSource registry (callText name sources)).mapError Fault.cause =
      if function.arity.accepts es.length then .ok (.call name es)
      else .error (.wrongArgumentCount name function.arity es.length) := by
  obtain ⟨rows, htokens, hderives⟩ : ∃ rows,
      List.Forall₂ (fun source tokens => Token.ofSource source = .ok tokens) sources rows ∧
      List.Forall₂ (fun tokens e => Derives registry .sum tokens [] e) rows es := by
    induction h with
    | nil => exact ⟨[], .nil, .nil⟩
    | cons hsource _ ih =>
      obtain ⟨rows, htokens, hderives⟩ := ih
      obtain ⟨row, hrow, hphrase⟩ := ofSource_iff_derives.1 hsource
      exact ⟨row :: rows, .cons hrow htokens, .cons hphrase hderives⟩
  obtain ⟨tokens, hsource, hwords⟩ := ofSource_callText hname htokens
  have hsame := @ofTokens_of_same_words registry
    (⟨name, .identifier, 0⟩ :: ⟨"(", .operator, 0⟩ :: Token.enclosed rows) tokens hwords 0
    (Source.width (callText name sources).toList)
  have hopening : Token.isSymbol ⟨"(", .operator, 0⟩ '(' = true := rfl
  have hunary : unary registry 0
      (⟨name, .identifier, 0⟩ :: ⟨"(", .operator, 0⟩ :: Token.enclosed rows) =
        finishCall ⟨name, .identifier, 0⟩ function (es, []) := by
    rw [unary_cons, if_neg (by simp [Token.isSymbol]), if_neg (by simp [Token.isSymbol]),
      primary_name_cons registry 0 rfl, if_pos hopening, call, hfunction]
    dsimp only
    rw [arguments_enclosed hderives]
    rfl
  rw [Expr.ofSource, hsource]
  dsimp only
  rw [hsame, ofTokens_eq, binary_eq, hunary, finishCall]
  split
  · simp [Except.bind, chain_nil, Except.mapError]
  · rfl

/-- **The name of a registered constant is read as the constant.** -/
theorem ofSource_name {name : String} (hname : Token.IsName name) {constant : Constant}
    (hconstant : registry.constant? name = some constant) :
    Expr.ofSource registry name = .ok (.constant name constant.value) := by
  obtain ⟨position, hsource⟩ := hname
  have hderives : Derives registry .primary [⟨name, .identifier, position⟩] []
      (.constant name constant.value) := .constant rfl nofun hconstant
  exact ofSource_iff_derives.2 ⟨_, hsource, hderives.toSum⟩

end Grammar

end Formula
