import Formula.Latex
import Formula.Proofs.Tree.Written

/-!
# The signs of typeset formulas

A typeset formula is read back from left to right, sign by sign, as a row of tokens. A sign is one of the
fixed texts that typesetting writes: a delimiter, an operator with its blanks, the opening of a
notation. What is between signs is the text of a leaf, which is read as a variable of that name.

* The text after a `-` without a left operand is read after a variable without a name, which stands
  for the zero of the negation.
* A box is read as two parentheses: the outer ones hold all boxes of a notation together, the inner
  ones hold one. So the boundary of two boxes closes one parenthesis and opens another.
* No sign is the beginning of another one (`prefixFree`). Only the end of a last box, a lone brace,
  begins other signs; it is told from these by what may follow a formula (`Closes`).

`ReadsAs.unique` is the main statement: a text is read as one row of tokens only.
-/

namespace Formula.Latex

/-! ## 1. Tokens -/

/-- An operator or a parenthesis, nowhere in particular. -/
def mark (c : Char) : Token := ⟨String.ofList [c], .operator, 0⟩

/-- The separator of arguments. -/
def comma : Token := ⟨",", .comma, 0⟩

/-- The name of a function. -/
def named (name : String) : Token := ⟨name, .identifier, 0⟩

/-- A variable that stands for a leaf with the given text. -/
def leaf (text : String) : Token := ⟨"$" ++ text, .var, 0⟩

theorem isSymbol_mark {c : Char} (hc : c.utf8Size = 1) : (mark c).isSymbol c = true :=
  Token.isSymbol_iff.2 ⟨rfl, String.toList_ofList, hc⟩

theorem variableName_leaf (text : String) : Expr.variableName (leaf text).text = text := by
  simp [Expr.variableName, leaf, String.toList_append]

/-! ## 2. Calls of builtin functions -/

/-- The functions that are typeset as a command applied to its arguments. -/
def commands : List (String × String) :=
  [ ("sin", "\\sin"), ("cos", "\\cos"), ("tan", "\\tan"), ("cot", "\\cot"), ("sec", "\\sec"),
    ("csc", "\\csc"), ("round", "\\operatorname\x7bround\x7d"), ("max", "\\max"), ("min", "\\min") ]

/-- The functions that are typeset as delimiters around their argument. -/
def delimiters : List (String × String × String) :=
  [ ("abs", "\\left|", "\\right|"),
    ("ceil", "\\left\\lceil ", "\\right\\rceil"),
    ("floor", "\\left\\lfloor ", "\\right\\rfloor"),
    ("sqrt", "\\sqrt\x7b", "\x7d"),
    ("cbrt", "\\sqrt[3]\x7b", "\x7d") ]

/-- How the calls of a builtin function are typeset. -/
inductive CallStyle : String → Function → Prop
  | applied {name command : String} {function : Function} (hname : (name, command) ∈ commands)
      (hform : function.form = some (Row.applied command).form) : CallStyle name function
  | delimited {name opening closing : String} {function : Function}
      (hname : (name, opening, closing) ∈ delimiters) (harity : function.arity = .exactly 1)
      (hform : function.form = some (Row.delimited opening closing).form) : CallStyle name function
  | logarithm {function : Function} (harity : function.arity = .exactly 2)
      (hform : function.form = some Builtin.logarithmRow.form) : CallStyle "log" function

/-- **Every builtin function but `noerr` and `sum` is typeset in one of three ways.** -/
theorem callStyle {name : String} {function : Function} (h : (name, function) ∈ Builtin.table)
    (hname : name ∉ ["noerr", "sum"]) : CallStyle name function := by
  have hall : ∀ entry ∈ Builtin.table, entry.1 ∉ ["noerr", "sum"] → CallStyle entry.1 entry.2 := by
    have hcommand {name command : String} {function : Function} (h : (name, command) ∈ commands)
        (hform : function.form = some (Row.applied command).form) :
        name ∉ ["noerr", "sum"] → CallStyle name function := fun _ => .applied h hform
    have hdelimited {name opening closing : String} {function : Function}
        (h : (name, opening, closing) ∈ delimiters) (harity : function.arity = .exactly 1)
        (hform : function.form = some (Row.delimited opening closing).form) :
        name ∉ ["noerr", "sum"] → CallStyle name function := fun _ => .delimited h harity hform
    simp only [Builtin.table, List.forall_mem_cons]
    -- one entry after the other, in the order of the table
    refine ⟨hcommand ?_ rfl, hcommand ?_ rfl, hcommand ?_ rfl, hcommand ?_ rfl, hcommand ?_ rfl,
      hcommand ?_ rfl, hdelimited ?_ rfl rfl, hdelimited ?_ rfl rfl, hdelimited ?_ rfl rfl,
      hcommand ?_ rfl, hdelimited ?_ rfl rfl, hdelimited ?_ rfl rfl, fun h => absurd ?_ h,
      hcommand ?_ rfl, hcommand ?_ rfl, fun h => absurd ?_ h, fun _ => .logarithm rfl rfl,
      List.forall_mem_nil _⟩
    all_goals decide
  exact hall (name, function) h hname

/-! ## 3. Signs -/

/-- A text that typesetting writes, and the tokens that it is read as. -/
structure Sign where
  text : String
  tokens : List Token
  deriving DecidableEq

/-- The tokens at the beginning of a notation whose first box follows. -/
def opened (tokens : List Token) : List Token := tokens ++ [mark '(', mark '(']

/-- The tokens at the end of a last box. -/
def closed : List Token := [mark ')', mark ')']

/-- The signs of brackets, operators, boxes and logarithms, and the constants that are commands. -/
def fixedSigns : List Sign :=
  [ ⟨"\\left(", [mark '(']⟩, ⟨"\\right)", [mark ')']⟩, ⟨", ", [comma]⟩,
    ⟨" + ", [mark '+']⟩, ⟨" - ", [mark '-']⟩, ⟨" \\cdot ", [mark '*']⟩, ⟨" \\bmod ", [mark '%']⟩,
    ⟨"-", [leaf "", mark '-']⟩,
    ⟨"\\frac\x7b", opened []⟩, ⟨"\x7d\x7b", [mark ')', mark '/', mark '(']⟩,
    ⟨"\x7b", opened []⟩, ⟨"\x7d^\x7b", [mark ')', mark '^', mark '(']⟩,
    ⟨"\\log_\x7b", [named "log", mark '(']⟩, ⟨"\x7d\\left(", [comma]⟩,
    ⟨"\\right|", closed⟩, ⟨"\\right\\rceil", closed⟩, ⟨"\\right\\rfloor", closed⟩,
    ⟨"\\pi", [leaf "\\pi"]⟩, ⟨"\\infty", [leaf "\\infty"]⟩ ]

/-- All signs but the end of a last box. -/
def signs : List Sign :=
  fixedSigns ++
    commands.map (fun (name, command) => ⟨command ++ "\\left(", [named name, mark '(']⟩) ++
    delimiters.map fun (name, opening, _) => ⟨opening, opened [named name]⟩

theorem mem_signs {sign : Sign} (h : sign ∈ fixedSigns) : sign ∈ signs :=
  List.mem_append_left _ (List.mem_append_left _ h)

/-- **No sign is the beginning of another one.** -/
theorem prefixFree : ∀ a ∈ signs, ∀ b ∈ signs, a.text.toList <+: b.text.toList → a = b := by
  decide +kernel

/-- What may follow a formula inside of another one. -/
def closers : List String := [" ", "\x7d", ",", "\\r"]

/-- A text that may follow a formula. -/
def Closes (rest : List Char) : Prop := rest = [] ∨ ∃ closer ∈ closers, closer.toList <+: rest

theorem closes_append {text : String} (h : ∃ closer ∈ closers, closer.toList <+: text.toList)
    (rest : List Char) : Closes (text.toList ++ rest) := by
  obtain ⟨closer, hcloser, htext⟩ := h
  exact .inr ⟨closer, hcloser, htext.trans (List.prefix_append _ _)⟩

/-- What follows a formula does not continue a leaf. -/
theorem Closes.not_isNumeric {rest : List Char} (h : Closes rest) :
    ∀ c ∈ rest.head?, Token.isNumeric c = false := by
  rcases h with rfl | ⟨closer, hcloser, more, rfl⟩
  · intro c hc
    cases hc
  · have hall : ∀ closer ∈ closers, ∃ c tail, closer.toList = c :: tail ∧
        Token.isNumeric c = false := by
      simp only [closers, List.forall_mem_cons]
      exact ⟨⟨_, _, rfl, rfl⟩, ⟨_, _, rfl, rfl⟩, ⟨_, _, rfl, rfl⟩, ⟨_, _, rfl, rfl⟩,
        List.forall_mem_nil _⟩
    obtain ⟨c, tail, htext, hc⟩ := hall closer hcloser
    rw [htext]
    intro other hother
    cases hother
    exact hc

/-- How an operator is typeset, given that its left operand is not empty. -/
inductive OperatorStyle (op : Operator) : Prop
  | infixed {sign : String} (hsign : ⟨sign, [mark op.symbol]⟩ ∈ signs)
      (hcloser : ∃ closer ∈ closers, closer.toList <+: sign.toList) (hdelimits : op.delimits = false)
      (htypeset : ∀ l r, l ≠ "" → op.typeset l r = l ++ sign ++ r)
  | boxed {opening middle : String} (hopening : ⟨opening, opened []⟩ ∈ signs)
      (hmiddle : ⟨middle, [mark ')', mark op.symbol, mark '(']⟩ ∈ signs)
      (hcloser : ∃ closer ∈ closers, closer.toList <+: middle.toList)
      (htypeset : ∀ l r, op.typeset l r = opening ++ l ++ middle ++ r ++ "\x7d")

theorem typesetSubtraction_of_ne (l r : String) (hl : l ≠ "") :
    Operator.typesetSubtraction l r = l ++ " - " ++ r := by
  simp [Operator.typesetSubtraction, hl]

/-- **Every operator is a sign between its operands, or has a box for each.** -/
theorem operatorStyle {op : Operator} (h : op ∈ Operator.table) : OperatorStyle op := by
  simp only [Operator.table, List.mem_cons, List.not_mem_nil, or_false] at h
  rcases h with rfl | rfl | rfl | rfl | rfl | rfl
  · exact .infixed (@mem_signs ⟨" + ", _⟩ (by decide)) (by decide) rfl fun _ _ _ => rfl
  · exact .infixed (@mem_signs ⟨" - ", _⟩ (by decide)) (by decide) rfl
      typesetSubtraction_of_ne
  · exact .infixed (@mem_signs ⟨" \\cdot ", _⟩ (by decide)) (by decide) rfl fun _ _ _ => rfl
  · exact .boxed (@mem_signs ⟨"\\frac\x7b", _⟩ (by decide)) (@mem_signs ⟨"\x7d\x7b", _⟩ (by decide))
      (by decide) fun _ _ => rfl
  · exact .infixed (@mem_signs ⟨" \\bmod ", _⟩ (by decide)) (by decide) rfl fun _ _ _ => rfl
  · exact .boxed (@mem_signs ⟨"\x7b", _⟩ (by decide)) (@mem_signs ⟨"\x7d^\x7b", _⟩ (by decide))
      (by decide) fun _ _ => rfl

/-! ## 4. The beginning of a text -/

/-- Whether a text begins with a sign. -/
def Sign.begins (text : List Char) (sign : Sign) : Bool := sign.text.toList.isPrefixOf text

theorem Sign.begins_iff {text : List Char} {sign : Sign} :
    Sign.begins text sign = true ↔ sign.text.toList <+: text := List.isPrefixOf_iff_prefix

/-- What is read at the beginning of a text, and the text after it. -/
def read : List Char → List Token × List Char
  | [] => ([], [])
  | c :: text =>
    match signs.find? (Sign.begins (c :: text)) with
    | some sign => (sign.tokens, (c :: text).drop sign.text.toList.length)
    | none =>
      if c = '\x7d' then (closed, text)
      else ([leaf (String.ofList (c :: text.takeWhile Token.isNumeric))],
        text.dropWhile Token.isNumeric)

/-- A sign is found in front of any text. -/
theorem find?_sign {sign : Sign} (h : sign ∈ signs) (rest : List Char) :
    signs.find? (Sign.begins (sign.text.toList ++ rest)) = some sign := by
  have hbegins : Sign.begins (sign.text.toList ++ rest) sign = true :=
    Sign.begins_iff.2 (List.prefix_append _ _)
  obtain ⟨found, hfound⟩ := Option.isSome_iff_exists.1 (List.find?_isSome.2 ⟨sign, h, hbegins⟩)
  have hmem := List.mem_of_find?_eq_some hfound
  have hprefix := Sign.begins_iff.1 (List.find?_some hfound)
  rcases List.prefix_or_prefix_of_prefix hprefix (List.prefix_append _ _) with hle | hle
  · rw [hfound, prefixFree found hmem sign h hle]
  · rw [hfound, ← prefixFree sign h found hmem hle]

/-- No sign begins with a letter or a digit. -/
theorem find?_leaf {c : Char} (hc : c.isAlphanum = true) (text : List Char) :
    signs.find? (Sign.begins (c :: text)) = none := by
  have hall : ∀ sign ∈ signs, sign.text.toList.head?.any (fun d => !d.isAlphanum) = true := by
    decide +kernel
  refine List.find?_eq_none.2 fun sign hsign hbegins => ?_
  have hfirst := hall sign hsign
  obtain ⟨more, hmore⟩ := Sign.begins_iff.1 hbegins
  cases htext : sign.text.toList with
  | nil => rw [htext] at hfirst; cases hfirst
  | cons d tail =>
    rw [htext] at hfirst hmore
    cases hmore
    simp [hc] at hfirst

/-- No sign begins with the end of a last box. -/
theorem find?_brace {rest : List Char} (h : Closes rest) :
    signs.find? (Sign.begins ('\x7d' :: rest)) = none := by
  have hend : ∀ sign ∈ signs, ¬ sign.text.toList <+: ['\x7d'] := by decide +kernel
  have hcloser : ∀ sign ∈ signs, ∀ closer ∈ closers,
      ¬ sign.text.toList <+: '\x7d' :: closer.toList ∧
        ¬ '\x7d' :: closer.toList <+: sign.text.toList := by decide +kernel
  refine List.find?_eq_none.2 fun sign hsign hbegins => ?_
  have hprefix := Sign.begins_iff.1 hbegins
  rcases h with rfl | ⟨closer, hmem, hrest⟩
  · exact hend sign hsign hprefix
  · obtain ⟨hbefore, hafter⟩ := hcloser sign hsign closer hmem
    rcases List.prefix_or_prefix_of_prefix hprefix (List.prefix_cons_inj _ |>.2 hrest) with hle | hle
    · exact hbefore hle
    · exact hafter hle

/-! ## 5. Whole texts -/

/-- The tokens that a text is read as, from its beginning to its end. -/
inductive ReadsAs : List Char → List Token → Prop
  | done : ReadsAs [] []
  | step {text : List Char} {tokens : List Token} (htext : text ≠ []) :
      ReadsAs (read text).2 tokens → ReadsAs text ((read text).1 ++ tokens)

namespace ReadsAs

/-- **A text is read as one row of tokens only.** -/
theorem unique {text : List Char} {first second : List Token} (h : ReadsAs text first)
    (hother : ReadsAs text second) : first = second := by
  induction h generalizing second with
  | done =>
    cases hother with
    | done => rfl
    | step htext => exact absurd rfl htext
  | step htext _ ih =>
    cases hother with
    | done => exact absurd rfl htext
    | step _ hrest => rw [ih hrest]

variable {rest : List Char} {tokens : List Token}

/-- Reading on after a beginning. -/
theorem of_read {text : List Char} {first : List Token} (htext : text ≠ [])
    (hread : read text = (first, rest)) (hrest : ReadsAs rest tokens) :
    ReadsAs text (first ++ tokens) := by
  have h := @step text tokens htext
  rw [hread] at h
  exact h hrest

theorem sign {sign : Sign} (h : sign ∈ signs) (hrest : ReadsAs rest tokens) :
    ReadsAs (sign.text.toList ++ rest) (sign.tokens ++ tokens) := by
  have hall : ∀ sign ∈ signs, sign.text.toList ≠ [] := by decide +kernel
  have hfind := find?_sign h rest
  cases htext : sign.text.toList with
  | nil => exact absurd htext (hall sign h)
  | cons c text =>
    rw [htext, List.cons_append] at hfind
    refine of_read (List.cons_ne_nil _ _) ?_ hrest
    rw [List.cons_append, read, hfind]
    dsimp only
    rw [htext, ← List.cons_append, List.drop_left]

theorem brace (h : Closes rest) (hrest : ReadsAs rest tokens) :
    ReadsAs ('\x7d' :: rest) (closed ++ tokens) := by
  refine of_read (List.cons_ne_nil _ _) ?_ hrest
  rw [read, find?_brace h]
  exact if_pos rfl

theorem run {c : Char} {more : List Char} (hc : c.isAlphanum = true)
    (hmore : ∀ d ∈ more, Token.isNumeric d = true) (h : Closes rest) (hrest : ReadsAs rest tokens) :
    ReadsAs (c :: more ++ rest) (leaf (String.ofList (c :: more)) :: tokens) := by
  obtain ⟨htake, hdrop⟩ := Token.takeWhile_run hmore h.not_isNumeric
  have hbrace : c ≠ '\x7d' := by
    rintro rfl
    cases hc
  refine @of_read rest tokens (c :: more ++ rest) [_] (List.cons_ne_nil _ _) ?_ hrest
  rw [List.cons_append, read, find?_leaf hc]
  dsimp only
  rw [if_neg hbrace, htake, hdrop]

end ReadsAs

end Formula.Latex
