import Formula.Proofs.Grammar.Operands
import Formula.Proofs.Tree.Written

/-!
# Spelling a tree out

A tree is spelled in words, which are tokens without places. Every operator is written, and an operand
stands in parentheses where the typesetter would give it brackets if no form had boxes of its own. A
negation stands in parentheses everywhere, since its sign would otherwise take the operand only up
to the next operator.

`ofTokens_of_words` is the main statement: what is spelled in this way is read as the tree again, for
every written tree. `Spelled.of_written` carries the induction on the tree. It speaks of a phrase in
front of any tokens that do not open a parenthesis, since a name before a parenthesis would be a call,
and says how tight the phrase is, so that an operand without parentheses can be put to its operator.
-/

namespace Formula

/-! ## 1. Words -/

/-- A token without its place. -/
structure Word where
  kind : Token.Kind
  text : String
  deriving DecidableEq, Repr

/-- What a token says, wherever it stands. -/
def Token.word (token : Token) : Word := ⟨token.kind, token.text⟩

namespace Word

/-- An operator or a parenthesis. -/
def symbol (c : Char) : Word := ⟨.operator, String.ofList [c]⟩

/-- The name of a constant or a function. -/
def name (text : String) : Word := ⟨.identifier, text⟩

/-- The separator of arguments. -/
def comma : Word := ⟨.comma, ","⟩

/-- A variable. A name under `#` has its sigil already. -/
def var (name : String) : Word :=
  match name.toList with
  | ['#', _] => ⟨.var, name⟩
  | _ => ⟨.var, "$" ++ name⟩

/-- Words in parentheses. -/
def grouped (words : List Word) : List Word := symbol '(' :: words ++ [symbol ')']

end Word

namespace Expr

/-- Whether an operator stands at the root of a tree. -/
def isBinary : Expr → Bool
  | .binary _ _ _ => true
  | .number _ _ | .constant _ _ | .var _ | .call _ _ => false

/-- Whether a tree is a number without digits, as the zero of a negation is. -/
def isTextless : Expr → Bool
  | .number _ text => text.isEmpty
  | .constant _ _ | .var _ | .binary _ _ _ | .call _ _ => false

/-- Only the zero of a negation has no digits. -/
theorem Written.not_textless {registry : Registry} {e : Expr} (h : Written registry e) :
    e.isTextless = false := by
  cases h with
  | @number value text htext =>
    obtain ⟨d, more, htext, -⟩ := htext.shape
    have hne : text ≠ "" := by
      rintro rfl
      cases htext
    simpa [isTextless] using hne
  | constant | var | negation | binary | call => rfl

/-- The words of an operand, in parentheses where it is looser than its operator. -/
def operandWords (op : Operator) (side : Side) (e : Expr) (words : List Word) : List Word :=
  if Latex.needsBrackets { op with delimits := false } side e then Word.grouped words else words

/-- The words of an application of an operator. -/
def binaryWords (symbol : Char) (left right : Expr) (leftWords rightWords : List Word) :
    List Word :=
  if symbol = '-' ∧ left.isTextless = true then
    Word.grouped (Word.symbol '-' ::
      if right.isBinary then Word.grouped rightWords else rightWords)
  else
    match Operator.find? symbol with
    | none => []
    | some op =>
      operandWords op .left left leftWords ++
        Word.symbol symbol :: operandWords op .right right rightWords

mutual

/-- The words of a tree. -/
def words : Expr → List Word
  | .number _ text => [⟨.literal, text⟩]
  | .constant name _ => [Word.name name]
  | .var name => [Word.var name]
  | .binary symbol left right => binaryWords symbol left right left.words right.words
  | .call name arguments =>
    Word.name name :: Word.symbol '(' :: argumentWords arguments ++ [Word.symbol ')']

/-- The words of arguments, with commas between any two. -/
def argumentWords : List Expr → List Word
  | [] => []
  | [e] => e.words
  | e :: f :: rest => e.words ++ Word.comma :: argumentWords (f :: rest)

end

end Expr

/-! ## 2. Tokens of words -/

namespace Word

theorem isSymbol_of_word {token : Token} {c : Char} (h : token.word = symbol c)
    (hc : c.utf8Size = 1) : token.isSymbol c = true := by
  obtain ⟨text, kind, position⟩ := token
  cases h
  exact Token.isSymbol_iff.2 ⟨rfl, String.toList_ofList, hc⟩

/-- The tokens of a row of words, taken apart. -/
theorem map_word_cons {tokens : List Token} {word : Word} {words : List Word}
    (h : tokens.map Token.word = word :: words) :
    ∃ token rest, tokens = token :: rest ∧ token.word = word ∧ rest.map Token.word = words := by
  obtain ⟨token, rest, rfl, hword, hwords⟩ := List.map_eq_cons_iff.1 h
  exact ⟨token, rest, rfl, hword, hwords⟩

theorem map_word_grouped {tokens : List Token} {words : List Word}
    (h : tokens.map Token.word = grouped words) :
    ∃ opening inner closing, tokens = opening :: inner ++ [closing] ∧
      inner.map Token.word = words ∧ opening.isSymbol '(' = true ∧ closing.isSymbol ')' = true := by
  obtain ⟨opening, rest, rfl, hopening, hrest⟩ := map_word_cons h
  obtain ⟨inner, last, rfl, hinner, hlast⟩ := List.map_eq_append_iff.1 hrest
  obtain ⟨closing, after, rfl, hclosing, hafter⟩ := map_word_cons hlast
  obtain rfl := List.map_eq_nil_iff.1 hafter
  exact ⟨opening, inner, closing, rfl, hinner, isSymbol_of_word hopening (by decide),
    isSymbol_of_word hclosing (by decide)⟩

theorem kind_var (name : String) : (var name).kind = .var := by
  unfold var
  split <;> rfl

/-- A variable is read from its word. -/
theorem variableName_var (name : String) : Expr.variableName (var name).text = name := by
  unfold var
  split
  · rename_i c hname
    simp [Expr.variableName, hname]
  · simp [Expr.variableName, String.toList_append]

end Word

/-! ## 3. Phrases of words -/

namespace Grammar

open Formula.Expr

variable {registry : Registry} {stop : Nat}

/-- No parenthesis opens at the head of the tokens. -/
def OpensNothing (tokens : List Token) : Prop :=
  ∀ next ∈ tokens.head?, next.isSymbol '(' = false

theorem opensNothing_nil : OpensNothing [] := fun next hnext => by cases hnext

theorem opensNothing_symbol {token : Token} {c : Char} (h : token.isSymbol c = true) (hc : c ≠ '(')
    (rest : List Token) : OpensNothing (token :: rest) := by
  intro next hnext
  cases hnext
  exact Token.isSymbol_ne h hc

theorem opensNothing_kind {token : Token} (h : token.kind ≠ .operator) (rest : List Token) :
    OpensNothing (token :: rest) := by
  intro next hnext
  cases hnext
  exact Token.isSymbol_of_kind h

/-- The words of a tree make a phrase of it that is as tight as the tree. -/
def Spelled (registry : Registry) (e : Expr) : Prop :=
  ∀ tokens rest : List Token, tokens.map Token.word = e.words → OpensNothing rest →
    ∃ p : Phrase, e.level ≤ p.level ∧ Derives registry p (tokens ++ rest) rest e

/-- A tree in parentheses. -/
theorem Spelled.grouped {e : Expr} (h : Spelled registry e) {tokens : List Token}
    (htokens : tokens.map Token.word = Word.grouped e.words) (rest : List Token) :
    Derives registry .primary (tokens ++ rest) rest e := by
  obtain ⟨opening, inner, closing, rfl, hinner, hopening, hclosing⟩ :=
    Word.map_word_grouped htokens
  have hrest := opensNothing_symbol hclosing (by decide) rest
  obtain ⟨p, -, hp⟩ := h inner (closing :: rest) hinner hrest
  rw [List.append_assoc]
  exact .group hopening hclosing hp.toSum

/-- **An operand with its parentheses, if it needs any, is tight enough.** -/
theorem Spelled.operand {e : Expr} (h : Spelled registry e) {op : Operator}
    (hop : op ∈ Operator.table) {side : Side} {tokens rest : List Token}
    (htokens : tokens.map Token.word = operandWords op side e e.words)
    (hrest : OpensNothing rest) :
    ∃ p : Phrase, op.operandPrecedence side ≤ p.level ∧
      Derives registry p (tokens ++ rest) rest e := by
  unfold operandWords at htokens
  split at htokens
  · exact ⟨.primary, Latex.operandPrecedence_le hop side, h.grouped htokens rest⟩
  · rename_i hbrackets
    obtain ⟨p, hlevel, hp⟩ := h tokens rest htokens hrest
    have htight := Latex.level_of_not_needsBrackets hop (Bool.eq_false_iff.2 hbrackets)
    exact ⟨p, Nat.le_trans htight hlevel, hp⟩

/-- An operator between its operands. -/
theorem Spelled.binary {symbol : Char} {op : Operator} {left right : Expr}
    (hop : Operator.find? symbol = some op) (hleft : Spelled registry left)
    (hright : Spelled registry right) (htextless : left.isTextless = false) :
    Spelled registry (.binary symbol left right) := by
  intro tokens rest htokens hrest
  have hmem := Operator.find?_mem hop
  have hsymbol := Operator.find?_symbol hop
  have hnot : ¬ (symbol = '-' ∧ left.isTextless = true) := by simp [htextless]
  rw [words, binaryWords, if_neg hnot, hop] at htokens
  obtain ⟨ltokens, others, rfl, hl, hothers⟩ := List.map_eq_append_iff.1 htokens
  obtain ⟨token, rtokens, rfl, htoken, hr⟩ := Word.map_word_cons hothers
  have hsize := Operator.symbol_utf8Size hmem
  rw [hsymbol] at hsize
  have hoperator := Word.isSymbol_of_word htoken hsize
  have hopening : symbol ≠ '(' := by
    rintro rfl
    cases hop
  have hmiddle := opensNothing_symbol hoperator hopening (rtokens ++ rest)
  obtain ⟨p, hp, hlderives⟩ := hleft.operand hmem hl hmiddle
  obtain ⟨q, hq, hrderives⟩ := hright.operand hmem hr hrest
  have hlevel : (Expr.binary symbol left right).level = op.precedence := by rw [level, hop]
  rw [hlevel, List.append_assoc]
  exact hlderives.operated hop hoperator hp hrderives hq

/-- A sign in front of an operand, in parentheses. -/
theorem Spelled.negation {operand : Expr} (h : Spelled registry operand) :
    Spelled registry (.negation operand) := by
  intro tokens rest htokens _
  have hwords : (Expr.negation operand).words = Word.grouped (Word.symbol '-' ::
      if operand.isBinary then Word.grouped operand.words else operand.words) := by
    rw [Expr.negation, words, binaryWords, if_pos ⟨rfl, rfl⟩]
  rw [hwords] at htokens
  obtain ⟨opening, inner, closing, rfl, hinner, hopening, hclosing⟩ :=
    Word.map_word_grouped htokens
  obtain ⟨sign, others, rfl, hsign, hothers⟩ := Word.map_word_cons hinner
  have hminus := Word.isSymbol_of_word hsign (by decide)
  have hclosed := opensNothing_symbol hclosing (by decide) rest
  have hoperand : Derives registry .signed (others ++ closing :: rest) (closing :: rest) operand := by
    split at hothers
    · exact .primary (h.grouped hothers (closing :: rest))
    · rename_i hbinary
      obtain ⟨p, hlevel, hp⟩ := h others (closing :: rest) hothers hclosed
      have hleaf : operand.level = 62 := by
        cases operand with
        | binary => exact absurd rfl hbinary
        | number | constant | var | call => rfl
      exact hp.toSigned (by omega)
  refine ⟨.primary, show 20 ≤ 62 by decide, ?_⟩
  have hsum := (Derives.minus hminus hoperand).toSum
  rw [List.append_assoc]
  exact .group hopening hclosing hsum

/-- Arguments with commas between any two, up to a closing parenthesis. -/
theorem Spelled.arguments {closing : Token} (hclosing : closing.isSymbol ')' = true)
    (rest : List Token) : ∀ {es : List Expr}, es ≠ [] → (∀ e ∈ es, Spelled registry e) →
    ∀ {tokens : List Token}, tokens.map Token.word = argumentWords es →
      DerivesArguments registry (tokens ++ closing :: rest) rest es
  | [e], _, h, tokens, htokens => by
    have hclosed := opensNothing_symbol hclosing (by decide) rest
    obtain ⟨p, -, hp⟩ := h e List.mem_cons_self tokens (closing :: rest) htokens hclosed
    exact .last hclosing hp.toSum
  | e :: f :: es, _, h, tokens, htokens => by
    obtain ⟨he, hes⟩ := List.forall_mem_cons.1 h
    obtain ⟨etokens, others, rfl, hetokens, hothers⟩ := List.map_eq_append_iff.1 htokens
    obtain ⟨comma, more, rfl, hcomma, hmore⟩ := Word.map_word_cons hothers
    have hkind : comma.kind = .comma := congrArg Word.kind hcomma
    have hnoperator : comma.kind ≠ .operator := by simp [hkind]
    have hnext := opensNothing_kind hnoperator (more ++ closing :: rest)
    obtain ⟨p, -, hp⟩ := he etokens _ hetokens hnext
    have hrest := Spelled.arguments hclosing rest (List.cons_ne_nil f es) hes hmore
    rw [List.append_assoc]
    exact .more hkind hp.toSum hrest

/-- A name in front of its arguments in parentheses. -/
theorem Spelled.call {name : String} {function : Function} {arguments : List Expr}
    (hfunction : registry.function? name = some function)
    (harity : function.arity.accepts arguments.length = true)
    (h : ∀ a ∈ arguments, Spelled registry a) : Spelled registry (.call name arguments) := by
  intro tokens rest htokens _
  rw [words] at htokens
  obtain ⟨nameToken, others, rfl, hname, hothers⟩ := Word.map_word_cons htokens
  obtain ⟨opening, inner, rfl, hopening, hinner⟩ := Word.map_word_cons hothers
  obtain ⟨atokens, last, rfl, hatokens, hlast⟩ := List.map_eq_append_iff.1 hinner
  obtain ⟨closing, after, rfl, hclosing, hafter⟩ := Word.map_word_cons hlast
  obtain rfl := List.map_eq_nil_iff.1 hafter
  have hkind : nameToken.kind = .identifier := congrArg Word.kind hname
  have htext : nameToken.text = name := congrArg Word.text hname
  have hopens := Word.isSymbol_of_word hopening (by decide)
  have hcloses := Word.isSymbol_of_word hclosing (by decide)
  refine ⟨.primary, Nat.le_refl _, ?_⟩
  rw [← htext] at hfunction ⊢
  cases arguments with
  | nil =>
    obtain rfl := List.map_eq_nil_iff.1 hatokens
    exact .callEmpty hkind hopens hcloses hfunction harity
  | cons a more =>
    have harguments := Spelled.arguments hcloses rest (List.cons_ne_nil a more) h hatokens
    simp only [List.cons_append, List.append_assoc, List.nil_append]
    exact .call hkind hopens hfunction harity harguments

/-- **Every written tree is spelled as a phrase of its own.** -/
theorem Spelled.of_written {e : Expr} (h : Written registry e) : Spelled registry e := by
  induction h with
  | @number value text _ hvalue =>
    intro tokens rest htokens _
    obtain ⟨token, after, rfl, htoken, hafter⟩ := Word.map_word_cons htokens
    obtain rfl := List.map_eq_nil_iff.1 hafter
    have htext : token.text = text := congrArg Word.text htoken
    rw [← htext] at hvalue ⊢
    exact ⟨.primary, Nat.le_refl _, .literal (congrArg Word.kind htoken) hvalue⟩
  | @constant name found hfound =>
    intro tokens rest htokens hrest
    obtain ⟨token, after, rfl, htoken, hafter⟩ := Word.map_word_cons htokens
    obtain rfl := List.map_eq_nil_iff.1 hafter
    have htext : token.text = name := congrArg Word.text htoken
    rw [← htext] at hfound ⊢
    exact ⟨.primary, Nat.le_refl _, .constant (congrArg Word.kind htoken) hrest hfound⟩
  | var name =>
    intro tokens rest htokens _
    obtain ⟨token, after, rfl, htoken, hafter⟩ := Word.map_word_cons htokens
    obtain rfl := List.map_eq_nil_iff.1 hafter
    have htext : token.text = (Word.var name).text := congrArg Word.text htoken
    have hkind : token.kind = .var := (congrArg Word.kind htoken).trans (Word.kind_var name)
    have hderives : Derives registry .primary (token :: rest) rest _ := .var hkind
    rw [htext, Word.variableName_var] at hderives
    exact ⟨.primary, Nat.le_refl _, hderives⟩
  | negation _ ih => exact ih.negation
  | binary hop hleft _ ihleft ihright => exact ihleft.binary hop ihright hleft.not_textless
  | call hfunction harity _ ih => exact .call hfunction harity ih

end Grammar

/-! ## 4. Reading back -/

/-- **A written tree is read back from its words.** The typesetter's rule for brackets and the reader's
    grouping agree. -/
theorem Expr.ofTokens_of_words {registry : Registry} {stop : Nat} {e : Expr}
    (h : Written registry e) {tokens : List Token} (htokens : tokens.map Token.word = e.words) :
    ofTokens registry stop tokens = .ok e := by
  obtain ⟨p, -, hp⟩ := Grammar.Spelled.of_written h tokens [] htokens Grammar.opensNothing_nil
  rw [List.append_nil] at hp
  exact Grammar.ofTokens_of_derives hp.toSum

namespace Expr

/-- The tree of `max($x, 2.5) - (-#i - pi)`. -/
def difference : Expr :=
  .binary '-' (.call "max" [.var "x", .number (Double.ofCode false (Decimal.code ⟨25, -1⟩)) "2.5"])
    (.binary '-' (.negation (.var "#i")) (.constant "pi" 3.141592653589793))

/-- The tokens of `max($x, 2.5) - ((-#i) - pi)`, all at one place. -/
def differenceTokens : List Token :=
  [⟨"max", .identifier, 0⟩, ⟨"(", .operator, 0⟩, ⟨"$x", .var, 0⟩, ⟨",", .comma, 0⟩,
    ⟨"2.5", .literal, 0⟩, ⟨")", .operator, 0⟩, ⟨"-", .operator, 0⟩, ⟨"(", .operator, 0⟩,
    ⟨"(", .operator, 0⟩, ⟨"-", .operator, 0⟩, ⟨"#i", .var, 0⟩, ⟨")", .operator, 0⟩,
    ⟨"-", .operator, 0⟩, ⟨"pi", .identifier, 0⟩, ⟨")", .operator, 0⟩]

/-- The subtraction on the right is put in parentheses, and the negation in it once only. -/
theorem ofTokens_of_words_difference :
    Written .standard difference ∧ differenceTokens.map Token.word = difference.words ∧
      ofTokens .standard 27 differenceTokens = .ok difference := by
  have hnumber : Written .standard
      (.number (Double.ofCode false (Decimal.code ⟨25, -1⟩)) "2.5") :=
    .number ⟨['2', '.', '5'], .plain rfl (List.all_eq_true.1 rfl), rfl⟩ rfl
  have hmax : Written .standard (.call "max" [.var "x", .number _ "2.5"]) :=
    .call rfl rfl (List.forall_mem_cons.2 ⟨.var "x", List.forall_mem_singleton.2 hnumber⟩)
  have hpi : Written .standard (.constant "pi" 3.141592653589793) :=
    @Written.constant .standard "pi" ⟨3.141592653589793, "\\pi"⟩ rfl
  have hdifference : Written .standard difference :=
    .binary rfl hmax (.binary rfl (.negation (.var "#i")) hpi)
  have hwords : differenceTokens.map Token.word = difference.words := by decide
  exact ⟨hdifference, hwords, ofTokens_of_words hdifference hwords⟩

end Expr

end Formula
