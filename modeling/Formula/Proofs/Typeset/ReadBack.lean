import Formula.Proofs.Grammar.Completeness
import Formula.Proofs.Grammar.Operands
import Formula.Proofs.Typeset.Signs
import Mathlib.Data.List.Forall2

/-!
# Reading typeset formulas back

How the parts of a typeset formula are read, each way of putting texts together apart. A text is read
back as a tree (`ReadsBack`) if it is read as tokens, in front of all that may follow a formula, and if
these tokens make a phrase of the tree, whatever follows them. The phrase is as tight as the given
level, so that it can be put to an operator without brackets.

* A text that ends in a sign may be followed by anything, a text that ends in a leaf or in the end of a
  box only by what closes it. `Reads` says which.
* `ReadsBack.binary` is about operators, `ReadsBack.applied`, `ReadsBack.delimited` and
  `ReadsBack.logarithm` are about calls.
-/

namespace Formula

/-! ## 1. Pieces -/

namespace Piece

/-- Texts with a separator between any two. -/
def row (separator : String) : List String → String
  | [] => ""
  | [only] => only
  | first :: second :: others => first ++ separator ++ row separator (second :: others)

theorem join_append (arguments : List String) (pieces more : List Piece) :
    join arguments (pieces ++ more) = join arguments pieces ++ join arguments more := by
  induction pieces with
  | nil => simp [join]
  | cons piece pieces ih =>
    cases piece with
    | text => rw [List.cons_append, join, join, ih, String.append_assoc]
    | argument => rw [List.cons_append, join, join, ih, String.append_assoc]

/-- The separated arguments from an index on are the texts from there on. -/
theorem join_separated (separator : String) (before : List String) : ∀ texts : List String,
    join (before ++ texts) (separated separator texts.length before.length) = row separator texts
  | [] => rfl
  | [only] => by simp [separated, join, row]
  | first :: second :: others => by
    have ih := join_separated separator (before ++ [first]) (second :: others)
    have hfirst : (before ++ first :: second :: others)[before.length]?.getD "" = first := by simp
    rw [List.length_append, List.append_assoc] at ih
    rw [row, ← ih, List.length_cons, List.length_cons, separated, join, join, hfirst,
      String.append_assoc]
    rfl

end Piece

namespace Latex

/-! ## 2. Texts as tokens -/

/-- A text is read as the given tokens in front of all that may follow it. -/
def Reads (follow : List Char → Prop) (text : String) (tokens : List Token) : Prop :=
  ∀ rest more, follow rest → ReadsAs rest more → ReadsAs (text.toList ++ rest) (tokens ++ more)

/-- No condition on what follows. -/
def Anything (_ : List Char) : Prop := True

namespace Reads

variable {follow : List Char → Prop} {a b : String} {s t : List Token}

theorem closes (h : Reads Anything a s) : Reads Closes a s :=
  fun rest more _ hrest => h rest more trivial hrest

theorem empty : Reads Anything "" [] := fun _ _ _ hrest => hrest

theorem sign (h : ⟨a, s⟩ ∈ signs) : Reads Anything a s := fun _ _ _ hrest => .sign h hrest

theorem fixed (h : ⟨a, s⟩ ∈ fixedSigns) : Reads Anything a s := .sign (mem_signs h)

theorem brace : Reads Closes "\x7d" closed := fun _ _ hcloses hrest => .brace hcloses hrest

/-- A text after one that may be followed by anything. -/
theorem append (ha : Reads Anything a s) (hb : Reads follow b t) :
    Reads follow (a ++ b) (s ++ t) := by
  intro rest more hfollow hrest
  rw [String.toList_append, List.append_assoc, List.append_assoc]
  exact ha _ _ trivial (hb rest more hfollow hrest)

/-- A text that closes the one before it. -/
theorem close (ha : Reads Closes a s) (hb : Reads follow b t)
    (hcloser : ∃ closer ∈ closers, closer.toList <+: b.toList) :
    Reads follow (a ++ b) (s ++ t) := by
  intro rest more hfollow hrest
  rw [String.toList_append, List.append_assoc, List.append_assoc]
  exact ha _ _ (closes_append hcloser rest) (hb rest more hfollow hrest)

end Reads

/-! ## 3. Tokens as phrases -/

/-- The tokens make a phrase of the tree that is at least as tight as the given level. -/
def Makes (level : Nat) (tokens : List Token) (e : Expr) : Prop :=
  ∀ rest, ∃ p : Phrase, level ≤ p.level ∧ Derives .standard p (tokens ++ rest) rest e

/-- The tokens make a row of arguments in front of a closing parenthesis. -/
def MakesArguments (tokens : List Token) (es : List Expr) : Prop :=
  ∀ rest, DerivesArguments .standard (tokens ++ mark ')' :: rest) rest es

namespace Makes

variable {m n : Nat} {s t : List Token} {e f : Expr}

theorem mono (h : Makes n s e) (hle : m ≤ n) : Makes m s e := by
  intro rest
  obtain ⟨p, hp, hderives⟩ := h rest
  exact ⟨p, Nat.le_trans hle hp, hderives⟩

theorem leaf (text : String) : Makes 62 [leaf text] (.var text) := by
  intro rest
  have h : Derives .standard .primary (Latex.leaf text :: rest) rest _ := .var rfl
  rw [variableName_leaf] at h
  exact ⟨.primary, Nat.le_refl _, h⟩

theorem grouped (h : Makes n s e) : Makes 62 ([mark '('] ++ s ++ [mark ')']) e := by
  intro rest
  obtain ⟨p, -, hp⟩ := h (mark ')' :: rest)
  refine ⟨.primary, Nat.le_refl _, ?_⟩
  rw [List.append_assoc, List.append_assoc]
  exact .group (isSymbol_mark rfl) (isSymbol_mark rfl) hp.toSum

/-- An operator between operands that are tight enough. -/
theorem operated {symbol : Char} {op : Operator} (hop : Operator.find? symbol = some op)
    (hl : Makes (op.operandPrecedence .left) s e) (hr : Makes (op.operandPrecedence .right) t f) :
    Makes op.precedence (s ++ [mark symbol] ++ t) (.binary symbol e f) := by
  intro rest
  have hsymbol := Operator.symbol_utf8Size (Operator.find?_mem hop)
  rw [Operator.find?_symbol hop] at hsymbol
  obtain ⟨p, hp, hleft⟩ := hl (mark symbol :: (t ++ rest))
  obtain ⟨q, hq, hright⟩ := hr rest
  rw [List.append_assoc, List.append_assoc]
  exact hleft.operated hop (isSymbol_mark hsymbol) hp hright hq

/-- An operator between two boxes. -/
theorem boxed {symbol : Char} {op : Operator} (hop : Operator.find? symbol = some op)
    (hl : Makes m s e) (hr : Makes n t f) :
    Makes 62 (opened [] ++ s ++ [mark ')', mark symbol, mark '('] ++ t ++ closed)
      (.binary symbol e f) := by
  have hmem := Operator.find?_mem hop
  have hleft := hl.grouped.mono (operandPrecedence_le hmem .left)
  have hright := hr.grouped.mono (operandPrecedence_le hmem .right)
  have h := (operated hop hleft hright).grouped
  simpa only [opened, closed, List.append_assoc, List.cons_append, List.nil_append] using h

theorem argument (h : Makes n s e) : MakesArguments s [e] := by
  intro rest
  obtain ⟨p, -, hp⟩ := h (mark ')' :: rest)
  exact .last (isSymbol_mark rfl) hp.toSum

theorem arguments {es : List Expr} (h : Makes n s e) (hes : MakesArguments t es) :
    MakesArguments (s ++ [comma] ++ t) (e :: es) := by
  intro rest
  obtain ⟨p, -, hp⟩ := h (comma :: (t ++ mark ')' :: rest))
  rw [List.append_assoc, List.append_assoc]
  exact .more rfl hp.toSum (hes rest)

/-- A call of a function that accepts its arguments. -/
theorem call {name : String} {function : Function} {es : List Expr}
    (hfunction : Registry.standard.function? name = some function)
    (harity : function.arity.accepts es.length = true) (h : MakesArguments s es) :
    Makes 62 ([named name, mark '('] ++ s ++ [mark ')']) (.call name es) := by
  intro rest
  refine ⟨.primary, Nat.le_refl _, ?_⟩
  rw [List.append_assoc, List.append_assoc]
  exact .call rfl (isSymbol_mark rfl) hfunction harity (h rest)

theorem callEmpty {name : String} {function : Function}
    (hfunction : Registry.standard.function? name = some function)
    (harity : function.arity.accepts 0 = true) :
    Makes 62 [named name, mark '(', mark ')'] (.call name []) := fun _ =>
  ⟨.primary, Nat.le_refl _,
    .callEmpty rfl (isSymbol_mark rfl) (isSymbol_mark rfl) hfunction harity⟩

end Makes

/-- No phrase is made of no tokens. -/
theorem Makes.ne_nil {level : Nat} {tokens : List Token} {e : Expr} (h : Makes level tokens e) :
    tokens ≠ [] := by
  rintro rfl
  obtain ⟨p, -, hp⟩ := h []
  have hread : Expr.ofTokens .standard 0 [] = .ok e := Grammar.ofTokens_of_derives hp.toSum
  rw [Reader.ofTokens_eq, Reader.binary_eq, Reader.unary_nil] at hread
  cases hread

/-! ## 4. Texts as trees -/

/-- A text is read back as a tree that is at least as tight as the given level. -/
def ReadsBack (level : Nat) (text : String) (e : Expr) : Prop :=
  ∃ tokens, Reads Closes text tokens ∧ Makes level tokens e

namespace ReadsBack

variable {m n : Nat} {a b : String} {e f : Expr}

theorem mono (h : ReadsBack n a e) (hle : m ≤ n) : ReadsBack m a e := by
  obtain ⟨tokens, hreads, hmakes⟩ := h
  exact ⟨tokens, hreads, hmakes.mono hle⟩

theorem ne_empty (h : ReadsBack n a e) : a ≠ "" := by
  rintro rfl
  obtain ⟨tokens, hreads, hmakes⟩ := h
  have hread : ReadsAs [] (tokens ++ []) := hreads [] [] (.inl rfl) .done
  rw [List.append_nil] at hread
  exact hmakes.ne_nil (hread.unique .done)

/-- **A text is read back as one tree only.** -/
theorem unique (h : ReadsBack m a e) (hother : ReadsBack n a f) : e = f := by
  obtain ⟨s, hreads, hmakes⟩ := h
  obtain ⟨t, hreads', hmakes'⟩ := hother
  have hs := hreads [] [] (.inl rfl) .done
  have ht := hreads' [] [] (.inl rfl) .done
  have hst : s = t := by simpa using hs.unique ht
  subst hst
  obtain ⟨p, -, hp⟩ := hmakes []
  obtain ⟨q, -, hq⟩ := hmakes' []
  have he : Expr.ofTokens .standard 0 (s ++ []) = .ok e := Grammar.ofTokens_of_derives hp.toSum
  rw [Grammar.ofTokens_of_derives hq.toSum] at he
  exact (Except.ok.inj he).symm

/-! ### Leaves and brackets -/

/-- A letter or a digit, with the characters of a number behind it. -/
theorem run {c : Char} {more : List Char} (ha : a.toList = c :: more) (hc : c.isAlphanum = true)
    (hmore : ∀ d ∈ more, Token.isNumeric d = true) : ReadsBack 62 a (.var a) := by
  refine ⟨[Latex.leaf a], fun rest tokens hcloses hrest => ?_, .leaf a⟩
  have h := ReadsAs.run hc hmore hcloses hrest
  rw [← ha, String.ofList_toList] at h
  exact h

theorem command (h : ⟨a, [Latex.leaf a]⟩ ∈ signs) : ReadsBack 62 a (.var a) :=
  ⟨[Latex.leaf a], (Reads.sign h).closes, .leaf a⟩

theorem bracketed (h : ReadsBack n a e) : ReadsBack 62 (bracketed a) e := by
  obtain ⟨tokens, hreads, hmakes⟩ := h
  have hopening : Reads Anything "\\left(" [mark '('] := .fixed (by decide)
  have hclosing : Reads Anything "\\right)" [mark ')'] := .fixed (by decide)
  exact ⟨_, ((hopening.append hreads).close hclosing (by decide)).closes, hmakes.grouped⟩

/-- **An operand with its brackets, if it needs any, is tight enough.** -/
theorem operand {op : Operator} (hop : op ∈ Operator.table) (hdelimits : op.delimits = false)
    {side : Side} (h : ReadsBack e.level a f) :
    ReadsBack (op.operandPrecedence side) (Latex.operand op side e a) f := by
  unfold Latex.operand
  split
  · exact h.bracketed.mono (operandPrecedence_le hop side)
  · rename_i hbrackets
    have hsame : { op with delimits := false } = op := by rw [← hdelimits]
    rw [← hsame, Bool.not_eq_true] at hbrackets
    exact h.mono (level_of_not_needsBrackets hop hbrackets)

/-- An operand is read back with and without brackets. -/
theorem loose (op : Operator) (side : Side) (e : Expr) (h : ReadsBack n a f) :
    ReadsBack 0 (Latex.operand op side e a) f := by
  unfold Latex.operand
  split
  · exact h.bracketed.mono (Nat.zero_le _)
  · exact h.mono (Nat.zero_le _)

/-! ### Operators -/

section Operators

variable {symbol : Char} {op : Operator} {l r : Expr}

/-- **An operator is read back from its typeset form.** -/
theorem binary (hop : Operator.find? symbol = some op) (hl : ReadsBack l.level a e)
    (hr : ReadsBack r.level b f) :
    ReadsBack op.precedence
      (op.typeset (Latex.operand op .left l a) (Latex.operand op .right r b))
      (.binary symbol e f) := by
  have hmem := Operator.find?_mem hop
  have hsymbol := Operator.find?_symbol hop
  cases operatorStyle hmem with
  | @infixed sign hsign hcloser hdelimits htypeset =>
    have hleft : ReadsBack (op.operandPrecedence .left) _ e := hl.operand hmem hdelimits
    rw [htypeset _ _ hleft.ne_empty]
    obtain ⟨s, hreads, hmakes⟩ := hleft
    obtain ⟨t, hreads', hmakes'⟩ := hr.operand hmem hdelimits
    rw [hsymbol] at hsign
    exact ⟨_, (hreads.close (.sign hsign) hcloser).append hreads', hmakes.operated hop hmakes'⟩
  | boxed hopening hmiddle hcloser htypeset =>
    rw [htypeset]
    obtain ⟨s, hreads, hmakes⟩ := hl.loose op .left l
    obtain ⟨t, hreads', hmakes'⟩ := hr.loose op .right r
    rw [hsymbol] at hmiddle
    have hleft := ((Reads.sign hopening).append hreads).close (.sign hmiddle) hcloser
    refine ⟨_, (hleft.append hreads').close .brace (by decide), ?_⟩
    exact (hmakes.boxed hop hmakes').mono (precedence_le hmem)

/-- **A negation is read back as a subtraction from a leaf without text.** -/
theorem negation (hop : Operator.find? '-' = some op) (hr : ReadsBack r.level b f) :
    ReadsBack op.precedence ("-" ++ Latex.operand op .right r b) (.binary '-' (.var "") f) := by
  have hmem := Operator.find?_mem hop
  have hzero := (Makes.leaf "").mono (operandPrecedence_le hmem .left)
  have hsign : Reads Anything "-" [Latex.leaf "", mark '-'] := .fixed (by decide)
  obtain ⟨t, hreads, hmakes⟩ := hr.operand hmem (by cases hop; rfl)
  exact ⟨_, hsign.append hreads, hzero.operated hop hmakes⟩

end Operators

/-! ### Calls -/

section Calls

variable {name : String} {function : Function} {es : List Expr} {texts : List String}

/-- The arguments of a call and their texts. -/
theorem arguments (h : List.Forall₂ (ReadsBack 0) texts es) (hes : es ≠ []) :
    ∃ tokens, Reads Closes (Piece.row ", " texts) tokens ∧ MakesArguments tokens es := by
  induction h with
  | nil => exact absurd rfl hes
  | @cons text e texts es he hrest ih =>
    obtain ⟨s, hreads, hmakes⟩ := he
    cases hrest with
    | nil => exact ⟨s, hreads, hmakes.argument⟩
    | cons =>
      obtain ⟨t, hreads', hmakes'⟩ := ih (List.cons_ne_nil _ _)
      have hcomma : Reads Anything ", " [comma] := .fixed (by decide)
      exact ⟨_, (hreads.close hcomma (by decide)).append hreads', hmakes.arguments hmakes'⟩

/-- A command applied to its arguments. -/
theorem applied {command : String} (hname : (name, command) ∈ commands)
    (hfunction : Registry.standard.function? name = some function)
    (harity : function.arity.accepts es.length = true)
    (h : List.Forall₂ (ReadsBack 0) texts es) :
    ReadsBack 62 (command ++ "\\left(" ++ Piece.row ", " texts ++ "\\right)") (.call name es) := by
  have hopening : Reads Anything (command ++ "\\left(") [named name, mark '('] :=
    .sign (List.mem_append_left _ (List.mem_append_right _ (List.mem_map.2 ⟨_, hname, rfl⟩)))
  have hclosing : Reads Anything "\\right)" [mark ')'] := .fixed (by decide)
  cases h with
  | nil =>
    exact ⟨_, ((hopening.append .empty).append hclosing).closes, .callEmpty hfunction harity⟩
  | cons he hrest =>
    obtain ⟨tokens, hreads, hmakes⟩ := arguments (.cons he hrest) (List.cons_ne_nil _ _)
    exact ⟨_, ((hopening.append hreads).close hclosing (by decide)).closes,
      .call hfunction harity hmakes⟩

/-- Delimiters around one argument. -/
theorem delimited {opening closing : String} (hname : (name, opening, closing) ∈ delimiters)
    (hfunction : Registry.standard.function? name = some function)
    (harity : function.arity.accepts 1 = true) (h : ReadsBack n a e) :
    ReadsBack 62 (opening ++ a ++ closing) (.call name [e]) := by
  have hall : ∀ entry ∈ delimiters, ∃ closer ∈ closers, closer.toList <+: entry.2.2.toList := by
    decide
  have hopening : Reads Anything opening (opened [named name]) :=
    .sign (List.mem_append_right _ (List.mem_map.2 ⟨_, hname, rfl⟩))
  have hclosing : Reads Closes closing closed := by
    have hends : ∀ entry ∈ delimiters, entry.2.2 = "\x7d" ∨ ⟨entry.2.2, closed⟩ ∈ fixedSigns := by
      decide
    rcases hends _ hname with hbrace | hsign
    · rw [show closing = "\x7d" from hbrace]
      exact .brace
    · exact (Reads.fixed hsign).closes
  obtain ⟨tokens, hreads, hmakes⟩ := h
  refine ⟨_, (hopening.append hreads).close hclosing (hall _ hname), ?_⟩
  have hcall := @Makes.call _ _ _ [e] hfunction harity hmakes.grouped.argument
  simpa only [opened, closed, List.append_assoc, List.cons_append, List.nil_append] using hcall

/-- A logarithm with its base in a box and its argument in brackets. -/
theorem logarithm (hfunction : Registry.standard.function? "log" = some function)
    (harity : function.arity.accepts 2 = true) (ha : ReadsBack m a e) (hb : ReadsBack n b f) :
    ReadsBack 62 ("\\log_\x7b" ++ a ++ "\x7d\\left(" ++ b ++ "\\right)") (.call "log" [e, f]) := by
  obtain ⟨s, hreads, hmakes⟩ := ha
  obtain ⟨t, hreads', hmakes'⟩ := hb
  have hopening : Reads Anything "\\log_\x7b" [named "log", mark '('] := .fixed (by decide)
  have hmiddle : Reads Anything "\x7d\\left(" [comma] := .fixed (by decide)
  have hclosing : Reads Anything "\\right)" [mark ')'] := .fixed (by decide)
  have hbase := (hopening.append hreads).close hmiddle (by decide)
  refine ⟨_, ((hbase.append hreads').close hclosing (by decide)).closes, ?_⟩
  have hcall := @Makes.call _ _ _ [e, f] hfunction harity (hmakes.arguments hmakes'.argument)
  simpa only [List.append_assoc, List.cons_append, List.nil_append] using hcall

end Calls

end ReadsBack

end Latex

end Formula
