import Formula.Proofs.Grammar.Completeness
import Formula.Proofs.Token.Split

/-!
# Written trees

The trees that a source can give (`Expr.Written`), said without a source. A number has the text of a
literal and the value that this text is read as, a constant has the value under its name, an operator
is in the table, and a call is one that its function accepts. The zero of a negation is the only
number without digits; it stands nowhere else.

`Written.of_source` is the main statement: the tree of a source is written. What its numbers look like
comes from the scanner (`Token.literal_of_source`), all else from the grammar.
-/

namespace Formula

variable {registry : Registry}

/-! ## 1. Literals of a source -/

namespace Token

/-- The text of a literal: a lexeme without its separators. -/
def IsLiteralText (text : String) : Prop :=
  ∃ lexeme, Fits .literal lexeme ∧ text = String.ofList (lexeme.filter (· ≠ '_'))

/-- The characters of a number behind its first digit. -/
def isNumeric (c : Char) : Bool := c.isAlphanum || c == '.' || c == '+' || c == '-'

theorem isNumeric_of_continuesLiteral {c : Char} (h : continuesLiteral c = true) (hc : c ≠ '_') :
    isNumeric c = true := by
  simp only [continuesLiteral, Bool.or_eq_true, beq_iff_eq, hc, or_false] at h
  rcases h with h | rfl
  · simp [isNumeric, Char.isAlphanum, h]
  · rfl

theorem isNumeric_of_mark {mark : List Char} (h : Mark mark) {c : Char} (hc : c ∈ mark) :
    isNumeric c = true := by
  have hdigit {d : Char} (hd : d.isDigit = true) : isNumeric d = true := by
    simp [isNumeric, Char.isAlphanum, hd]
  cases h with
  | unsigned hd =>
    simp only [List.mem_cons, List.not_mem_nil, or_false] at hc
    rcases hc with rfl | rfl
    · rfl
    · exact hdigit hd
  | signed hsign hd =>
    simp only [List.mem_cons, List.not_mem_nil, or_false] at hc
    rcases hc with rfl | rfl | rfl
    · rfl
    · rcases hsign with rfl | rfl <;> rfl
    · exact hdigit hd

/-- **The text of a literal begins with a digit and goes on with characters of a number.** -/
theorem IsLiteralText.shape {text : String} (h : IsLiteralText text) :
    ∃ d more, text.toList = d :: more ∧ d.isDigit = true ∧ ∀ c ∈ more, isNumeric c = true := by
  obtain ⟨lexeme, hfits, rfl⟩ := h
  have hfirst {d : Char} (hd : d.isDigit = true) : d ≠ '_' := by
    rintro rfl
    cases hd
  cases hfits with
  | @plain d digits hd hdigits =>
    refine ⟨d, digits.filter (· ≠ '_'), by simp [hfirst hd], hd, fun c hc => ?_⟩
    obtain ⟨hmem, hc⟩ := List.mem_filter.1 hc
    exact isNumeric_of_continuesLiteral (hdigits c hmem) (by simpa using hc)
  | @exponent d digits mark more hd hdigits hmark hmore =>
    refine ⟨d, (digits ++ (mark ++ more)).filter (· ≠ '_'), by simp [hfirst hd], hd,
      fun c hc => ?_⟩
    obtain ⟨hmem, hc⟩ := List.mem_filter.1 hc
    have hne : c ≠ '_' := by simpa using hc
    rcases List.mem_append.1 hmem with hmem | hmem
    · exact isNumeric_of_continuesLiteral (hdigits c hmem) hne
    · rcases List.mem_append.1 hmem with hmem | hmem
      · exact isNumeric_of_mark hmark hmem
      · have hdigit : continuesLiteral c = true := Bool.or_eq_true_iff.2 (.inl (hmore c hmem))
        exact isNumeric_of_continuesLiteral hdigit hne

/-- All literals among tokens have the text of a literal. -/
def AllLiterals (tokens : List Token) : Prop :=
  ∀ token ∈ tokens, token.kind = .literal → IsLiteralText token.text

theorem AllLiterals.suffix {tokens rest : List Token} (h : AllLiterals tokens)
    (hrest : rest <:+ tokens) : AllLiterals rest :=
  fun token htoken => h token (hrest.subset htoken)

theorem Splits.allLiterals {position : Nat} {text rest : List Char} {tokens : List Token}
    (h : Splits position text tokens rest) : AllLiterals tokens := by
  induction h with
  | done => exact List.forall_mem_nil _
  | blank _ _ ih => exact ih
  | @lexeme position lexeme text rest token tokens hfits _ _ htext _ ih =>
    refine List.forall_mem_cons.2 ⟨fun hkind => ⟨lexeme, hkind ▸ hfits, ?_⟩, ih⟩
    rw [htext, if_pos hkind]

/-- **The literals of a source have the texts of literals.** -/
theorem literal_of_source {source : String} {tokens : List Token}
    (h : ofSource source = .ok tokens) : AllLiterals tokens :=
  (splits_of_scan h).allLiterals

end Token

/-! ## 2. Trees -/

namespace Expr

/-- The trees that a source can give. -/
inductive Written (registry : Registry) : Expr → Prop
  | number {value : Float} {text : String} (htext : Token.IsLiteralText text)
      (hvalue : Double.read text = .ok value) : Written registry (.number value text)
  | constant {name : String} {found : Constant} (hfound : registry.constant? name = some found) :
      Written registry (.constant name found.value)
  | var (name : String) : Written registry (.var name)
  | negation {operand : Expr} : Written registry operand → Written registry (.negation operand)
  | binary {symbol : Char} {op : Operator} {left right : Expr}
      (hop : Operator.find? symbol = some op) :
      Written registry left → Written registry right →
      Written registry (.binary symbol left right)
  | call {name : String} {function : Function} {arguments : List Expr}
      (hfunction : registry.function? name = some function)
      (harity : function.arity.accepts arguments.length = true) :
      (∀ a ∈ arguments, Written registry a) → Written registry (.call name arguments)

namespace Written

mutual

theorem of_derives : ∀ {p : Phrase} {tokens rest : List Token} {e : Expr},
    Derives registry p tokens rest e → Token.AllLiterals tokens → Written registry e
  | _, _, _, _, .product h, hliterals | _, _, _, _, .power h, hliterals
  | _, _, _, _, .signed h, hliterals | _, _, _, _, .primary h, hliterals => of_derives h hliterals
  | _, _, _, _, .plus _ h, hliterals => of_derives h (hliterals.suffix (List.suffix_cons _ _))
  | _, _, _, _, .minus _ h, hliterals =>
    .negation (of_derives h (hliterals.suffix (List.suffix_cons _ _)))
  | _, _, _, _, .group _ _ h, hliterals => of_derives h (hliterals.suffix (List.suffix_cons _ _))
  | _, _, _, _, .add hsymbol _ hl hr, hliterals => by
    obtain ⟨op, hfind, _⟩ := Operator.find?_sum hsymbol
    have hmiddle := hliterals.suffix ((List.suffix_cons _ _).trans hl.suffix)
    exact .binary hfind (of_derives hl hliterals) (of_derives hr hmiddle)
  | _, _, _, _, .multiply hsymbol _ hl hr, hliterals => by
    obtain ⟨op, hfind, _⟩ := Operator.find?_product hsymbol
    have hmiddle := hliterals.suffix ((List.suffix_cons _ _).trans hl.suffix)
    exact .binary hfind (of_derives hl hliterals) (of_derives hr hmiddle)
  | _, _, _, _, .juxtapose _ hl hr, hliterals => by
    obtain ⟨op, hfind, _⟩ := Operator.find?_star
    exact .binary hfind (of_derives hl hliterals) (of_derives hr (hliterals.suffix hl.suffix))
  | _, _, _, _, .raise _ hl hr, hliterals => by
    obtain ⟨op, hfind, _⟩ := Operator.find?_power
    have hmiddle := hliterals.suffix ((List.suffix_cons _ _).trans hl.suffix)
    exact .binary hfind (of_derives hl hliterals) (of_derives hr hmiddle)
  | _, _, _, _, .literal hkind hvalue, hliterals =>
    .number (hliterals _ List.mem_cons_self hkind) hvalue
  | _, _, _, _, .var _, _ => .var _
  | _, _, _, _, .call _ _ hfunction harity h, hliterals =>
    .call hfunction harity (of_derives_arguments h
      (hliterals.suffix ((List.suffix_cons _ _).trans (List.suffix_cons _ _))))
  | _, _, _, _, .callEmpty _ _ _ hfunction harity, _ =>
    .call hfunction harity (List.forall_mem_nil _)
  | _, _, _, _, .constant _ _ hfound, _ => .constant hfound

theorem of_derives_arguments : ∀ {tokens rest : List Token} {es : List Expr},
    DerivesArguments registry tokens rest es → Token.AllLiterals tokens →
      ∀ e ∈ es, Written registry e
  | _, _, _, .last _ h, hliterals => List.forall_mem_singleton.2 (of_derives h hliterals)
  | _, _, _, .more _ h hes, hliterals => by
    have hmiddle := hliterals.suffix ((List.suffix_cons _ _).trans h.suffix)
    exact List.forall_mem_cons.2 ⟨of_derives h hliterals, of_derives_arguments hes hmiddle⟩

end

/-- **The tree of a source is written.** -/
theorem of_source {source : String} {e : Expr} (h : ofSource registry source = .ok e) :
    Written registry e := by
  obtain ⟨tokens, htokens, hderives⟩ := Grammar.ofSource_iff_derives.1 h
  exact of_derives hderives (Token.literal_of_source htokens)

end Written

end Expr

end Formula
