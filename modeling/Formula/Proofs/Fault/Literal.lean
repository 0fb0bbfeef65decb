import Formula.Proofs.Decimal.Reading
import Formula.Proofs.Grammar.Leaves
import Formula.Proofs.Reader.Failure

/-!
# Which literals are no numbers

Literals are cut out of a source by a rule of their own, which lets points and separators stand anywhere
behind the first digit; their texts, without the separators, are read by the grammar of numbers. The
two rules differ in one thing: a literal may have several points.

* `Token.IsLiteralText.parts`: the text of a literal is a digit, digits and points, and a tail. This is a
  shape that the grammar of numbers knows.
* `Token.IsLiteralText.read_iff`: such a text is a number exactly if it has at most one point.

`Expr.literals_read` is the main statement, for the literals of a source, for the fault that names one,
and for the numbers of a tree.
-/

namespace Formula

namespace Token

/-! ## 1. The parts of a literal -/

/-- What is left of a text without its separators is of the same class, and it is no separator. -/
theorem unseparated {p : Char → Bool} {text : List Char} (h : ∀ c ∈ text, p c = true) :
    ∀ c ∈ text.filter (· ≠ '_'), p c = true ∧ c ≠ '_' := by
  intro c hc
  obtain ⟨hmem, hne⟩ := List.mem_filter.1 hc
  exact ⟨h c hmem, of_decide_eq_true hne⟩

theorem digits_or_points {body : List Char} (h : ∀ c ∈ body, continuesLiteral c = true) :
    ∀ c ∈ body.filter (· ≠ '_'), c.isDigit = true ∨ c = '.' := by
  intro c hc
  obtain ⟨hclass, hne⟩ := unseparated h c hc
  simpa [continuesLiteral, hne] using hclass

theorem digits_of_exponent {more : List Char} (h : ∀ c ∈ more, continuesExponent c = true) :
    ∀ c ∈ more.filter (· ≠ '_'), c.isDigit = true := by
  intro c hc
  obtain ⟨hclass, hne⟩ := unseparated h c hc
  simpa [continuesExponent, hne] using hclass

theorem ne_separator_of_isDigit {d : Char} (hd : d.isDigit = true) : d ≠ '_' := ne_of_isDigit hd rfl

/-- No separator stands between the mark of an exponent and its first digit. -/
theorem Mark.filter_eq {mark : List Char} (h : Mark mark) : mark.filter (· ≠ '_') = mark := by
  cases h with
  | unsigned hd => simp [ne_separator_of_isDigit hd]
  | signed hsign hd => rcases hsign with rfl | rfl <;> simp [ne_separator_of_isDigit hd]

/-- **The text of a literal is a digit, digits and points, and an exponent or nothing.** -/
theorem IsLiteralText.parts {text : String} (h : IsLiteralText text) :
    ∃ d body tail, text.toList = d :: body ++ tail ∧ d.isDigit = true ∧
      (∀ c ∈ body, c.isDigit = true ∨ c = '.') ∧ Decimal.IsTail tail := by
  obtain ⟨lexeme, hfits, rfl⟩ := h
  rw [String.toList_ofList]
  cases hfits with
  | @plain d digits hd hdigits =>
    refine ⟨d, digits.filter (· ≠ '_'), [], ?_, hd, digits_or_points hdigits, .plain⟩
    simp [ne_separator_of_isDigit hd]
  | @exponent d digits mark more hd hdigits hmark hmore =>
    refine ⟨d, digits.filter (· ≠ '_'), mark ++ more.filter (· ≠ '_'), ?_, hd,
      digits_or_points hdigits, .exponent hmark (digits_of_exponent hmore)⟩
    rw [List.cons_append, List.filter_cons_of_pos (by simp [ne_separator_of_isDigit hd]),
      List.filter_append, List.filter_append, hmark.filter_eq]
    rfl

/-! ## 2. Literals as numbers -/

/-- How the text of a literal is read as a number. -/
theorem IsLiteralText.read_eq {text : String} (h : IsLiteralText text) :
    Double.read text = match Decimal.read? text.toList with
      | some decimal => .ok (Double.ofCode false decimal.code)
      | none => .error .malformed := by
  obtain ⟨d, body, tail, htext, hd, -, -⟩ := h.parts
  rw [Double.read_of_digit htext hd, htext]
  rfl

/-- **The text of a literal is a number exactly if it has at most one point.** -/
theorem IsLiteralText.read_iff {text : String} (h : IsLiteralText text) :
    (∃ value, Double.read text = .ok value) ↔ text.toList.count '.' ≤ 1 := by
  obtain ⟨d, body, tail, htext, hd, hbody, htail⟩ := h.parts
  have hdecimal := Decimal.read?_isSome_iff hd hbody htail
  rw [← htext] at hdecimal
  rw [← hdecimal, h.read_eq]
  cases Decimal.read? text.toList with
  | none => simp
  | some decimal => simp

/-- **The value of a literal is a number without a sign.** -/
theorem IsLiteralText.fields {text : String} (h : IsLiteralText text) {value : Float}
    (hvalue : Double.read text = .ok value) :
    Double.isNaN value = false ∧ Double.negative value = false := by
  rw [h.read_eq] at hvalue
  split at hvalue
  · rename_i decimal _
    cases hvalue
    exact Double.fields_of_unsigned decimal
  · cases hvalue

/-- The reader reports a literal exactly if it has several points. -/
theorem IsLiteralText.malformed_iff {token : Token} (h : IsLiteralText token.text) :
    Expr.ofLiteral token = .error ⟨.malformedLiteral token.text, token.position⟩ ↔
      2 ≤ token.text.toList.count '.' := by
  have hiff := h.read_iff
  unfold Expr.ofLiteral
  cases hread : Double.read token.text with
  | ok value =>
    have hcount := hiff.1 ⟨value, hread⟩
    simp only [reduceCtorEq, false_iff]
    omega
  | error reason =>
    have hcount : ¬token.text.toList.count '.' ≤ 1 := fun hle => by
      obtain ⟨value, hvalue⟩ := hiff.2 hle
      rw [hread] at hvalue
      cases hvalue
    simp only [true_iff]
    omega

end Token

/-! ## 3. Literals of a source -/

namespace Expr

variable {registry : Registry} {source : String} {tokens : List Token}

/-- The fault that names a literal names one with several points. -/
theorem points_of_malformed (htokens : Token.ofSource source = .ok tokens) {word : String}
    {position : Nat} (h : ofSource registry source = .error ⟨.malformedLiteral word, position⟩) :
    ∃ token ∈ tokens, token.kind = .literal ∧ token.text = word ∧ token.position = position ∧
      2 ≤ word.toList.count '.' := by
  rw [ofSource, htokens] at h
  cases Reader.ofTokens_blamed h with
  | @literal token reason htoken hkind hvalue =>
    refine ⟨token, htoken, hkind, rfl, rfl, ?_⟩
    refine (Token.literal_of_source htokens token htoken hkind).malformed_iff.1 ?_
    rw [ofLiteral, hvalue]

/-- No literal of a source that is read has several points. -/
theorem points_of_read (htokens : Token.ofSource source = .ok tokens) {e : Expr}
    (h : ofSource registry source = .ok e) {token : Token} (htoken : token ∈ tokens)
    (hkind : token.kind = .literal) : token.text.toList.count '.' ≤ 1 := by
  obtain ⟨others, hothers, hliterals⟩ := literals_of_source h
  obtain rfl : tokens = others := Except.ok.inj (htokens.symm.trans hothers)
  have hmem : token.text ∈ e.literals := by
    rw [← hliterals]
    exact List.mem_filterMap.2 ⟨token, htoken, if_pos hkind⟩
  obtain ⟨node, hnode, htext⟩ := List.mem_filterMap.1 hmem
  cases node with
  | number value text =>
    rw [literalText?] at htext
    split at htext
    · cases htext
    · rename_i hne
      cases htext
      rcases (Written.of_source h).of_mem_nodes _ hnode with hwritten | hzero
      · cases hwritten with
        | number htext hvalue => exact htext.read_iff.1 ⟨value, hvalue⟩
      · exact absurd (Expr.number.inj hzero).2 hne
  | constant | var | binary | call => cases htext

/-- The numbers of a tree that is read are positive. -/
theorem fields_of_read {e : Expr} (h : ofSource registry source = .ok e) {value : Float}
    {text : String} (hnode : .number value text ∈ e.nodes) :
    Double.isNaN value = false ∧ Double.negative value = false := by
  rcases (Written.of_source h).of_mem_nodes _ hnode with hwritten | hzero
  · cases hwritten with
    | number htext hvalue => exact htext.fields hvalue
  · cases hzero
    exact ⟨by decide +kernel, by decide +kernel⟩

/-- **The literals of a source are numbers, those with several points excepted.** A literal is read
    exactly if it has at most one point, and its value is then a number without a sign. So separators,
    a point at the end and exponents never make a literal malformed; the fault says of every
    literal that it names that it has several points, and no source with such a literal is a formula. -/
theorem literals_read (registry : Registry) (htokens : Token.ofSource source = .ok tokens) :
    (∀ token ∈ tokens, token.kind = .literal →
      ((∃ value, Double.read token.text = .ok value) ↔ token.text.toList.count '.' ≤ 1) ∧
      (ofLiteral token = .error ⟨.malformedLiteral token.text, token.position⟩ ↔
        2 ≤ token.text.toList.count '.') ∧
      ∀ value, Double.read token.text = .ok value →
        ofLiteral token = .ok (.number value token.text) ∧
          Double.isNaN value = false ∧ Double.negative value = false) ∧
    (∀ word position,
      ofSource registry source = .error ⟨.malformedLiteral word, position⟩ →
        ∃ token ∈ tokens, token.kind = .literal ∧ token.text = word ∧ token.position = position ∧
          2 ≤ word.toList.count '.') ∧
    ∀ e, ofSource registry source = .ok e →
      (∀ token ∈ tokens, token.kind = .literal → token.text.toList.count '.' ≤ 1) ∧
      ∀ value text, .number value text ∈ e.nodes →
        Double.isNaN value = false ∧ Double.negative value = false := by
  refine ⟨fun token htoken hkind => ?_, fun word position h => points_of_malformed htokens h,
    fun e h => ⟨fun token htoken hkind => points_of_read htokens h htoken hkind,
      fun value text hnode => fields_of_read h hnode⟩⟩
  have htext := Token.literal_of_source htokens token htoken hkind
  refine ⟨htext.read_iff, htext.malformed_iff, fun value hvalue => ⟨?_, htext.fields hvalue⟩⟩
  rw [ofLiteral, hvalue]

/-- The first literal has a point at its end, separators and an exponent, and it is a number. The second
    has two points, so the source is no formula. -/
theorem literals_read_separated :
    Token.ofSource "1_0._e-5_ 1._.2" =
        .ok [⟨"10.e-5", .literal, 0⟩, ⟨"1..2", .literal, 10⟩] ∧
      (∃ value, ofLiteral ⟨"10.e-5", .literal, 0⟩ = .ok (.number value "10.e-5") ∧
        Double.isNaN value = false ∧ Double.negative value = false) ∧
      ofLiteral ⟨"1..2", .literal, 10⟩ = .error ⟨.malformedLiteral "1..2", 10⟩ ∧
      ∀ e, ofSource .standard "1_0._e-5_ 1._.2" ≠ .ok e := by
  have htokens : Token.ofSource "1_0._e-5_ 1._.2" =
      .ok [⟨"10.e-5", .literal, 0⟩, ⟨"1..2", .literal, 10⟩] := by
    simp +decide [Token.ofSource, Token.scan, Token.lexeme?, Token.ofLexeme, Token.splitExponent]
  obtain ⟨hliterals, -, htree⟩ := literals_read .standard htokens
  obtain ⟨hfirst, -, hvalue⟩ := hliterals ⟨"10.e-5", .literal, 0⟩ (by simp) rfl
  obtain ⟨-, hsecond, -⟩ := hliterals ⟨"1..2", .literal, 10⟩ (by simp) rfl
  obtain ⟨value, hread⟩ := hfirst.2 (by decide)
  refine ⟨htokens, ⟨value, hvalue value hread⟩, hsecond.2 (by decide), fun e he => ?_⟩
  have hcount := (htree e he).1 ⟨"1..2", .literal, 10⟩ (by simp) rfl
  exact absurd hcount (by decide)

end Expr

end Formula
