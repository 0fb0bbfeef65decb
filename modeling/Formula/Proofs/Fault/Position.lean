import Formula.Proofs.Reader.Failure
import Formula.Proofs.Token.Place

/-!
# Where faults are shown

The place of a fault is a byte offset that was recorded when a token was scanned, and the caret under
it is a column of characters. Here the two are tied to the source.

* `Fault.Cause.ShowsIn after`: what is said to be wrong is what a text goes on with.
* `Fault.Shows source before after`: the place of the fault is behind `before`, and its cause shows in
  the text after that place.
* `shows_of_scan` and `shows_of_blamed`: the faults of scanning and of reading show in the source. The
  second goes through the tokens that the reader can blame, whatever the step that blames them.

`position_faithful` is the main statement.
-/

namespace Formula.Fault

/-! ## 1. What there is to see -/

/-- What is wrong is what the text begins with: the character, the token or the name that is reported,
    or a number whose digits are reported without separators. What is missing at the end is
    missing where nothing comes after. -/
def Cause.ShowsIn (after : List Char) : Cause → Prop
  | unknownCharacter c => after.head? = some c
  | unexpectedToken word | unknownConstant word | unknownFunction word
  | wrongArgumentCount word _ _ => word ≠ "" ∧ word.toList <+: after
  | malformedLiteral word => ∃ lexeme rest, after = lexeme ++ rest ∧
      Token.Fits .literal lexeme ∧ Token.Ends .literal lexeme rest ∧
      word.toList = lexeme.filter (· ≠ '_')
  | unexpectedEnd | unclosedParenthesis => after = []

/-- The fault is between two parts of the source, and its cause shows in the second one. -/
structure Shows (fault : Fault) (source : String) (before after : List Char) : Prop where
  text : source.toList = before ++ after
  position : fault.position = Source.width before
  cause : fault.cause.ShowsIn after

/-! ## 2. Faults show in the source -/

variable {registry : Registry} {source : String}

/-- A scanning fault is at the character that it names. -/
theorem shows_of_scan {fault : Fault} (h : Token.ofSource source = .error fault) :
    ∃ before after, fault.Shows source before after := by
  obtain ⟨_, before, c, after, htext, _, _, rfl⟩ := Token.fault_of_scan h
  have hposition : 0 + Source.width before = Source.width before := Nat.zero_add _
  exact ⟨before, c :: after, htext, hposition, rfl⟩

/-- What is missing is missing at the end. -/
theorem shows_at_end {cause : Cause} (h : cause.ShowsIn []) :
    ∃ before after, Shows ⟨cause, Source.width source.toList⟩ source before after :=
  ⟨source.toList, [], (List.append_nil _).symm, rfl, h⟩

/-- A fault that names a token which is no number shows where the token stands. -/
theorem shows_of_word {token : Token} {cause : Cause} (h : token.Stands 0 source.toList)
    (hkind : token.kind ≠ .literal)
    (hcause : ∀ after, token.text ≠ "" ∧ token.text.toList <+: after → cause.ShowsIn after) :
    ∃ before after, Shows ⟨cause, token.position⟩ source before after := by
  obtain ⟨hne, before, after, htext, hposition, hprefix⟩ := h.text_prefix hkind
  rw [Nat.zero_add] at hposition
  exact ⟨before, after, htext, hposition, hcause after ⟨hne, hprefix⟩⟩

/-- A number that cannot be read shows where its lexeme begins. -/
theorem shows_of_literal {token : Token} (h : token.Stands 0 source.toList)
    (hkind : token.kind = .literal) :
    ∃ before after,
      Shows ⟨.malformedLiteral token.text, token.position⟩ source before after := by
  obtain ⟨htext, hfits, hends, hposition, hword⟩ := h
  rename_i before lexeme after
  rw [hkind] at hfits hends
  rw [if_pos hkind] at hword
  rw [Nat.zero_add] at hposition
  have hdigits : token.text.toList = lexeme.filter (· ≠ '_') := by
    rw [hword, String.toList_ofList]
  exact ⟨before, lexeme ++ after, htext, hposition, lexeme, after, rfl, hfits, hends, hdigits⟩

/-- **Whatever the reader blames shows in the source**, if the tokens stand in it. -/
theorem shows_of_blamed {tokens : List Token} {fault : Fault}
    (hstands : ∀ token ∈ tokens, token.Stands 0 source.toList)
    (h : Reader.Blamed (Source.width source.toList) tokens fault) :
    ∃ before after, fault.Shows source before after := by
  cases h with
  | ended => exact shows_at_end rfl
  | unclosed => exact shows_at_end rfl
  | @unexpected token htoken hnothing =>
    have hkind : token.kind ≠ .literal := by
      rcases hnothing.kind with hkind | hkind <;> simp [hkind]
    exact shows_of_word (hstands token htoken) hkind fun _ h => h
  | literal htoken hkind => exact shows_of_literal (hstands _ htoken) hkind
  | constant htoken hkind | function htoken hkind | count htoken hkind =>
    exact shows_of_word (hstands _ htoken) (by simp [hkind]) fun _ h => h

theorem shows_of_source {fault : Fault} (h : Expr.ofSource registry source = .error fault) :
    ∃ before after, fault.Shows source before after := by
  rw [Expr.ofSource] at h
  split at h
  · rename_i fault' hscan
    cases h
    exact shows_of_scan hscan
  · rename_i tokens hscan
    exact shows_of_blamed (Token.stands_of_source hscan) (Reader.ofTokens_blamed h)

/-! ## 3. The place and the caret -/

section Shows

variable {fault : Fault} {before after : List Char}

theorem Shows.before? (h : fault.Shows source before after) :
    Source.before? fault.position source.toList = some before := by
  rw [h.text, h.position]
  exact Source.before?_width_append before after

theorem Shows.position_le (h : fault.Shows source before after) :
    fault.position ≤ source.utf8ByteSize := by
  rw [h.position, ← Source.width_toList, h.text, Source.width_append]
  exact Nat.le_add_right _ _

theorem Shows.position_end (h : fault.Shows source before after)
    (hcause : fault.cause = .unexpectedEnd ∨ fault.cause = .unclosedParenthesis) :
    fault.position = source.utf8ByteSize := by
  have hafter : after = [] := by
    have hshows := h.cause
    rcases hcause with hcause | hcause <;> rwa [hcause] at hshows
  rw [h.position, ← Source.width_toList, h.text, hafter, List.append_nil]

/-- **The caret has as many spaces before it as there are characters before the fault.** -/
theorem Shows.pointer (h : fault.Shows source before after) :
    fault.pointer source =
      String.ofList (List.replicate source.length '-') ++ "\n" ++ source ++ "\n" ++
        String.ofList (List.replicate before.length ' ') ++ "^\n" ++
        String.ofList (List.replicate source.length '-') := by
  have hcolumn : Source.column source fault.position = before.length := by
    rw [Source.column, h.before?, Option.getD_some]
  rw [Fault.pointer, Source.pointer, hcolumn]

end Shows

/-- **The place of a fault is faithful.** It lies between two characters of the source, what is reported
    is what the source goes on with there, and the caret is drawn under it. -/
theorem position_faithful {fault : Fault} (h : Expr.ofSource registry source = .error fault) :
    fault.position ≤ source.utf8ByteSize ∧
    (fault.cause = .unexpectedEnd ∨ fault.cause = .unclosedParenthesis →
      fault.position = source.utf8ByteSize) ∧
    ∃ before after, source.toList = before ++ after ∧ fault.position = Source.width before ∧
      fault.cause.ShowsIn after ∧ Source.before? fault.position source.toList = some before ∧
      fault.pointer source =
        String.ofList (List.replicate source.length '-') ++ "\n" ++ source ++ "\n" ++
          String.ofList (List.replicate before.length ' ') ++ "^\n" ++
          String.ofList (List.replicate source.length '-') := by
  obtain ⟨before, after, hshows⟩ := shows_of_source h
  refine ⟨hshows.position_le, hshows.position_end, before, after, hshows.text, hshows.position,
    hshows.cause, hshows.before?, hshows.pointer⟩

/-- The tokens of `$é+1_0.0.5`. -/
def separatedTokens : List Token :=
  [⟨"$é", .var, 0⟩, ⟨"+", .operator, 3⟩, ⟨"10.0.5", .literal, 4⟩]

theorem ofTokens_separated :
    Expr.ofTokens .standard 11 separatedTokens = .error ⟨.malformedLiteral "10.0.5", 4⟩ := by
  have hnumber : Reader.binary .standard 11 21 [⟨"10.0.5", .literal, 4⟩] =
      .error ⟨.malformedLiteral "10.0.5", 4⟩ := by
    rw [Reader.binary_eq, Grammar.unary_of_kind (by decide), Reader.primary_literal _ _ rfl]
    rfl
  have hsign : Token.isSymbol ⟨"+", .operator, 3⟩ '+' = true := rfl
  obtain ⟨op, hop, _, _, hright⟩ := Operator.find?_sum (show '+' ∈ ['+', '-'] by simp)
  rw [separatedTokens, Reader.ofTokens_eq, Reader.binary_eq, Grammar.unary_of_kind (by decide),
    Reader.primary_var _ _ rfl]
  simp only [Except.bind]
  rw [Reader.chain_cons, Joint.ofToken?_of_isSymbol hsign (by decide), hop]
  simp [Joint.operandTokens, hright, hnumber, Except.bind]

/-- The number is at the fifth byte and under the fourth character, and its text is shorter than what
    is written. -/
theorem position_faithful_separated :
    Expr.ofSource .standard "$é+1_0.0.5" = .error ⟨.malformedLiteral "10.0.5", 4⟩ ∧
      4 ≤ "$é+1_0.0.5".utf8ByteSize ∧
      ∃ before after, "$é+1_0.0.5".toList = before ++ after ∧ 4 = Source.width before ∧
        (Cause.malformedLiteral "10.0.5").ShowsIn after := by
  have htokens : Token.ofSource "$é+1_0.0.5" = .ok separatedTokens := by
    simp +decide [Token.ofSource, Token.scan, Token.lexeme?, Token.ofLexeme, Token.splitExponent,
      separatedTokens]
  have hread : Expr.ofSource .standard "$é+1_0.0.5" = .error ⟨.malformedLiteral "10.0.5", 4⟩ := by
    rw [Expr.ofSource, htokens]
    exact ofTokens_separated
  obtain ⟨hle, _, before, after, htext, hposition, hcause, _⟩ := position_faithful hread
  exact ⟨hread, hle, before, after, htext, hposition, hcause⟩

end Formula.Fault
