import Formula.Proofs.Token.Lexeme

/-!
# Scanning loses nothing

A source is cut into blanks and lexemes, each lexeme as long as it can be, and its tokens carry the byte
offsets at which the lexemes begin.

* `Splits position text tokens rest`: from byte `position` of its source on, the text is blanks and the
  lexemes of the tokens, and then `rest`.
* `Unreadable c after`: no blank and no lexeme begins with `c` in front of `after`.
* `splits_of_scan` and `fault_of_scan`: what scanning gives is a split of the text, up to its end or
  up to a character that is unreadable. The induction is on the scanner.
* `scan_of_splits`: whatever is split off a text, scanning splits off too and goes on behind it.

`ofSource_iff_splits` puts them together: scanning is exact, and there is one way to split a source
at most.
-/

namespace Formula.Token

/-! ## 1. Splitting a text -/

/-- The tokens of the first part of a text, with blanks between them, and the rest of the text. The
    text begins at byte `position` of its source. -/
inductive Splits : Nat → List Char → List Token → List Char → Prop
  | done {position : Nat} {text : List Char} : Splits position text [] text
  | blank {position : Nat} {c : Char} {text rest : List Char} {tokens : List Token}
      (hblank : isBlank c = true) :
      Splits (position + c.utf8Size) text tokens rest → Splits position (c :: text) tokens rest
  | lexeme {position : Nat} {lexeme text rest : List Char} {token : Token} {tokens : List Token}
      (hfits : Fits token.kind lexeme) (hends : Ends token.kind lexeme text)
      (hposition : token.position = position)
      (htext : token.text = String.ofList
        (if token.kind = .literal then lexeme.filter (· ≠ '_') else lexeme)) :
      Splits (position + Source.width lexeme) text tokens rest →
      Splits position (lexeme ++ text) (token :: tokens) rest

/-- A character at which scanning cannot go on: it is no blank, and no lexeme begins with it or it is
    a sigil with nothing to mark. -/
def Unreadable (c : Char) (after : List Char) : Prop :=
  isBlank c = false ∧
    ((∀ kind lexeme, ¬ Fits kind (c :: lexeme)) ∨ (isSigil c = true ∧ after = []))

/-! ## 2. Steps of the scanner -/

theorem scan_blank {c : Char} (h : isBlank c = true) (position : Nat) (text : List Char) :
    scan position (c :: text) = scan (position + c.utf8Size) text := by
  rw [scan, if_pos h]

theorem scan_unreadable {c : Char} {after : List Char} (h : Unreadable c after) (position : Nat) :
    scan position (c :: after) = .error ⟨.unknownCharacter c, position⟩ := by
  have hlexeme := lexeme?_eq_none_iff.2 h.2
  rw [scan, h.1]
  simp only [Bool.false_eq_true, if_false]
  split
  · rfl
  · rename_i hfound
    rw [hlexeme] at hfound
    cases hfound

theorem scan_lexeme {kind : Kind} {lexeme : List Char} (hfits : Fits kind lexeme)
    {text : List Char} (hends : Ends kind lexeme text) (position : Nat) :
    scan position (lexeme ++ text) =
      (scan (position + Source.width lexeme) text).map (ofLexeme kind lexeme position :: ·) := by
  have hlexeme := lexeme?_of_fits hfits hends
  obtain ⟨c, lexeme, rfl⟩ := List.exists_cons_of_ne_nil hfits.ne_nil
  rw [List.cons_append] at hlexeme ⊢
  rw [scan, hfits.not_blank]
  simp only [Bool.false_eq_true, if_false]
  split
  · rename_i hfound
    rw [hlexeme] at hfound
    cases hfound
  · rename_i hfound
    rw [hlexeme] at hfound
    cases hfound
    cases scan (position + Source.width (c :: lexeme)) text <;> rfl

/-! ## 3. What is scanned is split -/

theorem lexeme_splits {position : Nat} {text lexeme after rest : List Char} {kind : Kind}
    {tokens : List Token} (h : lexeme? text = some (kind, lexeme, after))
    (hsplits : Splits (position + Source.width lexeme) after tokens rest) :
    Splits position text (ofLexeme kind lexeme position :: tokens) rest := by
  obtain ⟨rfl, hfits, hends⟩ := lexeme?_iff.1 h
  exact .lexeme hfits hends rfl rfl hsplits

/-- **The tokens that are scanned split the text.** -/
theorem splits_of_scan {position : Nat} {text : List Char} {tokens : List Token}
    (h : scan position text = .ok tokens) : Splits position text tokens [] := by
  fun_induction scan position text generalizing tokens with
  | case1 position => cases h; exact .done
  | case2 position c text hblank ih => exact .blank hblank (ih h)
  | case3 position c text hblank hlexeme => cases h
  | case4 position c text hblank kind lexeme after hlexeme fault hscan ih => cases h
  | case5 position c text hblank kind lexeme after hlexeme tokens' hscan ih =>
    cases h
    exact lexeme_splits hlexeme (ih hscan)

/-- **Scanning fails at a character that is unreadable, behind what is split.** -/
theorem fault_of_scan {position : Nat} {text : List Char} {fault : Fault}
    (h : scan position text = .error fault) :
    ∃ tokens before c after, text = before ++ c :: after ∧
      Splits position text tokens (c :: after) ∧ Unreadable c after ∧
      fault = ⟨.unknownCharacter c, position + Source.width before⟩ := by
  fun_induction scan position text with
  | case1 position => cases h
  | case2 position c text hblank ih =>
    obtain ⟨tokens, before, d, after, rfl, hsplits, hstuck, rfl⟩ := ih h
    refine ⟨tokens, c :: before, d, after, rfl, .blank hblank hsplits, hstuck, ?_⟩
    rw [Source.width_cons, Nat.add_assoc]
  | case3 position c text hblank hlexeme =>
    cases h
    have hstuck : Unreadable c text := ⟨by simpa using hblank, lexeme?_eq_none_iff.1 hlexeme⟩
    exact ⟨[], [], c, text, rfl, .done, hstuck, rfl⟩
  | case4 position c text hblank kind lexeme after hlexeme fault' hscan ih =>
    cases h
    obtain ⟨tokens, before, d, rest, hafter, hsplits, hstuck, rfl⟩ := ih hscan
    have htext := (lexeme?_iff.1 hlexeme).1
    refine ⟨_, lexeme ++ before, d, rest, ?_, lexeme_splits hlexeme hsplits, hstuck, ?_⟩
    · rw [htext, hafter, List.append_assoc]
    · rw [Source.width_append, Nat.add_assoc]
  | case5 position c text hblank kind lexeme after hlexeme tokens hscan ih => cases h

/-! ## 4. What is split is scanned -/

/-- **Scanning splits off what can be split off, and goes on behind it.** -/
theorem scan_of_splits {position : Nat} {text rest : List Char} {tokens : List Token}
    (h : Splits position text tokens rest) :
    ∃ before, text = before ++ rest ∧
      scan position text =
        (scan (position + Source.width before) rest).map (tokens ++ ·) := by
  induction h with
  | @done position text =>
    refine ⟨[], rfl, ?_⟩
    cases hscan : scan position text <;> simp [hscan, Except.map]
  | @blank position c text rest tokens hblank _ ih =>
    obtain ⟨before, rfl, hscan⟩ := ih
    refine ⟨c :: before, rfl, ?_⟩
    rw [scan_blank hblank, hscan, Source.width_cons, Nat.add_assoc]
  | @lexeme position lexeme text rest token tokens hfits hends hposition htext _ ih =>
    obtain ⟨before, rfl, hscan⟩ := ih
    have htoken : ofLexeme token.kind lexeme position = token := by
      rw [ofLexeme, ← hposition, ← htext]
    refine ⟨lexeme ++ before, (List.append_assoc _ _ _).symm, ?_⟩
    rw [scan_lexeme hfits hends, hscan, htoken, Source.width_append, Nat.add_assoc]
    cases scan (position + (Source.width lexeme + Source.width before)) rest <;> rfl

theorem scan_of_splits_end {text : List Char} {tokens : List Token}
    (h : Splits 0 text tokens []) : scan 0 text = .ok tokens := by
  obtain ⟨before, -, hscan⟩ := scan_of_splits h
  rw [hscan, scan, Except.map, List.append_nil]

/-! ## 5. Whole sources -/

/-- **Scanning is lossless, and every lexeme is as long as it can be.** The tokens of a source are the one
    way to split it. A source that cannot be split has a fault at the character at which every
    attempt to split it ends. -/
theorem ofSource_iff_splits (source : String) :
    (∀ tokens, ofSource source = .ok tokens ↔ Splits 0 source.toList tokens []) ∧
    (∀ tokens others, Splits 0 source.toList tokens [] → Splits 0 source.toList others [] →
      tokens = others) ∧
    ∀ fault, ofSource source = .error fault ↔
      ∃ tokens before c after, source.toList = before ++ c :: after ∧
        Splits 0 source.toList tokens (c :: after) ∧ Unreadable c after ∧
        fault = ⟨.unknownCharacter c, Source.width before⟩ := by
  refine ⟨fun tokens => ⟨splits_of_scan, scan_of_splits_end⟩, ?_, fun fault => ⟨?_, ?_⟩⟩
  · intro tokens others htokens hothers
    have hscan := scan_of_splits_end htokens
    rw [scan_of_splits_end hothers] at hscan
    exact (Except.ok.inj hscan).symm
  · intro h
    obtain ⟨tokens, before, c, after, htext, hsplits, hstuck, hfault⟩ := fault_of_scan h
    exact ⟨tokens, before, c, after, htext, hsplits, hstuck, by rw [hfault, Nat.zero_add]⟩
  · rintro ⟨tokens, before, c, after, htext, hsplits, hstuck, rfl⟩
    obtain ⟨before', htext', hscan⟩ := scan_of_splits hsplits
    rw [htext] at htext'
    obtain rfl := List.append_cancel_right htext'
    rw [ofSource, hscan, scan_unreadable hstuck, Nat.zero_add]
    rfl

/-- The separator is left out of the number, and the sigil marks a character of two bytes. Without that
    character the sigil is the fault, at the offset behind the number and the blank. -/
theorem ofSource_iff_splits_sigil :
    (Splits 0 "1_0 $é".toList [⟨"10", .literal, 0⟩, ⟨"$é", .var, 4⟩] [] ∧
      ofSource "1_0 $é" = .ok [⟨"10", .literal, 0⟩, ⟨"$é", .var, 4⟩] ∧
      ∀ others, Splits 0 "1_0 $é".toList others [] →
        others = [⟨"10", .literal, 0⟩, ⟨"$é", .var, 4⟩]) ∧
    ofSource "1_0 $" = .error ⟨.unknownCharacter '$', 4⟩ := by
  have hfits : Fits .literal ['1', '_', '0'] := .plain rfl (List.all_eq_true.1 rfl)
  have hnumber {text rest : List Char} {tokens : List Token}
      (h : Splits 4 ('$' :: text) tokens rest) :
      Splits 0 (['1', '_', '0'] ++ ' ' :: '$' :: text) (⟨"10", .literal, 0⟩ :: tokens) rest := by
    have hends : Ends .literal ['1', '_', '0'] (' ' :: '$' :: text) := by
      refine ⟨fun c hc => by cases hc; rfl, ?_⟩
      rintro ⟨mark, hmark, hbegins⟩
      cases hmark <;> simp at hbegins
    exact .lexeme hfits hends rfl rfl (.blank rfl h)
  have hsigil : Splits 4 (['$', 'é'] ++ []) [⟨"$é", .var, 4⟩] [] :=
    .lexeme (.var rfl) trivial rfl rfl .done
  have hsplits := hnumber hsigil
  have hstuck : Unreadable '$' [] := ⟨rfl, .inr ⟨rfl, rfl⟩⟩
  refine ⟨⟨hsplits, ((ofSource_iff_splits "1_0 $é").1 _).2 hsplits, fun others hothers => ?_⟩, ?_⟩
  · exact (ofSource_iff_splits "1_0 $é").2.1 _ _ hothers hsplits
  · refine ((ofSource_iff_splits "1_0 $").2.2 _).2 ?_
    exact ⟨_, ['1', '_', '0', ' '], '$', [], rfl, hnumber .done, hstuck, rfl⟩

end Formula.Token
