import Formula.Proofs.Token.Split

/-!
# Where tokens stand

A token carries a byte offset, a text that may be shorter than its lexeme, and a kind. Here the three
are tied to the source again.

* `Stands position text token`: the token is a lexeme of a text that begins at byte `position` of its
  source, and its offset is where that lexeme begins.
* `Splits.stands`: every token that a text is split into stands in it. The induction is on the split,
  and a token of the rest of a text is moved behind what was split off before it (`Stands.behind`).
* `Stands.text_prefix`: the text of a token is what the source goes on with at its offset, unless
  the token is a number.
-/

namespace Formula

namespace Source

/-- The width of the characters of a source is its size in bytes. -/
theorem width_toList (source : String) : width source.toList = source.utf8ByteSize := by
  suffices hlist : ∀ text : List Char, width text = (String.ofList text).utf8ByteSize by
    rw [hlist, String.ofList_toList]
  intro text
  induction text with
  | nil => rfl
  | cons c text ih =>
    have hsplit : String.ofList (c :: text) = String.singleton c ++ String.ofList text := by
      rw [String.singleton_eq_ofList, ← String.ofList_append]
      rfl
    rw [width_cons, ih, hsplit, String.utf8ByteSize_append, String.utf8ByteSize_singleton]

end Source

namespace Token

/-- The token is a lexeme of the text, and its offset is where the lexeme begins. The text begins at
    byte `position` of its source. -/
inductive Stands (position : Nat) (text : List Char) (token : Token) : Prop
  | intro {before lexeme after : List Char} (htext : text = before ++ (lexeme ++ after))
      (hfits : Fits token.kind lexeme) (hends : Ends token.kind lexeme after)
      (hposition : token.position = position + Source.width before)
      (hword : token.text = String.ofList
        (if token.kind = .literal then lexeme.filter (· ≠ '_') else lexeme))

namespace Stands

variable {position : Nat} {text : List Char} {token : Token}

/-- A token of the rest of a text is a token of the whole. -/
theorem behind {front : List Char} (h : Stands (position + Source.width front) text token) :
    Stands position (front ++ text) token := by
  obtain ⟨htext, hfits, hends, hposition, hword⟩ := h
  rename_i before lexeme after
  have hwhole : front ++ text = (front ++ before) ++ (lexeme ++ after) := by
    rw [htext, List.append_assoc]
  have hoffset : token.position = position + Source.width (front ++ before) := by
    rw [hposition, Source.width_append, Nat.add_assoc]
  exact ⟨hwhole, hfits, hends, hoffset, hword⟩

/-- **The text of a token that is no number is written at its offset**, and it is not empty. -/
theorem text_prefix (h : Stands position text token) (hkind : token.kind ≠ .literal) :
    token.text ≠ "" ∧ ∃ before after, text = before ++ after ∧
      token.position = position + Source.width before ∧ token.text.toList <+: after := by
  obtain ⟨htext, hfits, -, hposition, hword⟩ := h
  rename_i before lexeme after
  rw [if_neg hkind] at hword
  have hchars : token.text.toList = lexeme := by rw [hword, String.toList_ofList]
  refine ⟨fun hempty => ?_, before, lexeme ++ after, htext, hposition, after, by rw [hchars]⟩
  rw [hempty] at hchars
  exact hfits.ne_nil hchars.symm

end Stands

/-- **Every token of a text stands in it.** -/
theorem Splits.stands {position : Nat} {text rest : List Char} {tokens : List Token}
    (h : Splits position text tokens rest) : ∀ token ∈ tokens, Stands position text token := by
  induction h with
  | done => exact List.forall_mem_nil _
  | @blank position c text rest tokens _ _ ih =>
    intro token htoken
    have hrest : Stands (position + Source.width [c]) text token := ih token htoken
    exact hrest.behind
  | @lexeme position lexeme text rest first tokens hfits hends hposition hword _ ih =>
    intro token htoken
    rcases List.mem_cons.1 htoken with rfl | htoken
    · have hfront : lexeme ++ text = [] ++ (lexeme ++ text) := rfl
      exact ⟨hfront, hfits, hends, hposition, hword⟩
    · exact (ih token htoken).behind

/-- Every token of a source stands in it. -/
theorem stands_of_source {source : String} {tokens : List Token}
    (h : ofSource source = .ok tokens) : ∀ token ∈ tokens, Stands 0 source.toList token :=
  (splits_of_scan h).stands

end Token

end Formula
