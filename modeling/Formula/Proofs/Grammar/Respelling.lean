import Formula.Proofs.Grammar.Spelling
import Formula.Proofs.Reader.Places
import Formula.Proofs.Token.Place

/-!
# Respelling a source

The texts of the tokens of a source, with blanks between any two of them, make a source that says the same.
The text of a number is not what was written, since its digit separators are gone, and whether an `e`
belongs to a number depends on what follows. So it is shown first that what the scanner puts out it
also takes in.

* `Token.Stable`: the text of a token is itself a lexeme of the same kind and is scanned to itself.
* `Stands.stable`: the tokens of a source are stable. Separators may be left out of a number
  (`Fits.unseparated`), also those in front of its exponent.
* `Splits.respelled`: a respelled row of stable tokens is split into tokens that say the same. The
  induction is on the tokens, and a blank behind a lexeme ends it, of whatever kind it is.
* `ofSource_respelled` is the main statement, on the tokens and on the tree or the cause of the fault.
-/

namespace Formula

namespace Token

/-! ## 1. Texts of tokens -/

/-- The text of the token is a lexeme of its kind, with nothing in it that a scan leaves out. -/
structure Stable (token : Token) : Prop where
  fits : Fits token.kind token.text.toList
  unseparated : token.kind = .literal → '_' ∉ token.text.toList

/-- **A number is one without its separators.** -/
theorem Fits.unseparated {lexeme : List Char} (h : Fits .literal lexeme) :
    Fits .literal (lexeme.filter (· ≠ '_')) := by
  have hdigit {d : Char} (hd : d.isDigit = true) : d ≠ '_' := by
    rintro rfl
    cases hd
  have hcons {d : Char} (hd : d.isDigit = true) (digits : List Char) :
      (d :: digits).filter (· ≠ '_') = d :: digits.filter (· ≠ '_') :=
    List.filter_cons_of_pos (decide_eq_true (hdigit hd))
  have hclass {p : Char → Bool} {run : List Char} (hrun : ∀ c ∈ run, p c = true) :
      ∀ c ∈ run.filter (· ≠ '_'), p c = true :=
    fun c hc => hrun c (List.mem_filter.1 hc).1
  cases h with
  | plain hd hdigits =>
    rw [hcons hd]
    exact .plain hd (hclass hdigits)
  | @exponent d digits mark more hd hdigits hmark hmore =>
    have hkept : mark.filter (· ≠ '_') = mark := by
      refine List.filter_eq_self.2 ?_
      cases hmark with
      | unsigned hc => simpa using hdigit hc
      | signed hsign hc => rcases hsign with rfl | rfl <;> simpa using hdigit hc
    rw [List.filter_append, List.filter_append, hkept, hcons hd]
    exact .exponent hd (hclass hdigits) hmark (hclass hmore)

/-- **What stands in a text as a token is scanned to itself.** -/
theorem Stands.stable {position : Nat} {text : List Char} {token : Token}
    (h : Stands position text token) : token.Stable := by
  obtain ⟨-, hfits, -, -, hword⟩ := h
  by_cases hkind : token.kind = .literal
  · rw [if_pos hkind] at hword
    rw [hkind] at hfits
    refine ⟨?_, fun _ => ?_⟩
    · rw [hkind, hword, String.toList_ofList]
      exact hfits.unseparated
    · rw [hword, String.toList_ofList]
      simp
  · rw [if_neg hkind] at hword
    refine ⟨?_, fun hliteral => absurd hliteral hkind⟩
    rw [hword, String.toList_ofList]
    exact hfits

/-! ## 2. Blanks -/

/-- A blank belongs to no lexeme that can be longer. -/
theorem isBlank_cases {c : Char} (h : isBlank c = true) :
    continuesLiteral c = false ∧ continuesExponent c = false ∧ c.isAlphanum = false ∧ c ≠ 'e' := by
  have hmem : c ∈ [' ', '\t', '\n', '\x0b', '\x0c', '\r'] := by simpa [isBlank] using h
  simp only [List.mem_cons, List.not_mem_nil, or_false] at hmem
  rcases hmem with rfl | rfl | rfl | rfl | rfl | rfl <;> decide

/-- **A lexeme ends at a blank and at the end of the text.** -/
theorem ends_of_blank {kind : Kind} {lexeme rest : List Char}
    (h : ∀ c ∈ rest.head?, isBlank c = true) : Ends kind lexeme rest := by
  cases kind with
  | literal =>
    rw [Ends]
    split
    · exact fun c hc => (isBlank_cases (h c hc)).2.1
    · refine ⟨fun c hc => (isBlank_cases (h c hc)).1, ?_⟩
      rintro ⟨mark, hmark, tail, rfl⟩
      have he : isBlank 'e' = true := h 'e' (by cases hmark <;> rfl)
      exact (isBlank_cases he).2.2.2 rfl
  | identifier => exact fun c hc => (isBlank_cases (h c hc)).2.2.1
  | operator | comma | var => trivial

theorem Splits.behind_blanks {blanks text rest : List Char} {tokens : List Token}
    (hblanks : ∀ c ∈ blanks, isBlank c = true) {position : Nat}
    (h : Splits (position + Source.width blanks) text tokens rest) :
    Splits position (blanks ++ text) tokens rest := by
  induction blanks generalizing position with
  | nil => exact h
  | cons c blanks ih =>
    obtain ⟨hc, hmore⟩ := List.forall_mem_cons.1 hblanks
    rw [Source.width_cons, ← Nat.add_assoc] at h
    exact .blank hc (ih hmore h)

/-! ## 3. Respelled rows of tokens -/

/-- The texts of a row of tokens with a separator between any two of them. The separators are numbered,
    and the first of them is number `index`. -/
def respell (separator : Nat → String) (index : Nat) : List Token → String
  | [] => ""
  | [token] => token.text
  | token :: next :: rest =>
    token.text ++ (separator index ++ respell separator (index + 1) (next :: rest))

/-- The separators are blanks, at least one at each place. -/
def AllBlank (separator : Nat → String) : Prop :=
  ∀ index, separator index ≠ "" ∧ ∀ c ∈ (separator index).toList, isBlank c = true

/-- A stable token in front of a blank or of nothing is split off. -/
theorem Stable.splits {token : Token} (h : token.Stable) {position : Nat} {text rest : List Char}
    {others : List Token} (hblank : ∀ c ∈ text.head?, isBlank c = true)
    (hsplits : Splits (position + Source.width token.text.toList) text others rest) :
    Splits position (token.text.toList ++ text) ({ token with position } :: others) rest := by
  have htext : token.text = String.ofList (if token.kind = .literal then
      token.text.toList.filter (· ≠ '_') else token.text.toList) := by
    split
    · rename_i hkind
      have hall : ∀ c ∈ token.text.toList, decide (c ≠ '_') = true := fun c hc =>
        decide_eq_true fun heq => h.unseparated hkind (heq ▸ hc)
      rw [List.filter_eq_self.2 hall, String.ofList_toList]
    · rw [String.ofList_toList]
  exact .lexeme h.fits (ends_of_blank hblank) rfl htext hsplits

/-- **Respelled tokens are split into tokens that say the same.** -/
theorem Splits.respelled {separator : Nat → String} (hblank : AllBlank separator)
    {tokens : List Token} (h : ∀ token ∈ tokens, token.Stable) (index position : Nat) :
    ∃ others, Splits position (respell separator index tokens).toList others [] ∧
      others.map word = tokens.map word := by
  induction tokens generalizing index position with
  | nil => exact ⟨[], .done, rfl⟩
  | cons token tail ih =>
    obtain ⟨htoken, htail⟩ := List.forall_mem_cons.1 h
    cases tail with
    | nil =>
      have hsplits : Splits position (token.text.toList ++ []) [{ token with position }] [] :=
        htoken.splits (fun c hc => by cases hc) .done
      rw [List.append_nil] at hsplits
      exact ⟨_, hsplits, rfl⟩
    | cons next rest =>
      obtain ⟨hne, hall⟩ := hblank index
      obtain ⟨others, hothers, hwords⟩ := ih htail (index + 1)
        (position + Source.width token.text.toList + Source.width (separator index).toList)
      have hhead : ∀ c ∈ ((separator index).toList ++
          (respell separator (index + 1) (next :: rest)).toList).head?, isBlank c = true := by
        intro c hc
        have hchars : (separator index).toList ≠ [] := by simpa using hne
        rw [List.head?_append, Option.or_of_isSome (List.isSome_head?.2 hchars)] at hc
        exact hall c (List.mem_of_mem_head? hc)
      have hsplits := htoken.splits hhead (hothers.behind_blanks hall)
      refine ⟨{ token with position } :: others, ?_, ?_⟩
      · rw [respell, String.toList_append, String.toList_append]
        exact hsplits
      · rw [List.map_cons, hwords, List.map_cons]
        rfl

end Token

/-! ## 4. Whole sources -/

namespace Grammar

open Token

/-- Tokens that say the same have the same tree or a fault of the same cause. -/
theorem ofTokens_of_same_words {registry : Registry} {tokens others : List Token}
    (h : others.map word = tokens.map word) (stop otherStop : Nat) :
    (Expr.ofTokens registry otherStop others).mapError Fault.cause =
      (Expr.ofTokens registry stop tokens).mapError Fault.cause := by
  have hunplaced : others.map unplaced = tokens.map unplaced := by
    have hword : unplaced = (fun word => ⟨word.text, word.kind, 0⟩) ∘ Token.word := rfl
    rw [hword, ← List.map_map, h, List.map_map]
  have hcause (x : Except Fault Expr) :
      x.mapError Fault.cause = (x.mapError Fault.unplaced).mapError Fault.cause := by
    cases x <;> rfl
  rw [hcause, ← Reader.ofTokens_unplaced registry otherStop others, hunplaced,
    Reader.ofTokens_unplaced registry stop tokens, ← hcause]

/-- **Respelling the tokens of a source changes nothing but places.** Between any two of the texts
    stand blanks, at least one. The tokens are of the same kinds with the same texts, and in every
    registry the two sources have one tree, or a fault of one cause. -/
theorem ofSource_respelled {source : String} {tokens : List Token}
    (h : Token.ofSource source = .ok tokens) {separator : Nat → String}
    (hblank : AllBlank separator) :
    (∃ others, Token.ofSource (respell separator 0 tokens) = .ok others ∧
      others.map word = tokens.map word) ∧
    ∀ registry, (Expr.ofSource registry (respell separator 0 tokens)).mapError Fault.cause =
      (Expr.ofSource registry source).mapError Fault.cause := by
  have hstable : ∀ token ∈ tokens, token.Stable := fun token htoken =>
    (stands_of_source h token htoken).stable
  obtain ⟨others, hsplits, hwords⟩ := Splits.respelled hblank hstable 0 0
  have hothers : Token.ofSource (respell separator 0 tokens) = .ok others :=
    scan_of_splits_end hsplits
  refine ⟨⟨others, hothers, hwords⟩, fun registry => ?_⟩
  rw [Expr.ofSource, hothers, Expr.ofSource, h]
  exact ofTokens_of_same_words hwords _ _

/-- The tokens of `1_e5$ -e`, whose variable is named by a blank. -/
def separated : List Token :=
  [⟨"1e5", .literal, 0⟩, ⟨"$ ", .var, 4⟩, ⟨"-", .operator, 6⟩, ⟨"e", .identifier, 7⟩]

/-- The number loses its separator, and all tokens but the first get a blank in front of them. -/
theorem ofSource_respelled_separated :
    Token.ofSource "1_e5$ -e" = .ok separated ∧
      respell (fun _ => "\t") 0 separated = "1e5\t$ \t-\te" ∧
      (∃ others, Token.ofSource "1e5\t$ \t-\te" = .ok others ∧
        others.map word = [⟨.literal, "1e5"⟩, ⟨.var, "$ "⟩, ⟨.operator, "-"⟩, ⟨.identifier, "e"⟩]) ∧
      ∀ registry, (Expr.ofSource registry "1e5\t$ \t-\te").mapError Fault.cause =
        (Expr.ofSource registry "1_e5$ -e").mapError Fault.cause := by
  have hnumber : Fits .literal ('1' :: ['_'] ++ (['e', '5'] ++ [])) :=
    .exponent rfl (List.all_eq_true.1 rfl) (.unsigned rfl) (List.forall_mem_nil _)
  have hname : Fits .identifier ['e'] := .identifier rfl (List.forall_mem_nil _)
  have hsplits : Splits 0 (['1', '_', 'e', '5'] ++ (['$', ' '] ++ (['-'] ++ (['e'] ++ []))))
      separated [] :=
    .lexeme hnumber (fun c hc => by cases hc; rfl) rfl rfl (.lexeme (.var rfl) trivial rfl rfl
      (.lexeme (.operator rfl) trivial rfl rfl
        (.lexeme hname (ends_of_blank fun c hc => by cases hc) rfl rfl .done)))
  have hsource : Token.ofSource "1_e5$ -e" = .ok separated := scan_of_splits_end hsplits
  have hfilled : "\t" ≠ "" := by decide
  have htab : ∀ c ∈ "\t".toList, isBlank c = true := List.forall_mem_singleton.2 rfl
  have hblank : AllBlank fun _ => "\t" := fun _ => ⟨hfilled, htab⟩
  exact ⟨hsource, by decide, ofSource_respelled hsource hblank⟩

end Grammar

end Formula
