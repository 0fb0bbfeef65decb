import Formula.Token

/-!
# Lexemes

What the lexemes of each kind look like, and where one ends, said without a scanner:

* `Fits kind lexeme`: the lexeme has the shape of its kind.
* `Ends kind lexeme rest`: in front of `rest` the lexeme cannot be longer. Only names and numbers can
  be longer at all. A number that has no exponent may still get one, and a number that has one
  gets no point any more.

`lexeme?_iff` is the main statement: the one lexeme that is found at the beginning of a text is the
one that fits and ends there. `lexeme?_eq_none_iff` says when there is none.
-/

namespace Formula.Token

/-! ## 1. Shapes -/

/-- The beginning of an exponent: an `e`, perhaps a sign, and a digit. -/
inductive Mark : List Char → Prop
  | unsigned {d : Char} (hd : d.isDigit = true) : Mark ['e', d]
  | signed {sign d : Char} (hsign : sign = '+' ∨ sign = '-') (hd : d.isDigit = true) :
      Mark ['e', sign, d]

/-- The lexemes of each kind. -/
inductive Fits : Kind → List Char → Prop
  | operator {c : Char} (hc : isOperator c = true) : Fits .operator [c]
  | plain {d : Char} {digits : List Char} (hd : d.isDigit = true)
      (hdigits : ∀ c ∈ digits, continuesLiteral c = true) : Fits .literal (d :: digits)
  | exponent {d : Char} {digits mark more : List Char} (hd : d.isDigit = true)
      (hdigits : ∀ c ∈ digits, continuesLiteral c = true) (hmark : Mark mark)
      (hmore : ∀ c ∈ more, continuesExponent c = true) :
      Fits .literal (d :: digits ++ (mark ++ more))
  | comma : Fits .comma [',']
  | var {sigil c : Char} (hsigil : isSigil sigil = true) : Fits .var [sigil, c]
  | identifier {c : Char} {more : List Char} (hc : c.isAlpha = true)
      (hmore : ∀ d ∈ more, d.isAlphanum = true) : Fits .identifier (c :: more)

/-- A text begins with an exponent. -/
def BeginsExponent (text : List Char) : Prop := ∃ mark, Mark mark ∧ mark <+: text

/-- No lexeme of the kind that begins with this one is longer in front of `rest`. -/
def Ends (kind : Kind) (lexeme rest : List Char) : Prop :=
  match kind with
  | .literal =>
    if 'e' ∈ lexeme then ∀ c ∈ rest.head?, continuesExponent c = false
    else (∀ c ∈ rest.head?, continuesLiteral c = false) ∧ ¬ BeginsExponent rest
  | .identifier => ∀ c ∈ rest.head?, c.isAlphanum = false
  | .operator | .comma | .var => True

/-! ## 2. Character classes -/

/-- A character of one class is none of the listed ones, if none of those is of the class. -/
theorem notMem_of_class {p : Char → Bool} {listed : List Char} {c : Char} (hc : p c = true)
    (hnone : listed.all (fun d => !p d) = true) : c ∉ listed := by
  intro hmem
  have hother := List.all_eq_true.1 hnone c hmem
  rw [hc] at hother
  cases hother

theorem isOperator_of_isDigit {c : Char} (h : c.isDigit = true) : isOperator c = false :=
  decide_eq_false (notMem_of_class h rfl)

theorem isOperator_of_isAlpha {c : Char} (h : c.isAlpha = true) : isOperator c = false :=
  decide_eq_false (notMem_of_class h rfl)

theorem isSigil_of_isAlpha {c : Char} (h : c.isAlpha = true) : isSigil c = false :=
  decide_eq_false (notMem_of_class h rfl)

theorem isDigit_of_isAlpha {c : Char} (h : c.isAlpha = true) : c.isDigit = false := by
  have hletter : (65 ≤ c.val ∧ c.val ≤ 90) ∨ (97 ≤ c.val ∧ c.val ≤ 122) := by
    rcases Bool.or_eq_true_iff.1 h with hupper | hlower
    · exact .inl (of_decide_eq_true hupper)
    · obtain ⟨hfrom, hto⟩ := Bool.and_eq_true_iff.1 hlower
      exact .inr ⟨of_decide_eq_true hfrom, of_decide_eq_true hto⟩
  cases hdigit : c.isDigit with
  | false => rfl
  | true =>
    obtain ⟨hfrom, hto⟩ := Bool.and_eq_true_iff.1 hdigit
    have hbounds : 48 ≤ c.val ∧ c.val ≤ 57 := ⟨of_decide_eq_true hfrom, of_decide_eq_true hto⟩
    grind

theorem ne_comma_of_isAlpha {c : Char} (h : c.isAlpha = true) : c ≠ ',' := by
  rintro rfl
  cases h

theorem sigil_cases {c : Char} (h : isSigil c = true) : c = '$' ∨ c = '#' := by
  simpa [isSigil] using h

/-! ## 3. Runs of characters -/

/-- A run of a class ends in front of a character of another class. -/
theorem takeWhile_run {p : Char → Bool} {run rest : List Char} (hrun : ∀ c ∈ run, p c = true)
    (hrest : ∀ c ∈ rest.head?, p c = false) :
    (run ++ rest).takeWhile p = run ∧ (run ++ rest).dropWhile p = rest := by
  rw [List.takeWhile_append_of_pos hrun, List.dropWhile_append_of_pos hrun]
  cases rest with
  | nil => simp
  | cons c rest => simp [hrest c rfl]

theorem head?_dropWhile {p : Char → Bool} {text : List Char} :
    ∀ c ∈ (text.dropWhile p).head?, p c = false := by
  intro c hc
  have hhead := List.head?_dropWhile_not p text
  rw [hc] at hhead
  exact hhead

theorem forall_takeWhile {p : Char → Bool} {text : List Char} : ∀ c ∈ text.takeWhile p, p c = true :=
  List.all_eq_true.1 List.all_takeWhile

/-! ## 4. Exponents -/

theorem splitExponent_mark {mark : List Char} (h : Mark mark) (text : List Char) :
    splitExponent (mark ++ text) =
      (mark ++ text.takeWhile continuesExponent, text.dropWhile continuesExponent) := by
  cases h with
  | unsigned hd => simp [splitExponent, hd]
  | signed hsign hd => rcases hsign with rfl | rfl <;> simp [splitExponent, hd]

theorem splitExponent_of_not {text : List Char} (h : ¬ BeginsExponent text) :
    splitExponent text = ([], text) := by
  unfold splitExponent
  split
  · rename_i c rest
    split
    · rename_i hd
      exact absurd ⟨_, .unsigned hd, rest, rfl⟩ h
    · split
      · rename_i hsign
        split
        · rename_i d rest
          split
          · rename_i hd
            exact absurd ⟨_, .signed hsign hd, rest, rfl⟩ h
          · rfl
        · rfl
      · rfl
  · rfl

theorem Mark.e_mem {mark : List Char} (h : Mark mark) : 'e' ∈ mark := by
  cases h <;> exact List.mem_cons_self

/-- A number without an exponent has no `e`. -/
theorem e_notMem_plain {d : Char} {digits : List Char} (hd : d.isDigit = true)
    (hdigits : ∀ c ∈ digits, continuesLiteral c = true) : 'e' ∉ d :: digits := by
  intro he
  rcases List.mem_cons.1 he with rfl | he
  · cases hd
  · cases hdigits 'e' he

/-! ## 5. The lexeme at the beginning of a text -/

theorem Fits.ne_nil {kind : Kind} {lexeme : List Char} (h : Fits kind lexeme) : lexeme ≠ [] := by
  cases h <;> simp

/-- **A lexeme that fits and ends is found.** -/
theorem lexeme?_of_fits {kind : Kind} {lexeme rest : List Char} (hfits : Fits kind lexeme)
    (hends : Ends kind lexeme rest) : lexeme? (lexeme ++ rest) = some (kind, lexeme, rest) := by
  cases hfits with
  | operator hc => simp [lexeme?, hc]
  | @plain d digits hd hdigits =>
    rw [Ends, if_neg (e_notMem_plain hd hdigits)] at hends
    obtain ⟨hrun, hafter⟩ := takeWhile_run hdigits hends.1
    have hsplit := splitExponent_of_not hends.2
    simp [lexeme?, isOperator_of_isDigit hd, hd, hrun, hafter, hsplit]
  | @exponent d digits mark more hd hdigits hmark hmore =>
    have he : 'e' ∈ d :: digits ++ (mark ++ more) := by simp [hmark.e_mem]
    rw [Ends, if_pos he] at hends
    have hmarkhead : ∀ c ∈ (mark ++ (more ++ rest)).head?, continuesLiteral c = false := by
      cases hmark <;> simp [continuesLiteral, Char.isDigit]
    obtain ⟨hrun, hafter⟩ := takeWhile_run hdigits hmarkhead
    obtain ⟨hmorerun, hmoreafter⟩ := takeWhile_run hmore hends
    have hsplit := splitExponent_mark hmark (more ++ rest)
    rw [hmorerun, hmoreafter] at hsplit
    simp [lexeme?, isOperator_of_isDigit hd, hd, hrun, hafter, hsplit]
  | comma => rfl
  | @var sigil c hsigil => rcases sigil_cases hsigil with rfl | rfl <;> rfl
  | @identifier c more hc hmore =>
    obtain ⟨hrun, hafter⟩ := takeWhile_run hmore hends
    simp [lexeme?, isOperator_of_isAlpha hc, isDigit_of_isAlpha hc, ne_comma_of_isAlpha hc,
      isSigil_of_isAlpha hc, hc, hrun, hafter]

/-- The number at the beginning of a text fits and ends. -/
theorem fits_literal {d : Char} {text : List Char} (hd : d.isDigit = true) :
    let after := text.dropWhile continuesLiteral
    let lexeme := d :: text.takeWhile continuesLiteral ++ (splitExponent after).1
    Fits .literal lexeme ∧ Ends .literal lexeme (splitExponent after).2 := by
  intro after lexeme
  by_cases hbegins : BeginsExponent after
  · obtain ⟨mark, hmark, tail, htail⟩ := hbegins
    have hsplit := splitExponent_mark hmark tail
    rw [htail] at hsplit
    have hlexeme : lexeme =
        d :: text.takeWhile continuesLiteral ++ (mark ++ tail.takeWhile continuesExponent) := by
      simp only [lexeme, hsplit]
    have he : 'e' ∈ lexeme := by simp [hlexeme, hmark.e_mem]
    refine ⟨hlexeme ▸ .exponent hd forall_takeWhile hmark forall_takeWhile, ?_⟩
    rw [Ends, if_pos he, hsplit]
    exact head?_dropWhile
  · have hsplit := splitExponent_of_not hbegins
    have hlexeme : lexeme = d :: text.takeWhile continuesLiteral := by
      simp only [lexeme, hsplit, List.append_nil]
    have he : 'e' ∉ lexeme := hlexeme ▸ e_notMem_plain hd forall_takeWhile
    refine ⟨hlexeme ▸ .plain hd forall_takeWhile, ?_⟩
    rw [Ends, if_neg he, hsplit]
    exact ⟨head?_dropWhile, hbegins⟩

/-- **A lexeme that is found fits and ends.** -/
theorem fits_of_lexeme? {text lexeme rest : List Char} {kind : Kind}
    (h : lexeme? text = some (kind, lexeme, rest)) : Fits kind lexeme ∧ Ends kind lexeme rest := by
  cases text with
  | nil => cases h
  | cons c text =>
    rw [lexeme?.eq_def] at h
    dsimp only at h
    split at h
    · rename_i hoperator
      cases h
      exact ⟨.operator hoperator, trivial⟩
    · split at h
      · rename_i hdigit
        cases h
        exact fits_literal hdigit
      · split at h
        · rename_i hcomma
          cases h
          exact ⟨hcomma ▸ .comma, trivial⟩
        · split at h
          · rename_i hsigil
            cases text with
            | nil => cases h
            | cons d text =>
              cases h
              exact ⟨.var hsigil, trivial⟩
          · split at h
            · rename_i halpha
              cases h
              exact ⟨.identifier halpha forall_takeWhile, head?_dropWhile⟩
            · cases h

/-- **The lexeme at the beginning of a text is the one that fits and ends there.** -/
theorem lexeme?_iff {text lexeme rest : List Char} {kind : Kind} :
    lexeme? text = some (kind, lexeme, rest) ↔
      text = lexeme ++ rest ∧ Fits kind lexeme ∧ Ends kind lexeme rest := by
  constructor
  · intro h
    exact ⟨(lexeme?_append h).2.symm, fits_of_lexeme? h⟩
  · rintro ⟨rfl, hfits, hends⟩
    exact lexeme?_of_fits hfits hends

/-- **There is no lexeme where none begins with the character, and at a sigil with nothing after
    it.** -/
theorem lexeme?_eq_none_iff {c : Char} {text : List Char} :
    lexeme? (c :: text) = none ↔
      (∀ kind lexeme, ¬ Fits kind (c :: lexeme)) ∨ (isSigil c = true ∧ text = []) := by
  constructor
  · intro h
    by_cases hsigil : isSigil c = true
    · cases text with
      | nil => exact .inr ⟨hsigil, rfl⟩
      | cons d text => rcases sigil_cases hsigil with rfl | rfl <;> cases h
    · refine .inl fun kind lexeme hfits => ?_
      generalize hword : c :: lexeme = word at hfits
      cases hfits with
      | operator hc => cases hword; simp [lexeme?, hc] at h
      | plain hd | exponent hd => cases hword; simp [lexeme?, isOperator_of_isDigit hd, hd] at h
      | comma => cases hword; cases h
      | var hc => cases hword; exact hsigil hc
      | identifier hc =>
        cases hword
        simp [lexeme?, isOperator_of_isAlpha hc, isDigit_of_isAlpha hc, ne_comma_of_isAlpha hc,
          hsigil, hc] at h
  · rintro (hnone | ⟨hsigil, rfl⟩)
    · cases hlexeme : lexeme? (c :: text) with
      | none => rfl
      | some found =>
        obtain ⟨kind, lexeme, rest⟩ := found
        obtain ⟨happend, hfits, -⟩ := lexeme?_iff.1 hlexeme
        obtain ⟨d, lexeme, rfl⟩ := List.exists_cons_of_ne_nil hfits.ne_nil
        cases happend
        exact absurd hfits (hnone kind lexeme)
    · rcases sigil_cases hsigil with rfl | rfl <;> rfl

/-- A lexeme does not begin with a blank. -/
theorem Fits.not_blank {kind : Kind} {c : Char} {lexeme : List Char} (h : Fits kind (c :: lexeme)) :
    isBlank c = false := by
  cases hblank : isBlank c with
  | false => rfl
  | true =>
    have hnone : lexeme? (c :: lexeme) = none := by
      have hmem : c ∈ [' ', '\t', '\n', '\x0b', '\x0c', '\r'] := by simpa [isBlank] using hblank
      simp only [List.mem_cons, List.not_mem_nil, or_false] at hmem
      rcases hmem with rfl | rfl | rfl | rfl | rfl | rfl <;> rfl
    rcases lexeme?_eq_none_iff.1 hnone with hnone | ⟨hsigil, -⟩
    · exact absurd h (hnone kind lexeme)
    · rcases sigil_cases hsigil with rfl | rfl <;> cases hblank

end Formula.Token
