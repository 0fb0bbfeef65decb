import Formula.Expr.Parse

/-!
# Which token joins two operands

A token after an operand goes on with the formula in one of four ways: as an operator of one of the
three precedences, or without an operator, by beginning a value itself (`Joins`). The reader looks at
the first character of an operator token only, so this holds of tokens that write one character
(`Token.IsSingle`); all tokens of a source do (`Token.ofSource_isSingle`).
-/

namespace Formula

namespace Token

/-! ## 1. Symbols -/

theorem isSymbol_iff {token : Token} {symbol : Char} :
    token.isSymbol symbol = true ↔
      token.kind = .operator ∧ token.text.toList = [symbol] ∧ symbol.utf8Size = 1 := by
  simp [isSymbol]

theorem isSymbol_of_kind {token : Token} {symbol : Char} (h : token.kind ≠ .operator) :
    token.isSymbol symbol = false := by
  cases hsymbol : token.isSymbol symbol with
  | false => rfl
  | true => exact absurd (isSymbol_iff.1 hsymbol).1 h

theorem isSymbol_unique {token : Token} {c d : Char} (hc : token.isSymbol c = true)
    (hd : token.isSymbol d = true) : c = d := by
  have h := (isSymbol_iff.1 hc).2.1
  rw [(isSymbol_iff.1 hd).2.1] at h
  exact (List.singleton_inj.1 h).symm

theorem isSymbol_ne {token : Token} {c d : Char} (hc : token.isSymbol c = true) (h : c ≠ d) :
    token.isSymbol d = false := by
  cases hd : token.isSymbol d with
  | false => rfl
  | true => exact absurd (isSymbol_unique hc hd) h

theorem symbol?_of_isSymbol {token : Token} {symbol : Char} (h : token.isSymbol symbol = true) :
    token.symbol? = some symbol := by
  obtain ⟨hkind, htext, _⟩ := isSymbol_iff.1 h
  rw [symbol?, if_pos hkind, htext]
  rfl

theorem startsOperand_of_isSymbol {token : Token} {symbol : Char}
    (h : token.isSymbol symbol = true) (hne : symbol ≠ '(') : token.startsOperand = false := by
  rw [startsOperand, (isSymbol_iff.1 h).1]
  exact isSymbol_ne h hne

/-! ## 2. Tokens of one character -/

/-- An operator token writes one character. -/
def IsSingle (token : Token) : Prop := token.kind = .operator → token.text.length = 1

instance (token : Token) : Decidable token.IsSingle :=
  inferInstanceAs (Decidable (token.kind = .operator → token.text.length = 1))

theorem isSymbol_of_symbol? {token : Token} {symbol : Char} (hsingle : token.IsSingle)
    (h : token.symbol? = some symbol) (hsize : symbol.utf8Size = 1) :
    token.isSymbol symbol = true := by
  unfold symbol? at h
  split at h
  · rename_i hkind
    obtain ⟨c, hc⟩ := List.length_eq_one_iff.1 (String.length_toList.trans (hsingle hkind))
    rw [hc] at h
    cases h
    exact isSymbol_iff.2 ⟨hkind, hc, hsize⟩
  · cases h

theorem isSingle_ofLexeme {text lexeme rest : List Char} {kind : Kind}
    (h : lexeme? text = some (kind, lexeme, rest)) (position : Nat) :
    (ofLexeme kind lexeme position).IsSingle := by
  intro hkind
  replace hkind : kind = .operator := hkind
  subst hkind
  unfold lexeme? at h
  split at h
  · cases h
  · split at h
    · cases h
      simp [ofLexeme]
    · repeat' split at h
      all_goals cases h

/-- Scanning a text gives tokens of one character. -/
theorem scan_isSingle (position : Nat) (text : List Char) (tokens : List Token)
    (h : scan position text = .ok tokens) : ∀ token ∈ tokens, token.IsSingle := by
  fun_induction scan position text generalizing tokens with
  | case1 position => cases h; simp
  | case2 position c rest hblank ih => exact ih tokens h
  | case3 position c rest hblank hlexeme => cases h
  | case4 position c rest hblank kind lexeme after hlexeme fault hscan ih => cases h
  | case5 position c rest hblank kind lexeme after hlexeme rest' hscan ih =>
    cases h
    intro token htoken
    rcases List.mem_cons.1 htoken with rfl | htoken
    · exact isSingle_ofLexeme hlexeme position
    · exact ih rest' hscan token htoken

/-- **The operator tokens of a source write one character each.** -/
theorem ofSource_isSingle {source : String} {tokens : List Token}
    (h : ofSource source = .ok tokens) : ∀ token ∈ tokens, token.IsSingle :=
  scan_isSingle 0 source.toList tokens h

end Token

/-! ## 3. The operators of each precedence -/

namespace Operator

/-- The precedences of the table, with the symbols of each and how tightly the right operand of each
    has to be read. -/
inductive HasLevel (op : Operator) : Prop
  | sum (hprecedence : op.precedence = 20) (hright : op.rightPrecedence = 21)
      (hsymbol : op.symbol ∈ ['+', '-'])
  | product (hprecedence : op.precedence = 40) (hright : op.rightPrecedence = 41)
      (hsymbol : op.symbol ∈ ['*', '/', '%'])
  | power (hprecedence : op.precedence = 60) (hright : op.rightPrecedence = 60)
      (hsymbol : op.symbol = '^')

theorem hasLevel {op : Operator} (h : op ∈ table) : op.HasLevel := by
  simp only [table, List.mem_cons, List.not_mem_nil, or_false] at h
  rcases h with rfl | rfl | rfl | rfl | rfl | rfl
  · exact .sum rfl rfl (by simp)
  · exact .sum rfl rfl (by simp)
  · exact .product rfl rfl (by simp)
  · exact .product rfl rfl (by simp)
  · exact .product rfl rfl (by simp)
  · exact .power rfl rfl rfl

theorem find?_sum {symbol : Char} (h : symbol ∈ ['+', '-']) :
    ∃ op, find? symbol = some op ∧ op.symbol = symbol ∧ op.precedence = 20 ∧
      op.rightPrecedence = 21 := by
  simp only [List.mem_cons, List.not_mem_nil, or_false] at h
  rcases h with rfl | rfl <;> exact ⟨_, rfl, rfl, rfl, rfl⟩

theorem find?_product {symbol : Char} (h : symbol ∈ ['*', '/', '%']) :
    ∃ op, find? symbol = some op ∧ op.symbol = symbol ∧ op.precedence = 40 ∧
      op.rightPrecedence = 41 := by
  simp only [List.mem_cons, List.not_mem_nil, or_false] at h
  rcases h with rfl | rfl | rfl <;> exact ⟨_, rfl, rfl, rfl, rfl⟩

theorem find?_star :
    ∃ op, find? '*' = some op ∧ op.symbol = '*' ∧ op.precedence = 40 ∧ op.rightPrecedence = 41 :=
  ⟨_, rfl, rfl, rfl, rfl⟩

theorem find?_power :
    ∃ op, find? '^' = some op ∧ op.symbol = '^' ∧ op.precedence = 60 ∧ op.rightPrecedence = 60 :=
  ⟨_, rfl, rfl, rfl, rfl⟩

theorem symbol_utf8Size {op : Operator} (h : op ∈ table) : op.symbol.utf8Size = 1 := by
  cases hasLevel h with
  | sum _ _ hsymbol =>
    revert hsymbol
    generalize op.symbol = symbol
    simp only [List.mem_cons, List.not_mem_nil, or_false]
    rintro (rfl | rfl) <;> rfl
  | product _ _ hsymbol =>
    revert hsymbol
    generalize op.symbol = symbol
    simp only [List.mem_cons, List.not_mem_nil, or_false]
    rintro (rfl | rfl | rfl) <;> rfl
  | power _ _ hsymbol => rw [hsymbol]; rfl

end Operator

/-! ## 4. Joints -/

namespace Joint

/-- The ways in which a token of one character goes on with a formula. -/
inductive Joins (token : Token) : Joint → Prop
  | sum {op : Operator} (hprecedence : op.precedence = 20) (hright : op.rightPrecedence = 21)
      (hsymbol : op.symbol ∈ ['+', '-']) (htoken : token.isSymbol op.symbol = true) :
      Joins token ⟨op, true⟩
  | product {op : Operator} (hprecedence : op.precedence = 40) (hright : op.rightPrecedence = 41)
      (hsymbol : op.symbol ∈ ['*', '/', '%']) (htoken : token.isSymbol op.symbol = true) :
      Joins token ⟨op, true⟩
  | power {op : Operator} (hprecedence : op.precedence = 60) (hright : op.rightPrecedence = 60)
      (hsymbol : op.symbol = '^') (htoken : token.isSymbol op.symbol = true) :
      Joins token ⟨op, true⟩
  | juxtaposition {op : Operator} (hprecedence : op.precedence = 40)
      (hright : op.rightPrecedence = 41) (hsymbol : op.symbol = '*')
      (htoken : token.startsOperand = true) : Joins token ⟨op, false⟩

theorem Joins.rightPrecedence_le {token : Token} {joint : Joint} (h : joint.Joins token) :
    joint.operator.rightPrecedence ≤ 61 := by
  cases h with
  | sum _ hright | product _ hright | power _ hright | juxtaposition _ hright =>
    rw [hright]
    decide

theorem ofToken?_of_startsOperand {token : Token} (h : token.startsOperand = true) :
    ofToken? token = (Operator.find? '*').map fun op => ⟨op, false⟩ := by
  rw [ofToken?, if_pos h]
  rfl

theorem ofToken?_of_isSymbol {token : Token} {symbol : Char} (h : token.isSymbol symbol = true)
    (hne : symbol ≠ '(') :
    ofToken? token = (Operator.find? symbol).map fun op => ⟨op, true⟩ := by
  rw [ofToken?, Token.startsOperand_of_isSymbol h hne, Token.symbol?_of_isSymbol h]
  rfl

theorem ofToken?_joins {token : Token} {joint : Joint} (hsingle : token.IsSingle)
    (h : ofToken? token = some joint) : Joins token joint := by
  cases hstarts : token.startsOperand with
  | true =>
    rw [ofToken?_of_startsOperand hstarts] at h
    obtain ⟨op, hfind, hsymbol, hprecedence, hright⟩ := Operator.find?_star
    rw [hfind] at h
    cases h
    exact .juxtaposition hprecedence hright hsymbol hstarts
  | false =>
    rw [ofToken?, hstarts] at h
    obtain ⟨op, hop, rfl⟩ := Option.map_eq_some_iff.1 h
    obtain ⟨symbol, htext, hfind⟩ := Option.bind_eq_some_iff.1 hop
    have hmem := Operator.find?_mem hfind
    have hsymbol := Operator.find?_symbol hfind
    have htoken : token.isSymbol op.symbol = true := by
      rw [hsymbol]
      exact Token.isSymbol_of_symbol? hsingle htext (hsymbol ▸ Operator.symbol_utf8Size hmem)
    cases Operator.hasLevel hmem with
    | sum hprecedence hright hlevel => exact .sum hprecedence hright hlevel htoken
    | product hprecedence hright hlevel => exact .product hprecedence hright hlevel htoken
    | power hprecedence hright hlevel => exact .power hprecedence hright hlevel htoken

end Joint

end Formula
