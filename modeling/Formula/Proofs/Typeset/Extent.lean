import Formula.Proofs.Typeset.Unambiguous

/-!
# Where a typeset sum ends

The typeset form of a sum ends with its body and has no sign behind it. So an operator behind the sum
looks like an operator in the body: `sum(a,b,B)+R` and `sum(a,b,B+R)` are different trees, but a call gets
no brackets as an operand, and the two are typeset alike.

* `ofExpr_sum`: a typeset sum is its head and then its body.
* `ofExpr_sum_iff`: in front of an operator that stands between its operands, the two trees are typeset
  alike exactly if the body of the one gets no brackets as an operand in the other.
* `ofExpr_sum_extent` is the main statement: the two trees are told apart only by the brackets around a
  sum or difference as a dividend, and by the sign of a subtraction from nothing.
-/

namespace Formula.Latex

variable {registry : Registry}

/-! ## 1. Sums -/

/-- What is typeset in front of the body of a sum. -/
def sumHead (registry : Registry) (start last : Expr) : String :=
  "\\sum_\x7bi=" ++ ofExpr registry start ++ "\x7d^\x7b" ++ ofExpr registry last ++ "\x7d "

theorem ofExpr_sum (h : registry.Reachable) (start last body : Expr) :
    ofExpr registry (.call "sum" [start, last, body]) =
      sumHead registry start last ++ ofExpr registry body := by
  rw [ofExpr_call_row h.sum rfl rfl]
  simp [Sum.row, Piece.join, sumHead, String.append_assoc]

theorem sumHead_ne_empty (registry : Registry) (start last : Expr) :
    sumHead registry start last ≠ "" := by
  simp [sumHead]

/-! ## 2. Operators -/

theorem ofExpr_binary {symbol : Char} {op : Operator} (hop : Operator.find? symbol = some op)
    (left right : Expr) :
    ofExpr registry (.binary symbol left right) =
      op.typeset (operand op .left left (ofExpr registry left))
        (operand op .right right (ofExpr registry right)) := by
  rw [ofExpr, hop]

theorem bracketed_ne (text : String) : bracketed text ≠ text := by
  intro h
  have hlength := congrArg String.length h
  simp only [bracketed, String.length_append] at hlength
  have hopening : "\\left(".length = 6 := rfl
  omega

/-- Brackets always change an operand. -/
theorem operand_eq_iff {op : Operator} {side : Side} {e : Expr} {text : String} :
    operand op side e text = text ↔ needsBrackets op side e = false := by
  unfold operand
  by_cases hbrackets : needsBrackets op side e = true
  · rw [if_pos hbrackets]
    simp [hbrackets, bracketed_ne]
  · rw [if_neg hbrackets]
    simpa using hbrackets

/-- An operator that groups to the left and is typeset as a sign between its operands, wherever there is
    something on its left. -/
structure Infixed (op : Operator) (sign : String) : Prop where
  delimits : op.delimits = false
  grouping : op.grouping = .left
  typeset : ∀ l r, l ≠ "" → op.typeset l r = l ++ sign ++ r

/-- On the left of such an operator only looser operators get brackets. -/
theorem Infixed.needsBrackets_iff {op : Operator} {sign : String} (h : Infixed op sign) {e : Expr} :
    needsBrackets op .left e = true ↔ ∃ symbol left right child, e = .binary symbol left right ∧
      Operator.find? symbol = some child ∧ child.precedence < op.precedence := by
  constructor
  · intro hbrackets
    cases e with
    | number | constant | var | call => cases hbrackets
    | binary symbol left right =>
      rw [needsBrackets, h.delimits] at hbrackets
      cases hfind : Operator.find? symbol with
      | none => simp [hfind] at hbrackets
      | some child =>
        have hlooser : isLooser op child .left = true := by simpa [hfind] using hbrackets
        have hlower : child.precedence < op.precedence := by
          simpa [isLooser, h.grouping] using hlooser
        exact ⟨symbol, left, right, child, rfl, hfind, hlower⟩
  · rintro ⟨symbol, left, right, child, rfl, hfind, hlower⟩
    have hlooser : isLooser op child .left = true := by simp [isLooser, hlower]
    rw [needsBrackets, h.delimits, hfind]
    exact hlooser

/-! ## 3. An operator behind a sum and in its body -/

/-- **An operator behind a sum is typeset as one in its body, unless the body gets brackets there.** The
    operator has to be typeset in the body as it is behind a sum. -/
theorem ofExpr_sum_iff (hregistry : registry.Reachable) {symbol : Char} {op : Operator}
    {sign : String} (hop : Operator.find? symbol = some op) (hinfixed : Infixed op sign)
    (start last body right : Expr)
    (hbody : ∀ r, op.typeset (operand op .left body (ofExpr registry body)) r =
      operand op .left body (ofExpr registry body) ++ sign ++ r) :
    ofExpr registry (.binary symbol (.call "sum" [start, last, body]) right) =
        ofExpr registry (.call "sum" [start, last, .binary symbol body right]) ↔
      needsBrackets op .left body = false := by
  have hsum : sumHead registry start last ++ ofExpr registry body ≠ "" := fun hempty =>
    sumHead_ne_empty registry start last (String.append_eq_empty_iff.1 hempty).1
  -- a call gets no brackets as an operand
  have houtside : operand op .left (.call "sum" [start, last, body])
      (ofExpr registry (.call "sum" [start, last, body])) =
        sumHead registry start last ++ ofExpr registry body := ofExpr_sum hregistry start last body
  rw [ofExpr_binary hop, houtside, hinfixed.typeset _ _ hsum, ofExpr_sum hregistry,
    ofExpr_binary hop, hbody, String.append_assoc, String.append_assoc, String.append_assoc,
    String.append_right_inj, String.append_left_inj, eq_comm, operand_eq_iff]

/-! ## 4. The three operators -/

theorem precedence_ge {op : Operator} (h : op ∈ Operator.table) : 20 ≤ op.precedence := by
  cases Operator.hasLevel h with
  | sum hprecedence | product hprecedence | power hprecedence => omega

/-- The operators of a sum bind too loosely to bracket anything on their left. -/
theorem needsBrackets_sum {op : Operator} {sign : String} (h : Infixed op sign)
    (hprecedence : op.precedence = 20) (e : Expr) : needsBrackets op .left e = false := by
  cases hbrackets : needsBrackets op .left e with
  | false => rfl
  | true =>
    obtain ⟨_, _, _, child, _, hfind, hlower⟩ := h.needsBrackets_iff.1 hbrackets
    have hchild := precedence_ge (Operator.find?_mem hfind)
    omega

/-- An addition behind a sum is never told from one in its body. -/
theorem ofExpr_sum_add (hregistry : registry.Reachable) (start last body right : Expr) :
    ofExpr registry (.binary '+' (.call "sum" [start, last, body]) right) =
      ofExpr registry (.call "sum" [start, last, .binary '+' body right]) := by
  obtain ⟨op, hop, hprecedence, hinfixed, htypeset⟩ : ∃ op, Operator.find? '+' = some op ∧
      op.precedence = 20 ∧ Infixed op " + " ∧ ∀ l r, op.typeset l r = l ++ " + " ++ r :=
    ⟨_, rfl, rfl, ⟨rfl, rfl, fun _ _ _ => rfl⟩, fun _ _ => rfl⟩
  have hsame := ofExpr_sum_iff hregistry hop hinfixed start last body right fun r => htypeset _ r
  exact hsame.2 (needsBrackets_sum hinfixed hprecedence body)

/-- A subtraction behind a sum is told from one in its body only if the body shows nothing. -/
theorem ofExpr_sum_subtract (hregistry : registry.Reachable) (start last body right : Expr) :
    ofExpr registry (.binary '-' (.call "sum" [start, last, body]) right) =
        ofExpr registry (.call "sum" [start, last, .binary '-' body right]) ↔
      ofExpr registry body ≠ "" := by
  obtain ⟨op, hop, hprecedence, hinfixed, hnegation⟩ : ∃ op, Operator.find? '-' = some op ∧
      op.precedence = 20 ∧ Infixed op " - " ∧ ∀ r, op.typeset "" r = "-" ++ r :=
    ⟨_, rfl, rfl, ⟨rfl, rfl, typesetSubtraction_of_ne⟩, fun _ => rfl⟩
  have hbrackets := needsBrackets_sum hinfixed hprecedence body
  have hoperand : operand op .left body (ofExpr registry body) = ofExpr registry body :=
    operand_eq_iff.2 hbrackets
  by_cases hbody : ofExpr registry body = ""
  · refine iff_of_false (fun hsame => ?_) (not_not.2 hbody)
    have hhead : operand op .left (.call "sum" [start, last, body])
        (ofExpr registry (.call "sum" [start, last, body])) = sumHead registry start last := by
      rw [operand_eq_iff.2 rfl, ofExpr_sum hregistry, hbody, String.append_empty]
    have hne := sumHead_ne_empty registry start last
    rw [ofExpr_binary hop, hhead, hinfixed.typeset _ _ hne, ofExpr_sum hregistry,
      ofExpr_binary hop, hoperand, hbody, hnegation, String.append_assoc,
      String.append_right_inj, String.append_left_inj] at hsame
    exact absurd hsame (by decide)
  · have hinside : ∀ r, op.typeset (operand op .left body (ofExpr registry body)) r =
        operand op .left body (ofExpr registry body) ++ " - " ++ r := by
      intro r
      rw [hoperand]
      exact hinfixed.typeset _ r hbody
    have hsame := ofExpr_sum_iff hregistry hop hinfixed start last body right hinside
    exact iff_of_true (hsame.2 hbrackets) hbody

/-- A remainder of a sum is told from one in its body only by the brackets of a dividend. -/
theorem ofExpr_sum_remainder (hregistry : registry.Reachable) (start last body right : Expr) :
    ofExpr registry (.binary '%' (.call "sum" [start, last, body]) right) =
        ofExpr registry (.call "sum" [start, last, .binary '%' body right]) ↔
      ¬ ∃ child left other, child ∈ ['+', '-'] ∧ body = .binary child left other := by
  obtain ⟨op, hop, hprecedence, hinfixed, htypeset⟩ : ∃ op, Operator.find? '%' = some op ∧
      op.precedence = 40 ∧ Infixed op " \\bmod " ∧ ∀ l r, op.typeset l r = l ++ " \\bmod " ++ r :=
    ⟨_, rfl, rfl, ⟨rfl, rfl, fun _ _ _ => rfl⟩, fun _ _ => rfl⟩
  rw [ofExpr_sum_iff hregistry hop hinfixed start last body right fun r => htypeset _ r,
    ← Bool.not_eq_true, hinfixed.needsBrackets_iff, hprecedence]
  refine not_congr ⟨?_, ?_⟩
  · rintro ⟨symbol, left, other, child, rfl, hfind, hlower⟩
    refine ⟨symbol, left, other, ?_, rfl⟩
    rw [← Operator.find?_symbol hfind]
    cases Operator.hasLevel (Operator.find?_mem hfind) with
    | sum _ _ hsymbol => exact hsymbol
    | product hlevel | power hlevel =>
      rw [hlevel] at hlower
      exact absurd hlower (by decide)
  · rintro ⟨symbol, left, other, hsymbol, rfl⟩
    obtain ⟨child, hfind, _, hlevel, _⟩ := Operator.find?_sum hsymbol
    exact ⟨symbol, left, other, child, rfl, hfind, by rw [hlevel]; decide⟩

/-- **Where a typeset sum ends is ambiguous.** An operator behind a finished sum is typeset as the same
    operator at the end of its body. The two differ only where a remainder is taken of a sum or
    difference in the body, which gets brackets there, and where a subtraction follows a body that is
    typeset as nothing, which is taken for a negation. -/
theorem ofExpr_sum_extent (hregistry : registry.Reachable) {symbol : Char}
    (hsymbol : symbol ∈ ['+', '-', '%']) (start last body right : Expr) :
    ofExpr registry (.binary symbol (.call "sum" [start, last, body]) right) ≠
        ofExpr registry (.call "sum" [start, last, .binary symbol body right]) ↔
      (symbol = '-' ∧ ofExpr registry body = "") ∨
      (symbol = '%' ∧ ∃ child left other, child ∈ ['+', '-'] ∧ body = .binary child left other) := by
  simp only [List.mem_cons, List.not_mem_nil, or_false] at hsymbol
  rcases hsymbol with rfl | rfl | rfl
  · simp [ofExpr_sum_add hregistry start last body right]
  · rw [ne_eq, ofExpr_sum_subtract hregistry start last body right, not_not]
    simp
  · rw [ne_eq, ofExpr_sum_remainder hregistry start last body right, not_not]
    simp

/-- The remainder of a sum of a sum is told from the sum of remainders. -/
theorem ofExpr_sum_extent_remainder :
    '%' ∈ ['+', '-', '%'] ∧
      ofExpr .standard (.binary '%' (.call "sum" [.var "a", .var "b",
          .binary '+' (.var "#i") (.var "x")]) (.var "y")) ≠
        ofExpr .standard (.call "sum" [.var "a", .var "b",
          .binary '%' (.binary '+' (.var "#i") (.var "x")) (.var "y")]) := by
  have hsymbol : '%' ∈ ['+', '-', '%'] := by decide
  have hextent := ofExpr_sum_extent Registry.reachable_standard hsymbol (.var "a") (.var "b")
    (.binary '+' (.var "#i") (.var "x")) (.var "y")
  exact ⟨hsymbol, hextent.2 (.inr ⟨rfl, '+', .var "#i", .var "x", by decide, rfl⟩)⟩

/-- The number that one digit writes. -/
def writtenDigit (n : Nat) (text : String) : Expr :=
  .number (Double.ofCode false (Decimal.code ⟨n, 0⟩)) text

/-- The sum of the indices up to five and one more. -/
def sumThenOne : Expr :=
  .binary '+' (.call "sum" [writtenDigit 1 "1", writtenDigit 5 "5", .var "#i"]) (writtenDigit 1 "1")

/-- The sum of one more than each index up to five. -/
def sumOfOneMore : Expr :=
  .call "sum" [writtenDigit 1 "1", writtenDigit 5 "5", .binary '+' (.var "#i") (writtenDigit 1 "1")]

/-- The tokens of `sum(1,5,` and of what follows. -/
def sumTokens (others : List Token) : List Token :=
  [⟨"sum", .identifier, 0⟩, ⟨"(", .operator, 3⟩, ⟨"1", .literal, 4⟩, ⟨",", .comma, 5⟩,
    ⟨"5", .literal, 6⟩, ⟨",", .comma, 7⟩] ++ others

/-- The arguments `1,5,` and a body make a sum. -/
theorem derives_sum {others rest : List Token} {closing : Token} {body : Expr}
    (hclosing : closing.isSymbol ')' = true)
    (h : Derives .standard .sum others (closing :: rest) body) :
    Derives .standard .primary (sumTokens others) rest
      (.call "sum" [writtenDigit 1 "1", writtenDigit 5 "5", body]) := by
  have hdigit {n : Nat} {text : String} {position : Nat} (others : List Token)
      (hvalue : Double.read text = .ok (Double.ofCode false (Decimal.code ⟨n, 0⟩))) :
      Derives .standard .sum (⟨text, .literal, position⟩ :: others) others (writtenDigit n text) :=
    Derives.toSum (.literal rfl hvalue)
  exact .call rfl rfl rfl rfl (.more rfl (hdigit _ rfl) (.more rfl (hdigit _ rfl) (.last hclosing h)))

/-- Two sources with different trees, one with an operator behind a sum and one with the operator in the
    body of the sum, are typeset alike. -/
theorem ofExpr_sum_ambiguous :
    Expr.ofSource .standard "sum(1,5,#i)+1" = .ok sumThenOne ∧
      Expr.ofSource .standard "sum(1,5,#i+1)" = .ok sumOfOneMore ∧
      sumThenOne ≠ sumOfOneMore ∧
      ofExpr .standard sumThenOne = "\\sum_\x7bi=1\x7d^\x7b5\x7d i + 1" ∧
      ofExpr .standard sumOfOneMore = "\\sum_\x7bi=1\x7d^\x7b5\x7d i + 1" := by
  have hvalue : Double.read "1" = .ok (Double.ofCode false (Decimal.code ⟨1, 0⟩)) := rfl
  have hone (position : Nat) (rest : List Token) :
      Derives .standard .primary (⟨"1", .literal, position⟩ :: rest) rest (writtenDigit 1 "1") :=
    .literal rfl hvalue
  have hindex (rest : List Token) :
      Derives .standard .sum (⟨"#i", .var, 8⟩ :: rest) rest (.var "#i") := Derives.toSum (.var rfl)
  have hbehind : Token.ofSource "sum(1,5,#i)+1" = .ok (sumTokens [⟨"#i", .var, 8⟩,
      ⟨")", .operator, 10⟩, ⟨"+", .operator, 11⟩, ⟨"1", .literal, 12⟩]) := by
    simp +decide [Token.ofSource, Token.scan, Token.lexeme?, Token.ofLexeme, Token.splitExponent,
      Source.width, sumTokens]
  have hinside : Token.ofSource "sum(1,5,#i+1)" = .ok (sumTokens [⟨"#i", .var, 8⟩,
      ⟨"+", .operator, 10⟩, ⟨"1", .literal, 11⟩, ⟨")", .operator, 12⟩]) := by
    simp +decide [Token.ofSource, Token.scan, Token.lexeme?, Token.ofLexeme, Token.splitExponent,
      Source.width, sumTokens]
  have hsymbol : '+' ∈ ['+', '-'] := by decide
  refine ⟨?_, ?_, ?_, rfl, rfl⟩
  · have hclosing : Token.isSymbol ⟨")", .operator, 10⟩ ')' = true := rfl
    have hplus : Token.isSymbol ⟨"+", .operator, 11⟩ '+' = true := rfl
    have hsum := derives_sum hclosing
      (hindex [⟨")", .operator, 10⟩, ⟨"+", .operator, 11⟩, ⟨"1", .literal, 12⟩])
    have hright : Derives .standard .product [⟨"1", .literal, 12⟩] [] (writtenDigit 1 "1") :=
      .power (.signed (.primary (hone 12 [])))
    have hderives := Derives.add hsymbol hplus hsum.toSum hright
    exact Grammar.ofSource_iff_derives.2 ⟨_, hbehind, hderives⟩
  · have hclosing : Token.isSymbol ⟨")", .operator, 12⟩ ')' = true := rfl
    have hplus : Token.isSymbol ⟨"+", .operator, 10⟩ '+' = true := rfl
    have hright : Derives .standard .product [⟨"1", .literal, 11⟩, ⟨")", .operator, 12⟩]
        [⟨")", .operator, 12⟩] (writtenDigit 1 "1") := .power (.signed (.primary (hone 11 _)))
    have hbody := Derives.add hsymbol hplus (hindex (⟨"+", .operator, 10⟩ :: _)) hright
    have hderives := derives_sum hclosing hbody
    exact Grammar.ofSource_iff_derives.2 ⟨_, hinside, hderives.toSum⟩
  · intro h
    cases h

end Formula.Latex
