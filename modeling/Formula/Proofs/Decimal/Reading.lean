import Formula.Decimal
import Formula.Proofs.Double.Nearest
import Formula.Proofs.Token.Lexeme

/-!
# Numbers by their shape

Reading a number walks over its text. Here the text is put together from its parts, digits, a point, more
digits and an exponent, and what is read is said of the parts.

* `IsTail tail`: the text may stand behind the digits of a decimal, as an exponent or as nothing at all.
* `read?_whole` and `read?_pointed` read a decimal without and with a point, whatever comes behind it.
* `read?_isSome_iff`: among texts of digits and points in front of a tail, those with at most one point are
  decimals.
* `Double.read_of_digit` leads from numbers that begin with a digit to decimals, and
  `Double.fields_of_unsigned` tells sign and kind of what is read without a sign.
-/

namespace Formula

/-- A digit is no character that is none. -/
theorem Token.ne_of_isDigit {c d : Char} (hd : d.isDigit = true) (hc : c.isDigit = false) : d ≠ c := by
  intro h
  rw [h, hc] at hd
  cases hd

namespace Decimal

/-! ## 1. Exponents -/

/-- What may stand behind the digits of a decimal: nothing, or the beginning of an exponent and more
    digits of it. -/
inductive IsTail : List Char → Prop
  | plain : IsTail []
  | exponent {mark more : List Char} (hmark : Token.Mark mark)
      (hmore : ∀ c ∈ more, c.isDigit = true) : IsTail (mark ++ more)

theorem digits?_run {text : List Char} (hne : text ≠ []) (h : ∀ c ∈ text, c.isDigit = true) :
    digits? text = some (ofDigits text) := if_pos ⟨hne, List.all_eq_true.2 h⟩

theorem exponent?_digits {d : Char} {more : List Char} (hd : d.isDigit = true)
    (hmore : ∀ c ∈ more, c.isDigit = true) :
    exponent? ('e' :: d :: more) = some (ofDigits (d :: more) : Int) := by
  have hdigits := digits?_run (List.cons_ne_nil d more) (List.forall_mem_cons.2 ⟨hd, hmore⟩)
  simp only [exponent?, true_or, if_true]
  split
  · rename_i heq
    cases heq
    cases hd
  · rename_i heq
    cases heq
    cases hd
  · rw [hdigits]
    rfl

/-- **A tail has an exponent**, zero if there is none written. -/
theorem IsTail.exponent? {tail : List Char} (h : IsTail tail) :
    ∃ e, Decimal.exponent? tail = some e := by
  cases h with
  | plain => exact ⟨0, rfl⟩
  | exponent hmark hmore =>
    cases hmark with
    | unsigned hd => exact ⟨_, exponent?_digits hd hmore⟩
    | @signed sign d hsign hd =>
      have hdigits := digits?_run (List.cons_ne_nil d _) (List.forall_mem_cons.2 ⟨hd, hmore⟩)
      rcases hsign with rfl | rfl
      · exact ⟨_, by simp [Decimal.exponent?, hdigits]; rfl⟩
      · exact ⟨_, by simp [Decimal.exponent?, hdigits]; rfl⟩

theorem IsTail.head {tail : List Char} (h : IsTail tail) :
    ∀ c ∈ tail.head?, c.isDigit = false ∧ c ≠ '.' := by
  cases h with
  | plain => simp
  | exponent hmark _ => cases hmark <;> simp [Char.isDigit]

theorem count_point {text : List Char} (h : ∀ c ∈ text, c.isDigit = true) : text.count '.' = 0 :=
  List.count_eq_zero.2 fun hmem => Token.ne_of_isDigit (h '.' hmem) rfl rfl

theorem IsTail.count_point {tail : List Char} (h : IsTail tail) : tail.count '.' = 0 := by
  cases h with
  | plain => rfl
  | exponent hmark hmore =>
    rw [List.count_append, Decimal.count_point hmore]
    cases hmark with
    | unsigned hd => simp [Token.ne_of_isDigit hd (rfl : Char.isDigit '.' = false)]
    | signed hsign hd =>
      rcases hsign with rfl | rfl <;>
        simp [Token.ne_of_isDigit hd (rfl : Char.isDigit '.' = false)]

/-! ## 2. Decimals -/

section Shapes

variable {whole fraction tail : List Char} (hwhole : ∀ c ∈ whole, c.isDigit = true)
  (hne : whole ≠ [])

include hwhole hne

theorem read?_whole (htail : ∀ c ∈ tail.head?, c.isDigit = false ∧ c ≠ '.') :
    read? (whole ++ tail) = (exponent? tail).map fun e => ⟨ofDigits whole, e⟩ := by
  obtain ⟨hrun, hafter⟩ := Token.takeWhile_run hwhole fun c hc => (htail c hc).1
  unfold read?
  simp only [hrun, hafter]
  split
  · exact absurd rfl (htail '.' rfl).2
  · simp [hne]

theorem read?_pointed (hfraction : ∀ c ∈ fraction, c.isDigit = true)
    (htail : ∀ c ∈ tail.head?, c.isDigit = false) :
    read? (whole ++ '.' :: (fraction ++ tail)) =
      (exponent? tail).map fun e => ⟨ofDigits (whole ++ fraction), e - fraction.length⟩ := by
  have hpoint : ∀ c ∈ ('.' :: (fraction ++ tail)).head?, c.isDigit = false := by simp [Char.isDigit]
  obtain ⟨hrun, hafter⟩ := Token.takeWhile_run hwhole hpoint
  obtain ⟨hrun', hafter'⟩ := Token.takeWhile_run hfraction htail
  unfold read?
  simp [hrun, hafter, hrun', hafter', hne]

/-- **A second point ends no decimal.** -/
theorem read?_points (hfraction : ∀ c ∈ fraction, c.isDigit = true) :
    read? (whole ++ '.' :: (fraction ++ '.' :: tail)) = none := by
  rw [read?_pointed hwhole hne hfraction (by simp [Char.isDigit])]
  rfl

end Shapes

/-- Digits and points are digits alone, or there is a first point. -/
theorem exists_point {body : List Char} (h : ∀ c ∈ body, c.isDigit = true ∨ c = '.') :
    (∀ c ∈ body, c.isDigit = true) ∨
      ∃ whole rest, body = whole ++ '.' :: rest ∧ ∀ c ∈ whole, c.isDigit = true := by
  induction body with
  | nil => exact .inl (List.forall_mem_nil _)
  | cons c body ih =>
    obtain ⟨hc, hbody⟩ := List.forall_mem_cons.1 h
    rcases hc with hc | rfl
    · rcases ih hbody with hdigits | ⟨whole, rest, rfl, hwhole⟩
      · exact .inl (List.forall_mem_cons.2 ⟨hc, hdigits⟩)
      · exact .inr ⟨c :: whole, rest, rfl, List.forall_mem_cons.2 ⟨hc, hwhole⟩⟩
    · exact .inr ⟨[], body, rfl, List.forall_mem_nil _⟩

/-- **Digits and points in front of a tail are a decimal exactly if there is at most one point.** -/
theorem read?_isSome_iff {d : Char} {body tail : List Char} (hd : d.isDigit = true)
    (hbody : ∀ c ∈ body, c.isDigit = true ∨ c = '.') (htail : IsTail tail) :
    (read? (d :: body ++ tail)).isSome = true ↔ (d :: body ++ tail).count '.' ≤ 1 := by
  have hhead : ∀ c ∈ tail.head?, c.isDigit = false := fun c hc => (htail.head c hc).1
  obtain ⟨e, he⟩ := htail.exponent?
  have hfirst {more : List Char} (hmore : ∀ c ∈ more, c.isDigit = true) :
      ∀ c ∈ d :: more, c.isDigit = true := List.forall_mem_cons.2 ⟨hd, hmore⟩
  rcases exists_point hbody with hdigits | ⟨whole, rest, rfl, hwhole⟩
  · rw [read?_whole (hfirst hdigits) (List.cons_ne_nil _ _) htail.head, he, List.count_append,
      count_point (hfirst hdigits), htail.count_point]
    simp
  have hrest : ∀ c ∈ rest, c.isDigit = true ∨ c = '.' := fun c hc =>
    hbody c (List.mem_append_right _ (List.mem_cons_of_mem _ hc))
  have hcount : (d :: (whole ++ '.' :: rest) ++ tail).count '.' = rest.count '.' + 1 := by
    rw [← List.cons_append, List.count_append, List.count_append, List.count_cons_self,
      count_point (hfirst hwhole), htail.count_point, Nat.zero_add, Nat.add_zero]
  rw [hcount]
  rcases exists_point hrest with hdigits | ⟨fraction, more, rfl, hfraction⟩
  · have hread := read?_pointed (hfirst hwhole) (List.cons_ne_nil _ _) hdigits hhead
    rw [he] at hread
    simp only [List.cons_append, List.append_assoc] at hread ⊢
    rw [hread, count_point hdigits]
    simp
  · have hread : read? (d :: whole ++ '.' :: (fraction ++ '.' :: (more ++ tail))) = none :=
      read?_points (hfirst hwhole) (List.cons_ne_nil _ _) hfraction
    simp only [List.cons_append, List.append_assoc] at hread ⊢
    rw [hread, List.count_append, List.count_cons_self]
    simp

theorem code_le (d : Decimal) : d.code ≤ Double.infinityCode := by
  unfold code
  split
  · exact Nat.zero_le _
  · split
    · exact Nat.le_refl _
    · split
      · exact Nat.zero_le _
      · exact Double.nearestCode_le _ _

end Decimal

/-! ## 3. Numbers -/

namespace Double

/-- **A number that begins with a digit is a decimal.** -/
theorem read_of_digit {text : String} {d : Char} {more : List Char} (htext : text.toList = d :: more)
    (hd : d.isDigit = true) :
    read text = match Decimal.read? (d :: more) with
      | some decimal => .ok (ofCode false decimal.code)
      | none => .error .malformed := by
  have hlower : d.toLower.isDigit = true := by
    have hupper : ¬(d.val ≥ 'A'.val ∧ d.val ≤ 'Z'.val) := by
      obtain ⟨_, hto⟩ := Bool.and_eq_true_iff.1 hd
      have hbound : d.val ≤ '9'.val := of_decide_eq_true hto
      rintro ⟨hfrom, _⟩
      exact absurd (UInt32.le_trans hfrom hbound) (by decide)
    rw [Char.toLower, dif_neg hupper]
    exact hd
  have hminus : d ≠ '-' := Token.ne_of_isDigit hd rfl
  have hplus : d ≠ '+' := Token.ne_of_isDigit hd rfl
  have hi : d.toLower ≠ 'i' := Token.ne_of_isDigit hlower rfl
  have hn : d.toLower ≠ 'n' := Token.ne_of_isDigit hlower rfl
  unfold read
  rw [htext]
  simp only [hminus, hplus, if_false, readUnsigned?, List.map_cons, List.cons.injEq, hi, hn,
    false_and, or_self]
  cases Decimal.read? (d :: more) <;> rfl

/-- A number that is read without a sign is positive, and it is a number. -/
theorem fields_of_unsigned (d : Decimal) :
    isNaN (ofCode false d.code) = false ∧ negative (ofCode false d.code) = false := by
  obtain ⟨hcode, hnegative⟩ := code_ofCode_le false d.code_le
  refine ⟨decide_eq_false ?_, hnegative⟩
  rw [hcode]
  exact Nat.not_lt.2 d.code_le

end Double

end Formula
