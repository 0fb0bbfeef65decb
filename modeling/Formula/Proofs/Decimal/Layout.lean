import Formula.Decimal
import Formula.Proofs.Decimal.Reading
import Formula.Proofs.Decimal.Shortest

/-!
# Written decimals

A decimal in positional form is written with its digits. If it has places behind the point, the point stands
in front of as many of them, and zeros make up for digits that are missing.

* `Shows d whole fraction`: the decimal is written with these digits before and behind the point.
* `exists_shows`: every positional decimal is written so.
* `Shows.fits` and `Shows.read?`: the text is one number without separators, and it is read as the
  decimal itself.
-/

namespace Formula.Decimal

variable {d : Decimal} {whole fraction : List Char}

/-! ## 1. Digits with zeros in front -/

theorem ofDigits_padded (zeros n : Nat) :
    ofDigits (List.replicate zeros '0' ++ Nat.toDigits 10 n) = n := by
  show Nat.ofDigitChars 10 _ 0 = n
  rw [Nat.ofDigitChars_append, Nat.ofDigitChars_replicate_zero, Nat.mul_zero,
    Nat.ofDigitChars_ten_toDigits]

theorem isDigit_padded (zeros n : Nat) :
    ∀ c ∈ List.replicate zeros '0' ++ Nat.toDigits 10 n, c.isDigit = true := by
  intro c hc
  rcases List.mem_append.1 hc with hzero | hdigit
  · rw [List.eq_of_mem_replicate hzero]
    rfl
  · exact Nat.isDigit_of_mem_toDigits (by decide) (by decide) hdigit

/-! ## 2. What is shown -/

/-- The decimal is written with the digits `whole` and, if there are any behind the point, with the digits
    `fraction` there. -/
structure Shows (d : Decimal) (whole fraction : List Char) : Prop where
  text : d.layout = whole ++ if fraction = [] then [] else '.' :: fraction
  begins : whole ≠ []
  digits : ∀ c ∈ whole ++ fraction, c.isDigit = true
  value : ofDigits (whole ++ fraction) = d.digits
  places : d.exponent = -fraction.length

theorem shows_whole (h : d.exponent = 0) : d.Shows (Nat.toDigits 10 d.digits) [] where
  text := by
    have hplaces : (-d.exponent).toNat = 0 := by omega
    rw [layout, if_pos hplaces, ← numerator, numerator_of_nonpos h.le, if_pos rfl, List.append_nil]
  begins := Nat.toDigits_ne_nil
  digits := by
    rw [List.append_nil]
    exact isDigit_padded 0 d.digits
  value := by
    rw [List.append_nil]
    exact ofDigits_padded 0 d.digits
  places := h

/-- With places behind the point there are more digits than places. -/
theorem shows_places (h : d.exponent < 0) : ∃ whole fraction, d.Shows whole fraction := by
  let places := (-d.exponent).toNat
  have hplaces : places ≠ 0 := by omega
  let zeros := places + 1 - (Nat.toDigits 10 d.digits).length
  let padded := List.replicate zeros '0' ++ Nat.toDigits 10 d.digits
  have hlength : places + 1 ≤ padded.length := by
    rw [List.length_append, List.length_replicate]
    omega
  let whole := padded.take (padded.length - places)
  let fraction := padded.drop (padded.length - places)
  have hjoined : whole ++ fraction = padded := List.take_append_drop _ _
  have hfraction : fraction.length = places := by
    rw [List.length_drop]
    omega
  refine ⟨whole, fraction, ?text, ?begins, ?digits, ?value, ?places⟩
  case text =>
    have hne : fraction ≠ [] := List.ne_nil_of_length_pos (by omega)
    rw [layout, if_neg hplaces, ← numerator, numerator_of_nonpos h.le, if_neg hne]
  case begins =>
    refine List.ne_nil_of_length_pos ?_
    rw [List.length_take]
    omega
  case digits =>
    rw [hjoined]
    exact isDigit_padded _ _
  case value =>
    rw [hjoined]
    exact ofDigits_padded _ _
  case places =>
    rw [hfraction]
    omega

/-- **Every positional decimal is written with digits.** -/
theorem exists_shows (h : d.exponent ≤ 0) : ∃ whole fraction, d.Shows whole fraction := by
  rcases Int.lt_or_eq_of_le h with hlt | heq
  · exact shows_places hlt
  · exact ⟨_, _, shows_whole heq⟩

namespace Shows

variable (h : d.Shows whole fraction)

include h

theorem whole_digits : ∀ c ∈ whole, c.isDigit = true :=
  fun c hc => h.digits c (List.mem_append_left _ hc)

theorem fraction_digits : ∀ c ∈ fraction, c.isDigit = true :=
  fun c hc => h.digits c (List.mem_append_right _ hc)

/-- The text begins with a digit, and there are digits and at most a point behind it. -/
theorem characters : ∃ first rest, d.layout = first :: rest ∧ first.isDigit = true ∧
    ∀ c ∈ rest, c.isDigit = true ∨ c = '.' := by
  obtain ⟨first, whole, rfl⟩ := List.exists_cons_of_ne_nil h.begins
  refine ⟨first, _, h.text, h.whole_digits first List.mem_cons_self, fun c hc => ?_⟩
  rcases List.mem_append.1 hc with hwhole | hrest
  · exact .inl (h.whole_digits c (List.mem_cons_of_mem _ hwhole))
  · split at hrest
    · cases hrest
    · rcases List.mem_cons.1 hrest with rfl | hfraction
      · exact .inr rfl
      · exact .inl (h.fraction_digits c hfraction)

/-- **The text is one number without separators.** -/
theorem fits : Token.Fits .literal d.layout ∧ '_' ∉ d.layout := by
  obtain ⟨first, rest, htext, hfirst, hrest⟩ := h.characters
  rw [htext]
  constructor
  · refine .plain hfirst fun c hc => ?_
    rcases hrest c hc with hdigit | rfl
    · simp [Token.continuesLiteral, hdigit]
    · rfl
  · intro hmem
    rcases List.mem_cons.1 hmem with rfl | hmem
    · cases hfirst
    · rcases hrest '_' hmem with hdigit | hpoint
      · cases hdigit
      · cases hpoint

/-- **The text is read as the decimal itself.** -/
theorem read? : Decimal.read? d.layout = some d := by
  have hd : (⟨ofDigits (whole ++ fraction), 0 - fraction.length⟩ : Decimal) = d := by
    rw [h.value, Int.zero_sub, ← h.places]
  rw [h.text, ← hd]
  split
  · rename_i hnil
    rw [read?_whole h.whole_digits h.begins (by simp), hnil, List.append_nil]
    rfl
  · have hread : Decimal.read? (whole ++ '.' :: (fraction ++ [])) = _ :=
      read?_pointed h.whole_digits h.begins h.fraction_digits (by simp)
    rw [List.append_nil] at hread
    exact hread

end Shows

end Formula.Decimal
