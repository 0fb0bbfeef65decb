import Formula.Expr.Eval
import Formula.Proofs.Decimal.Layout
import Formula.Proofs.Double.Negation
import Formula.Proofs.Grammar.Completeness
import Formula.Proofs.Token.Split

/-!
# Answers read back

The text of a finite answer is a formula again. It is one number, or a minus sign and one number, and its
value in every registry and every scope is the double that was written; only the sign of a zero is lost,
since answers do not show it.

* `Double.read_digits`: the digits of a magnitude are read as the magnitude.
* `Token.scan_number`: a number that fits is one token.
* `Double.zero_sub_magnitude`: a negation takes the magnitude from zero, and nothing is rounded by that.

`Expr.ofSource_answer` is the main statement.
-/

namespace Formula

/-! ## 1. The digits of a magnitude -/

namespace Double

/-- The digits that are written for the magnitude of a double. -/
def digits (x : Float) : String := String.ofList (Decimal.shortest (code x)).layout

variable {x : Float}

theorem order_neg_iff : order x < 0 ↔ negative x = true ∧ code x ≠ 0 := by
  rw [order]
  cases negative x with
  | false =>
    rw [if_neg Bool.false_ne_true]
    simp
  | true =>
    rw [if_pos rfl, and_iff_right rfl]
    omega

theorem digits_zero (h : code x = 0) : digits x = "0" := by
  rw [digits, h]
  decide

section Finite

variable (hx : isFinite x = true)

include hx

/-- The digits are one number without separators. -/
theorem fits_digits : Token.Fits .literal (digits x).toList ∧ '_' ∉ (digits x).toList := by
  obtain ⟨whole, fraction, hshows⟩ :=
    Decimal.exists_shows (Decimal.reads_shortest (isFinite_iff.1 hx)).exponent
  rw [digits, String.toList_ofList]
  exact hshows.fits

/-- **The digits of a magnitude are read as the magnitude.** -/
theorem read_digits : read (digits x) = .ok (ofCode false (code x)) := by
  have hreads := Decimal.reads_shortest (isFinite_iff.1 hx)
  obtain ⟨whole, fraction, hshows⟩ := Decimal.exists_shows hreads.exponent
  obtain ⟨first, rest, htext, hfirst, -⟩ := hshows.characters
  have htoList : (digits x).toList = first :: rest := by rw [digits, String.toList_ofList, htext]
  rw [read_of_digit htoList hfirst, ← htext, hshows.read?]
  dsimp only
  rw [hreads.code]

/-- **A number below zero is its magnitude taken from zero.** -/
theorem zero_sub_magnitude (h : order x < 0) : 0.0 - ofCode false (code x) = x := by
  obtain ⟨hnegative, hx0⟩ := order_neg_iff.1 h
  have hcode : code (ofCode false (code x)) = code x := code_ofCode false (isFinite_iff.1 hx)
  have hfinite : isFinite (ofCode false (code x)) = true := by
    rw [isFinite_iff, hcode]
    exact isFinite_iff.1 hx
  rw [zero_sub (by rw [hcode]; exact hx0), neg_eq hfinite, hcode,
    negative_ofCode false (isFinite_iff.1 hx), Bool.not_false, ← hnegative,
    ofCode_fields (isFinite_iff.1 hx)]

/-- **A number that is not below zero is its magnitude**, up to the sign of a zero. -/
theorem magnitude_of_nonneg (h : 0 ≤ order x) :
    order (ofCode false (code x)) = order x ∧ (code x ≠ 0 → ofCode false (code x) = x) := by
  have hsign : code x ≠ 0 → negative x = false := fun hx0 => by
    cases hnegative : negative x with
    | false => rfl
    | true => exact absurd (order_neg_iff.2 ⟨hnegative, hx0⟩) (Int.not_lt.2 h)
  have hsame : code x ≠ 0 → ofCode false (code x) = x := fun hx0 => by
    rw [← hsign hx0, ofCode_fields (isFinite_iff.1 hx)]
  refine ⟨?_, hsame⟩
  by_cases hx0 : code x = 0
  · have hcode := code_ofCode false (isFinite_iff.1 hx)
    rw [order, order, hcode, hx0, Int.natCast_zero, Int.neg_zero, ite_self, ite_self]
  · rw [hsame hx0]

end Finite

end Double

/-! ## 2. Numbers as sources -/

namespace Token

variable {text : String} (hfits : Fits .literal text.toList) (hnone : '_' ∉ text.toList)

include hfits hnone

/-- **A number without separators is one token.** -/
theorem scan_number (position : Nat) :
    scan position text.toList = .ok [⟨text, .literal, position⟩] := by
  have hends : Ends .literal text.toList [] := by
    unfold Ends
    dsimp only
    split
    · simp
    · refine ⟨by simp, fun ⟨mark, hmark, hbegins⟩ => ?_⟩
      cases hmark <;> simp at hbegins
  have hfilter : text.toList.filter (· ≠ '_') = text.toList :=
    List.filter_eq_self.2 fun c hc => decide_eq_true (ne_of_mem_of_not_mem hc hnone)
  have hscan := scan_lexeme hfits hends position
  rw [List.append_nil, scan, ofLexeme, if_pos rfl, hfilter, String.ofList_toList] at hscan
  exact hscan

/-- A minus sign in front of a number is a token of its own. -/
theorem ofSource_minus :
    ofSource ("-" ++ text) = .ok [⟨"-", .operator, 0⟩, ⟨text, .literal, 1⟩] := by
  have hsign : Fits .operator ['-'] := .operator rfl
  have hends : Ends .operator ['-'] text.toList := trivial
  have hwidth : Source.width ['-'] = 1 := rfl
  have htoList : ("-" ++ text).toList = ['-'] ++ text.toList := String.toList_append
  rw [ofSource, htoList, scan_lexeme hsign hends 0, hwidth, scan_number hfits hnone]
  rfl

end Token

/-! ## 3. Answers -/

open Double

variable {x : Float}

/-- **An answer is the digits of the magnitude, with a minus sign if it is below zero.** -/
theorem Spelling.write_answer (hx : isFinite x = true) :
    answer.write x = if order x < 0 then "-" ++ digits x else digits x := by
  have hcode := isFinite_iff.1 hx
  have hnumber : isNaN x = false := decide_eq_false (Nat.lt_asymm hcode)
  have hfinite : isInfinite x = false := beq_false_of_ne (Nat.ne_of_lt hcode)
  rw [write, hnumber, if_neg Bool.false_ne_true]
  dsimp only
  rw [hfinite, if_neg Bool.false_ne_true]
  -- both zeros are written alike, by the word for the negative one and by the digits of the other
  by_cases hx0 : code x = 0
  · have hzero : isZero x = true := by rw [isZero, hx0]; rfl
    rw [if_neg (fun h => (order_neg_iff.1 h).2 hx0), digits_zero hx0, hzero, Bool.true_and]
    cases negative x with
    | false => exact String.empty_append.trans (digits_zero hx0)
    | true => rfl
  · have hzero : isZero x = false := beq_false_of_ne hx0
    simp only [order_neg_iff, hzero, Bool.false_and, Bool.false_eq_true, if_false, and_iff_left hx0]
    split
    · rfl
    · exact String.empty_append

namespace Expr

/-- The magnitude of a double, as the number that its digits write. -/
def magnitude (x : Float) : Expr := .number (ofCode false (code x)) (digits x)

/-- The digits of a double are a formula, and so are they behind a minus sign. -/
theorem ofSource_digits (registry : Registry) (hx : isFinite x = true) :
    ofSource registry (digits x) = .ok (magnitude x) ∧
      ofSource registry ("-" ++ digits x) = .ok (negation (magnitude x)) := by
  obtain ⟨hfits, hnone⟩ := fits_digits hx
  have hprimary (position : Nat) :
      Derives registry .primary [⟨digits x, .literal, position⟩] [] (magnitude x) :=
    .literal rfl (read_digits hx)
  constructor
  · refine Grammar.ofSource_iff_derives.2 ⟨_, Token.scan_number hfits hnone 0, ?_⟩
    exact (hprimary 0).toSum
  · refine Grammar.ofSource_iff_derives.2 ⟨_, Token.ofSource_minus hfits hnone, ?_⟩
    exact (Derives.minus rfl (.primary (hprimary 1))).toSum

theorem eval_magnitude (registry : Registry) (angle : Angle) (s : Scope) :
    (magnitude x).eval registry angle s = (.ok (ofCode false (code x)), s) ∧
      (negation (magnitude x)).eval registry angle s = (.ok (0.0 - ofCode false (code x)), s) := by
  constructor
  · rw [magnitude, eval]
  · rw [negation, eval]
    rfl

/-- **An answer is a formula, and its value is the number that was written.** A number that is not below
    zero is written as one literal, whose text is the answer itself, and a number below zero as the
    negation of one. In every registry, every unit of angles and every scope the formula has the value of the
    number, which is the number itself unless that is a zero. -/
theorem ofSource_answer (registry : Registry) (hx : isFinite x = true) :
    (0 ≤ order x →
      Spelling.answer.write x = digits x ∧
      Token.ofSource (Spelling.answer.write x) = .ok [⟨digits x, .literal, 0⟩] ∧
      ofSource registry (Spelling.answer.write x) =
        .ok (.number (ofCode false (code x)) (digits x))) ∧
    (order x < 0 →
      Spelling.answer.write x = "-" ++ digits x ∧
      Token.ofSource (Spelling.answer.write x) =
        .ok [⟨"-", .operator, 0⟩, ⟨digits x, .literal, 1⟩] ∧
      ofSource registry (Spelling.answer.write x) =
        .ok (.negation (.number (ofCode false (code x)) (digits x)))) ∧
    ∃ e value, ofSource registry (Spelling.answer.write x) = .ok e ∧
      (∀ other angle s, e.eval other angle s = (.ok value, s)) ∧
      order value = order x ∧ (code x ≠ 0 → value = x) := by
  obtain ⟨hfits, hnone⟩ := fits_digits hx
  obtain ⟨hplain, hminus⟩ := ofSource_digits registry hx
  rw [Spelling.write_answer hx]
  by_cases hsign : order x < 0
  · rw [if_pos hsign]
    refine ⟨fun h => absurd hsign (Int.not_lt.2 h),
      fun _ => ⟨rfl, Token.ofSource_minus hfits hnone, hminus⟩, _, _, hminus,
      fun other angle s => (eval_magnitude other angle s).2, ?_, fun _ => ?_⟩
    · rw [zero_sub_magnitude hx hsign]
    · exact zero_sub_magnitude hx hsign
  · rw [if_neg hsign]
    exact ⟨fun _ => ⟨rfl, Token.scan_number hfits hnone 0, hplain⟩, fun h => absurd h hsign, _, _, hplain,
      fun other angle s => (eval_magnitude other angle s).1,
      magnitude_of_nonneg hx (Int.not_lt.1 hsign)⟩

/-- The number -2.5 is written as a negation and evaluated to itself, and the negative zero is written as a
    zero. -/
theorem ofSource_answer_negative :
    isFinite (-2.5) = true ∧ order (-2.5) < 0 ∧
    Spelling.answer.write (-2.5) = "-2.5" ∧
    ofSource .standard "-2.5" = .ok (.negation (.number 2.5 "2.5")) ∧
    (∃ e, ofSource .standard "-2.5" = .ok e ∧
      ∀ angle s, e.eval .standard angle s = (.ok (-2.5), s)) ∧
    isFinite (-0.0) = true ∧ 0 ≤ order (-0.0) ∧
    Spelling.answer.write (-0.0) = "0" ∧
    ofSource .standard "0" = .ok (.number 0.0 "0") := by
  have hfinite : isFinite (-2.5) = true := by decide +kernel
  have hsign : order (-2.5) < 0 := by decide +kernel
  have hdigits : digits (-2.5) = "2.5" := by decide +kernel
  have hvalue : ofCode false (code (-2.5)) = 2.5 := by decide +kernel
  obtain ⟨-, hminus, e, value, hread, heval, -, hsame⟩ := ofSource_answer .standard hfinite
  obtain ⟨hwrite, -, htree⟩ := hminus hsign
  obtain rfl : value = -2.5 := hsame (order_neg_iff.1 hsign).2
  have htext : Spelling.answer.write (-2.5) = "-2.5" := by
    rw [hwrite, hdigits]
    decide
  rw [htext, hdigits, hvalue] at htree
  rw [htext] at hread
  have hzeroFinite : isFinite (-0.0) = true := by decide +kernel
  have hzeroSign : 0 ≤ order (-0.0) := by decide +kernel
  have hzeroDigits : digits (-0.0) = "0" := by decide +kernel
  have hzeroValue : ofCode false (code (-0.0)) = 0.0 := by decide +kernel
  obtain ⟨hzeroText, -, hzeroTree⟩ := (ofSource_answer .standard hzeroFinite).1 hzeroSign
  rw [hzeroDigits] at hzeroText
  rw [hzeroText, hzeroDigits, hzeroValue] at hzeroTree
  exact ⟨hfinite, hsign, htext, htree, ⟨e, hread, heval .standard⟩, hzeroFinite, hzeroSign, hzeroText,
    hzeroTree⟩

end Expr

end Formula
