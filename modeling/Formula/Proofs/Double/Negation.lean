import Formula.Proofs.Double.Nearest
import Formula.Proofs.Double.Order

/-!
# Negation

A negation is evaluated as a subtraction from zero. That is the negation of a double, except for the sign of
a zero.

* `neg_fields`: a number keeps its code and turns its sign, infinities included.
* `zero_sub`: taking a double from zero negates it, and `zero_sub_zero` is the exception.
* `Same.neg` and `same_zero_sub`: both are negations of the same number.
-/

namespace Formula.Double

open Float.Model Float.Model.UnpackedFloat

variable {x y : Float}

/-! ## 1. The sign of a double -/

theorem neg_packed (x : Float) : -x = packed (unpacked (!negative x) (code x)) := by
  rw [← unpacked_neg, ← unpack_eq]
  rfl

/-- **A number is negated by its sign bit**, also if it is an infinity. -/
theorem neg_fields (h : isNaN x = false) : code (-x) = code x ∧ negative (-x) = !negative x := by
  have hle := isNaN_eq_false_iff.1 h
  have hneg : -x = ofCode (!negative x) (code x) := by
    rcases Nat.lt_or_eq_of_le hle with hlt | heq
    · rw [neg_packed, packed_unpacked _ hlt]
    · rw [neg_packed, heq, unpacked_infinity, packed_infinity]
  rw [hneg]
  exact code_ofCode_le _ hle

/-- What is no number is none with the other sign either. -/
theorem isNaN_neg (x : Float) : isNaN (-x) = isNaN x := by
  cases h : isNaN x with
  | false =>
    rw [isNaN_eq_false_iff, (neg_fields h).1]
    exact isNaN_eq_false_iff.1 h
  | true =>
    have hneg : -x = packed .notANumber := by
      show packed x.toModel.unpack.neg = _
      rw [unpack_of_isNaN h]
      rfl
    rw [hneg]
    decide +kernel

theorem order_neg (h : isNaN x = false) : order (-x) = -order x := by
  obtain ⟨hcode, hnegative⟩ := neg_fields h
  rw [order, order, hcode, hnegative]
  cases negative x <;> simp

theorem Same.neg (h : Same x y) : Same (-x) (-y) := by
  refine ⟨by rw [isNaN_neg, isNaN_neg, h.1], fun hnan => ?_⟩
  rw [isNaN_neg] at hnan
  rw [order_neg hnan, order_neg (h.1.symm.trans hnan), h.2 hnan]

/-! ## 2. Subtraction from zero -/

theorem zero_sub_packed (x : Float) :
    0.0 - x = packed (UnpackedFloat.sub .binary64 (.zero .positive) x.toModel.unpack) := by
  have hzero : (0.0 : Float).toModel.unpack = .zero .positive := by
    have hfields : negative 0.0 = false ∧ code 0.0 = 0 := by decide +kernel
    rw [unpack_eq, hfields.1, hfields.2, unpacked_zero]
    rfl
  rw [← hzero]
  rfl

/-- **Taking a double from zero negates it**, if it is no zero, and nothing is rounded by that. -/
theorem zero_sub (h : code x ≠ 0) : 0.0 - x = -x := by
  rw [zero_sub_packed, neg_packed, ← unpacked_neg, unpack_eq, unpacked, dif_neg h]
  split
  · rfl
  · split <;> rfl

/-- Taking a zero of either sign from zero gives the positive zero. -/
theorem zero_sub_zero (h : code x = 0) : 0.0 - x = 0.0 := by
  rw [zero_sub_packed, unpack_eq, h, unpacked_zero]
  cases negative x <;> decide +kernel

/-- **What is evaluated for a negation is numerically the negation.** -/
theorem same_zero_sub (x : Float) : Same (0.0 - x) (-x) := by
  by_cases h : code x = 0
  · have hnumber : isNaN x = false := isNaN_eq_false_iff.2 (by rw [h]; exact Nat.zero_le _)
    have hzero : isNaN 0.0 = false ∧ order 0.0 = 0 := by decide +kernel
    rw [zero_sub_zero h]
    refine ⟨by rw [isNaN_neg, hnumber, hzero.1], fun _ => ?_⟩
    rw [hzero.2, order_neg hnumber, order, h]
    simp
  · rw [zero_sub h]
    exact .refl _

end Formula.Double
