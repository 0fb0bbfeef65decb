import Formula.Proofs.Double.Fields

/-!
# The order of doubles

Doubles that are numbers have a place in one order (`Double.order`), and both zeros have the same. Here that
order is shown to be the one of the comparisons of doubles.

* `compare_codes`: of two magnitudes the one with the larger code is the larger one.
* `compare_unpacked`: two doubles that are numbers compare as their places. There is a case for each form
  of the first: zero, another finite number, infinity.
* `le_iff`: what that says of `≤`.
* `Same x y`: the doubles are numerically equal, or neither is a number.
-/

namespace Formula.Double

open Float.Model Float.Model.UnpackedFloat

/-! ## 1. Magnitudes -/

/-- A larger code has the larger exponent, or the same one and the larger mantissa. -/
theorem scale_lt_or {a b : Nat} (h : a < b) :
    scale a < scale b ∨ (scale a = scale b ∧ significand a < significand b) := by
  unfold scale significand
  norm_num
  split <;> split <;> omega

/-- **Exponents and mantissas compare as codes do.** -/
theorem compare_codes (a b : Nat) :
    (compare (scale a) (scale b)).then (compare (significand a) (significand b)) = compare a b := by
  rcases Nat.lt_trichotomy a b with h | rfl | h
  · rw [Nat.compare_eq_lt.2 h]
    rcases scale_lt_or h with hscale | ⟨hscale, hsignificand⟩
    · rw [Int.compare_eq_lt.2 hscale]
      rfl
    · rw [Int.compare_eq_eq.2 hscale, Nat.compare_eq_lt.2 hsignificand]
      rfl
  · rw [Int.compare_eq_eq.2 rfl, Nat.compare_eq_eq.2 rfl, Nat.compare_eq_eq.2 rfl]
    rfl
  · rw [Nat.compare_eq_gt.2 h]
    rcases scale_lt_or h with hscale | ⟨hscale, hsignificand⟩
    · rw [Int.compare_eq_gt.2 hscale]
      rfl
    · rw [Int.compare_eq_eq.2 hscale.symm, Nat.compare_eq_gt.2 hsignificand]
      rfl

/-! ## 2. Doubles that are numbers -/

/-- The place of the double with the given fields. -/
def place (negative : Bool) (code : Nat) : Int := if negative then -(code : Int) else code

theorem unpacked_infinity (negative : Bool) :
    unpacked negative infinityCode = .infinity (sign negative) := rfl

theorem lt_of_place {m n : Int} (h : m < n) : some Ordering.lt = some (compare m n) :=
  congrArg some (Int.compare_eq_lt.2 h).symm

theorem gt_of_place {m n : Int} (h : n < m) : some Ordering.gt = some (compare m n) :=
  congrArg some (Int.compare_eq_gt.2 h).symm

theorem compare_place_positive (a b : Nat) : compare a b = compare (place false a) (place false b) := by
  rcases Nat.lt_trichotomy a b with h | rfl | h
  · rw [Nat.compare_eq_lt.2 h, Int.compare_eq_lt.2 (by simpa [place] using h)]
  · rw [Nat.compare_eq_eq.2 rfl, Int.compare_eq_eq.2 rfl]
  · rw [Nat.compare_eq_gt.2 h, Int.compare_eq_gt.2 (by simpa [place] using h)]

/-- Below zero the larger magnitude has the lower place. -/
theorem compare_place_negative (a b : Nat) :
    (compare a b).swap = compare (place true a) (place true b) := by
  rcases Nat.lt_trichotomy a b with h | rfl | h
  · rw [Nat.compare_eq_lt.2 h, Int.compare_eq_gt.2 (by simpa [place] using h)]
    rfl
  · rw [Nat.compare_eq_eq.2 rfl, Int.compare_eq_eq.2 rfl]
    rfl
  · rw [Nat.compare_eq_gt.2 h, Int.compare_eq_lt.2 (by simpa [place] using h)]
    rfl

section Forms

variable (s t : Bool) {a b : Nat}

theorem compare_zero (hb : b ≤ infinityCode) :
    (unpacked s 0).compare (unpacked t b) = some (compare (place s 0) (place t b)) := by
  by_cases hb0 : b = 0
  · subst hb0
    cases s <;> cases t <;> rfl
  · rcases Nat.lt_or_eq_of_le hb with hfinite | rfl
    · rw [unpacked_zero, unpacked_finite t hb0 hfinite]
      cases t with
      | false => exact lt_of_place (by cases s <;> simp [place] <;> omega)
      | true => exact gt_of_place (by cases s <;> simp [place] <;> omega)
    · cases s <;> cases t <;> rfl

theorem compare_infinity (hb : b ≤ infinityCode) :
    (unpacked s infinityCode).compare (unpacked t b) =
      some (compare (place s infinityCode) (place t b)) := by
  by_cases hb0 : b = 0
  · subst hb0
    cases s <;> cases t <;> rfl
  · rcases Nat.lt_or_eq_of_le hb with hfinite | rfl
    · rw [unpacked_infinity, unpacked_finite t hb0 hfinite]
      cases s with
      | false => exact gt_of_place (by cases t <;> simp [place] <;> omega)
      | true => exact lt_of_place (by cases t <;> simp [place] <;> omega)
    · cases s <;> cases t <;> rfl

theorem compare_finite (ha0 : a ≠ 0) (ha : a < infinityCode) (hb : b ≤ infinityCode) :
    (unpacked s a).compare (unpacked t b) = some (compare (place s a) (place t b)) := by
  rw [unpacked_finite s ha0 ha]
  by_cases hb0 : b = 0
  · rw [hb0, unpacked_zero]
    cases s with
    | false => exact gt_of_place (by cases t <;> simp [place] <;> omega)
    | true => exact lt_of_place (by cases t <;> simp [place] <;> omega)
  · rcases Nat.lt_or_eq_of_le hb with hfinite | rfl
    · rw [unpacked_finite t hb0 hfinite]
      cases s <;> cases t
      case false.false => exact congrArg some ((compare_codes a b).trans (compare_place_positive a b))
      case false.true => exact gt_of_place (by simp [place]; omega)
      case true.false => exact lt_of_place (by simp [place]; omega)
      case true.true =>
        exact congrArg some ((congrArg _ (compare_codes a b)).trans (compare_place_negative a b))
    · rw [unpacked_infinity]
      cases t with
      | false => exact lt_of_place (by cases s <;> simp [place] <;> omega)
      | true => exact gt_of_place (by cases s <;> simp [place] <;> omega)

/-- **Doubles that are numbers compare as their places.** -/
theorem compare_unpacked (ha : a ≤ infinityCode) (hb : b ≤ infinityCode) :
    (unpacked s a).compare (unpacked t b) = some (compare (place s a) (place t b)) := by
  by_cases ha0 : a = 0
  · rw [ha0]
    exact compare_zero s t hb
  · rcases Nat.lt_or_eq_of_le ha with hfinite | rfl
    · exact compare_finite s t ha0 hfinite hb
    · exact compare_infinity s t hb

end Forms

/-! ## 3. Comparisons -/

variable {x y z : Float}

theorem isNaN_eq_false_iff : isNaN x = false ↔ code x ≤ infinityCode :=
  decide_eq_false_iff_not.trans Nat.not_lt

theorem unpack_of_isNaN (h : isNaN x = true) : x.toModel.unpack = .notANumber := by
  have hcode : infinityCode < code x := of_decide_eq_true h
  have hzero : code x ≠ 0 := Nat.ne_of_gt (Nat.zero_lt_of_lt hcode)
  rw [unpack_eq, unpacked, dif_neg hzero, if_neg (Nat.not_lt_of_gt hcode),
    if_neg (Nat.ne_of_gt hcode)]

/-- **Two doubles compare as their places, if both are numbers**, and not at all otherwise. -/
theorem compare_unpack (x y : Float) :
    x.toModel.unpack.compare y.toModel.unpack =
      if isNaN x || isNaN y then none else some (compare (order x) (order y)) := by
  cases hx : isNaN x with
  | true =>
    rw [unpack_of_isNaN hx]
    rfl
  | false =>
    cases hy : isNaN y with
    | true =>
      rw [unpack_of_isNaN hy]
      cases x.toModel.unpack <;> rfl
    | false =>
      rw [unpack_eq, unpack_eq, compare_unpacked _ _ (isNaN_eq_false_iff.1 hx) (isNaN_eq_false_iff.1 hy)]
      rfl

theorem le_iff (hx : isNaN x = false) (hy : isNaN y = false) : x ≤ y ↔ order x ≤ order y := by
  have hmodel : x ≤ y ↔ (x.toModel.unpack.compare y.toModel.unpack).any (·.isLE) = true :=
    decide_eq_true_iff
  rw [hmodel, compare_unpack, hx, hy]
  exact Int.isLE_compare

/-! ## 4. The same number -/

/-- The doubles are numerically equal, or neither is a number. -/
def Same (x y : Float) : Prop := isNaN x = isNaN y ∧ (isNaN x = false → order x = order y)

namespace Same

theorem refl (x : Float) : Same x x := ⟨rfl, fun _ => rfl⟩

theorem trans (h : Same x y) (h' : Same y z) : Same x z :=
  ⟨h.1.trans h'.1, fun hx => (h.2 hx).trans (h'.2 (h.1.symm.trans hx))⟩

/-- **Two doubles are the same number only if they are one double or two zeros.** -/
theorem eq_or_zero (h : Same x y) (hx : isNaN x = false) : x = y ∨ (code x = 0 ∧ code y = 0) := by
  have horder := h.2 hx
  rw [order, order] at horder
  by_cases hzero : code x = 0
  · right
    refine ⟨hzero, ?_⟩
    split at horder <;> split at horder <;> omega
  · left
    cases hnx : negative x <;> cases hny : negative y <;>
      simp only [hnx, hny, if_true, if_false, Bool.false_eq_true] at horder
    case false.false => exact eq_of_fields (hnx.trans hny.symm) (by omega)
    case true.true => exact eq_of_fields (hnx.trans hny.symm) (by omega)
    all_goals omega

theorem isFinite_eq (h : Same x y) : isFinite x = isFinite y := by
  cases hx : isNaN x with
  | false =>
    rcases h.eq_or_zero hx with rfl | ⟨hzero, hzero'⟩
    · rfl
    · rw [isFinite, isFinite, hzero, hzero']
  | true =>
    have hinfinite {z : Float} (hz : isNaN z = true) : isFinite z = false :=
      decide_eq_false (Nat.not_lt_of_gt (of_decide_eq_true hz))
    rw [hinfinite hx, hinfinite (h.1.symm.trans hx)]

end Same

end Formula.Double
