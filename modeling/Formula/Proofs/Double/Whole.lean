import Formula.Double
import Formula.Proofs.Double.Exact

/-!
# Whole numbers as doubles

Up to `2 ^ 53` the doubles hold every whole number, and reckon with them exactly as long as the
results stay there.

* `IsWhole x n`: the double `x` is the whole number `n`. Zero has two doubles.
* `isWhole_ofInt`: the double made of a whole number up to `2 ^ 53` is that number.
* `isWhole_truncate`: rounding a finite double toward zero gives its whole part (`toInt`).
* `IsWhole.add` and `IsWhole.sub`: sums and differences up to `2 ^ 53` are those of whole numbers;
  `IsWhole.add_eq` says which of the two zeros a sum is.
-/

namespace Formula.Double

/-! ## 1. Whole parts -/

/-- The binary places behind the point that a double can have. -/
def places : Nat := 1074

/-- One, counted in `2 ^ -1074`. -/
def one : Nat := 2 ^ places

theorem one_pos : 0 < one := Nat.two_pow_pos places

/-- The whole part of a finite double, with its sign. -/
def toInt (x : Float) : Int := if negative x then -(wholePart (code x) : Int) else wholePart (code x)

/-- The double of a whole number. -/
def ofInt (n : Int) : Float := signed (decide (n < 0)) n.natAbs

/-- The double `x` is the whole number `n`. -/
structure IsWhole (x : Float) (n : Int) : Prop where
  finite : isFinite x = true
  count : inUnits x = n * one

/-- A code is its fraction below its unit, scaled. -/
theorem numerator_mul_one (code : Nat) : numerator code * one = units code * denominator code := by
  have hscale := scale_ge code
  have hplaces : places = 1074 := rfl
  have hpow : (scale code).toNat + places = (scale code + 1074).toNat + (-scale code).toNat := by
    omega
  show significand code * 2 ^ (scale code).toNat * 2 ^ places =
    significand code * 2 ^ (scale code + 1074).toNat * 2 ^ (-scale code).toNat
  rw [Nat.mul_assoc, Nat.mul_assoc, ← Nat.pow_add, ← Nat.pow_add, hpow]

theorem wholePart_eq (code : Nat) : wholePart code = units code / one := by
  have hscaled := numerator_mul_one code
  rw [wholePart, ← Nat.mul_div_mul_right _ _ one_pos, hscaled, Nat.mul_comm (denominator code),
    Nat.mul_div_mul_right _ _ (denominator_pos code)]

/-- A magnitude without a part below one is its whole part. -/
theorem units_of_belowOne {code : Nat} (h : belowOne code = 0) :
    units code = wholePart code * one := by
  have hscaled := numerator_mul_one code
  have hnumerator : numerator code = wholePart code * denominator code :=
    (Nat.div_mul_cancel (Nat.dvd_of_mod_eq_zero h)).symm
  refine Nat.eq_of_mul_eq_mul_right (denominator_pos code) ?_
  rw [← hscaled, hnumerator, Nat.mul_right_comm]

/-- A magnitude with a part below one is small. -/
theorem wholePart_lt {code : Nat} (h : belowOne code ≠ 0) : wholePart code < 2 ^ 53 := by
  have hF : code % 2 ^ 52 < 2 ^ 52 := Nat.mod_lt _ (by decide)
  have hsignificand : significand code < 2 ^ 53 := by
    unfold significand
    simp only [Nat.pow_eq]
    split <;> omega
  by_cases hscale : 0 ≤ scale code
  · have hdenominator : denominator code = 1 := by
      have hzero : (-scale code).toNat = 0 := by omega
      rw [denominator, hzero, Nat.pow_eq, Nat.pow_zero]
    rw [belowOne, hdenominator, Nat.mod_one] at h
    exact absurd rfl h
  · have hnumerator : numerator code = significand code := by
      have hzero : (scale code).toNat = 0 := by omega
      rw [numerator, hzero]
      exact Nat.mul_one _
    rw [wholePart, hnumerator]
    exact Nat.lt_of_le_of_lt (Nat.div_le_self _ _) hsignificand

theorem IsWhole.toInt_eq {x : Float} {n : Int} (h : IsWhole x n) : toInt x = n := by
  have hcount := h.count
  rw [inUnits_eq] at hcount
  have hunits : units (code x) = n.natAbs * one := by
    have hone : (n * (one : Int)).natAbs = n.natAbs * one := by
      rw [Int.natAbs_mul, Int.natAbs_natCast]
    rw [← hone, ← hcount]
    split <;> omega
  have hone : (one : Int) ≠ 0 := Int.natCast_ne_zero.2 one_pos.ne'
  rw [toInt, wholePart_eq, hunits, Nat.mul_div_cancel _ one_pos]
  refine Int.eq_of_mul_eq_mul_right hone ?_
  rw [← hcount, hunits]
  split <;> push_cast
  · exact Int.neg_mul _ _
  · rfl

/-! ## 2. The doubles of whole numbers -/

theorem topBit_one {n : Nat} (hn : n ≠ 0) : topBit n 1 = n.log2 := by
  have hone : Nat.log2 1 = 0 := by decide
  unfold topBit unscale
  dsimp only
  rw [hone]
  simp only [Nat.pow_eq, Nat.one_mul]
  by_cases h : n.log2 ≤ 53
  · have hleft : (-((n.log2 : Int) - (0 : Nat) - 53)).toNat = 53 - n.log2 := by omega
    have hright : ((n.log2 : Int) - (0 : Nat) - 53).toNat = 0 := by omega
    rw [hleft, hright, Nat.pow_zero, Nat.div_one, log2_mul_two_pow hn]
    omega
  · have hleft : (-((n.log2 : Int) - (0 : Nat) - 53)).toNat = 0 := by omega
    have hright : ((n.log2 : Int) - (0 : Nat) - 53).toNat = n.log2 - 53 := by omega
    have hquotient : (n / 2 ^ (n.log2 - 53)).log2 = 53 := by
      have hpow (k : Nat) : 2 ^ (53 + k) * 2 ^ (n.log2 - 53) = 2 ^ (n.log2 + k) := by
        rw [← Nat.pow_add]
        congr 1
        omega
      obtain ⟨hlow, hhigh⟩ := (Nat.log2_eq_iff hn).1 rfl
      have hge : 2 ^ 53 ≤ n / 2 ^ (n.log2 - 53) :=
        (Nat.le_div_iff_mul_le (Nat.two_pow_pos _)).2 ((hpow 0).trans_le hlow)
      have hlt : n / 2 ^ (n.log2 - 53) < 2 ^ 54 :=
        (Nat.div_lt_iff_lt_mul (Nat.two_pow_pos _)).2 (hhigh.trans_eq (hpow 1).symm)
      exact (Nat.log2_eq_iff (by omega)).2 ⟨hge, hlt⟩
    rw [hleft, hright, Nat.pow_zero, Nat.mul_one, hquotient]
    omega

theorem roundHalfEven_one (n : Nat) : roundHalfEven n 1 = n := by
  unfold roundHalfEven
  simp [Nat.mod_one]

/-- A number shifted so that its first bit is the implicit one. -/
theorem normalized_bounds {n : Nat} (hn : n ≠ 0) (h : n.log2 ≤ 52) :
    2 ^ 52 ≤ n * 2 ^ (52 - n.log2) ∧ n * 2 ^ (52 - n.log2) < 2 ^ 53 := by
  obtain ⟨hlow, hhigh⟩ := (Nat.log2_eq_iff hn).1 rfl
  have hpow : n.log2 + 1 + (52 - n.log2) = 53 := by omega
  constructor
  · calc 2 ^ 52 = 2 ^ n.log2 * 2 ^ (52 - n.log2) := by rw [← Nat.pow_add, Nat.add_sub_cancel' h]
      _ ≤ n * 2 ^ (52 - n.log2) := Nat.mul_le_mul_right _ hlow
  · calc n * 2 ^ (52 - n.log2) < 2 ^ (n.log2 + 1) * 2 ^ (52 - n.log2) :=
          Nat.mul_lt_mul_of_pos_right hhigh (Nat.two_pow_pos _)
      _ = 2 ^ 53 := by rw [← Nat.pow_add, hpow]

/-- The code of a whole number: its binade, and its bits behind the first. -/
theorem nearestCode_one {n : Nat} (hn : n ≠ 0) (h : n.log2 ≤ 52) :
    nearestCode n 1 = (n.log2 + 1023) * 2 ^ 52 + (n * 2 ^ (52 - n.log2) - 2 ^ 52) := by
  have hbounds := normalized_bounds hn h
  have hleft : (-((n.log2 : Int) - 52)).toNat = 52 - n.log2 := by omega
  have hright : ((n.log2 : Int) - 52).toNat = 0 := by omega
  have hmax : max (-1074) ((n.log2 : Int) - 52) = (n.log2 : Int) - 52 := by omega
  have hbinade : ((n.log2 : Int) - 52 + 1074).toNat = n.log2 + 1022 := by omega
  have hinfinity : infinityCode = 2047 * 2 ^ 52 := rfl
  unfold nearestCode unscale
  rw [if_neg hn, topBit_one hn]
  dsimp only
  rw [hmax, hleft, hright, hbinade]
  simp only [Nat.pow_eq, Nat.pow_zero, Nat.mul_one, roundHalfEven_one]
  omega

/-- **A whole number up to `2 ^ 53` is a double.** -/
theorem nearestCode_whole {n : Nat} (h : n ≤ 2 ^ 53) :
    nearestCode n 1 < infinityCode ∧ units (nearestCode n 1) = n * one := by
  have hinfinity : infinityCode = 2047 * 2 ^ 52 := rfl
  have hplaces : places = 1074 := rfl
  by_cases hzero : n = 0
  · rw [hzero, nearestCode_zero, units_zero, Nat.zero_mul]
    exact ⟨by decide, rfl⟩
  by_cases htop : n = 2 ^ 53
  · have hcode : nearestCode (2 ^ 53) 1 = 1076 * 2 ^ 52 + 0 := by decide +kernel
    have hexponent : 1076 - 1 = places + 1 := rfl
    have hpow : 2 ^ (places + 1) = 2 * one := by rw [one, Nat.pow_succ']
    rw [htop, hcode, units_fields (by decide), if_neg (by decide), hexponent, hpow]
    exact ⟨by decide, by omega⟩
  · have hlog : n.log2 ≤ 52 := Nat.lt_succ_iff.1 ((Nat.log2_lt hzero).2 (by omega))
    have hbounds := normalized_bounds hzero hlog
    have hpow : 52 - n.log2 + (n.log2 + 1023 - 1) = places := by omega
    rw [nearestCode_one hzero hlog]
    refine ⟨by omega, ?_⟩
    rw [units_fields (by omega), if_neg (by omega), Nat.add_sub_cancel' hbounds.1, Nat.mul_assoc,
      ← Nat.pow_add, hpow, one]

section Signed

variable (negative : Bool) {n : Nat} (h : n ≤ 2 ^ 53)

include h

theorem negative_signed : Double.negative (signed negative n) = negative :=
  negative_ofCode negative (nearestCode_whole h).1

/-- **The double of a sign and a whole number up to `2 ^ 53` is that number.** -/
theorem isWhole_signed : IsWhole (signed negative n) (if negative then -(n : Int) else n) where
  finite := by
    rw [isFinite_iff, signed, code_ofCode negative (nearestCode_whole h).1]
    exact (nearestCode_whole h).1
  count := by
    rw [inUnits_eq, negative_signed negative h, signed, code_ofCode negative (nearestCode_whole h).1,
      (nearestCode_whole h).2]
    split <;> push_cast
    · exact (Int.neg_mul _ _).symm
    · rfl

end Signed

/-- Both zeros are the whole number zero. -/
theorem isWhole_zero (negative : Bool) : IsWhole (ofCode negative 0) 0 := by
  have hsigned := isWhole_signed negative (Nat.zero_le (2 ^ 53))
  rw [signed, nearestCode_zero] at hsigned
  cases negative <;> exact hsigned

variable {x y : Float} {a b : Int}

theorem negative_ofInt (h : a.natAbs ≤ 2 ^ 53) : negative (ofInt a) = decide (a < 0) :=
  negative_signed _ h

/-- **The double of a whole number up to `2 ^ 53` is that number.** -/
theorem isWhole_ofInt (h : a.natAbs ≤ 2 ^ 53) : IsWhole (ofInt a) a := by
  have hsigned := isWhole_signed (decide (a < 0)) h
  have hvalue : (if decide (a < 0) = true then -(a.natAbs : Int) else a.natAbs) = a := by
    split <;> rename_i hsign
    · have := of_decide_eq_true hsign
      omega
    · have : ¬a < 0 := fun hlt => hsign (decide_eq_true hlt)
      omega
  rw [hvalue] at hsigned
  exact hsigned

theorem ofNat_eq_ofInt (n : Nat) : ofNat n = ofInt n := by
  have hsign : decide ((n : Int) < 0) = false := decide_eq_false (by omega)
  rw [ofInt, hsign, Int.natAbs_natCast]
  rfl

/-- **A finite double rounded toward zero is its whole part.** -/
theorem isWhole_truncate (hx : isFinite x = true) : IsWhole (truncate x) (toInt x) := by
  unfold truncate roundWhere
  dsimp only
  by_cases hbelow : belowOne (code x) = 0
  · rw [hx, hbelow, if_pos (by decide)]
    refine ⟨hx, ?_⟩
    rw [inUnits_eq, units_of_belowOne hbelow, toInt]
    split <;> push_cast
    · exact (Int.neg_mul _ _).symm
    · rfl
  · have hlt := wholePart_lt hbelow
    have hcondition : ¬(!isFinite x || belowOne (code x) == 0) = true := by
      simp [hx, hbelow]
    rw [if_neg hcondition, if_neg Bool.false_ne_true]
    exact isWhole_signed (negative x) hlt.le

/-! ## 3. Reckoning with whole numbers -/

namespace IsWhole

theorem code_eq_zero_iff (hx : IsWhole x a) : code x = 0 ↔ a = 0 := by
  have hone : (one : Int) ≠ 0 := Int.natCast_ne_zero.2 one_pos.ne'
  rw [← inUnits_eq_zero_iff, hx.count, Int.mul_eq_zero]
  exact or_iff_left hone

theorem neg (hx : IsWhole x a) : IsWhole (-x) (-a) where
  finite := isFinite_neg hx.finite
  count := by rw [inUnits_neg hx.finite, hx.count, Int.neg_mul]

theorem order_lt_iff (hx : IsWhole x a) (hy : IsWhole y b) : order x < order y ↔ a < b := by
  rw [Double.order_lt_iff, hx.count, hy.count]
  exact Int.mul_lt_mul_right (Int.natCast_pos.2 one_pos)

/-- **A sum of whole numbers up to `2 ^ 53` is exact.** Between a zero and a zero both signs occur. -/
theorem add_eq (hx : IsWhole x a) (hy : IsWhole y b) (h : (a + b).natAbs ≤ 2 ^ 53) :
    x + y = if a + b = 0 then ofCode (negative x && negative y) 0 else ofInt (a + b) := by
  have hsum := isWhole_ofInt h
  have hcount : inUnits x + inUnits y = (a + b) * one := by
    rw [hx.count, hy.count, Int.add_mul]
  split
  · rename_i hzero
    rw [hzero, Int.zero_mul] at hcount
    exact Double.add_eq_zero hx.finite hy.finite hcount
  · rename_i hzero
    exact Double.add_eq hx.finite hy.finite hsum.finite (mt hsum.code_eq_zero_iff.1 hzero)
      (hcount.trans hsum.count.symm)

theorem add_eq_ofInt (hx : IsWhole x a) (hy : IsWhole y b)
    (hsign : (negative x && negative y) = false) (h : (a + b).natAbs ≤ 2 ^ 53) :
    x + y = ofInt (a + b) := by
  rw [hx.add_eq hy h]
  split
  · rename_i hzero
    rw [hsign, hzero]
    rfl
  · rfl

protected theorem add (hx : IsWhole x a) (hy : IsWhole y b) (h : (a + b).natAbs ≤ 2 ^ 53) :
    IsWhole (x + y) (a + b) := by
  rw [hx.add_eq hy h]
  split
  · rename_i hzero
    rw [hzero]
    exact isWhole_zero _
  · exact isWhole_ofInt h

/-- **A difference of whole numbers up to `2 ^ 53` is exact.** -/
protected theorem sub (hx : IsWhole x a) (hy : IsWhole y b) (h : (a - b).natAbs ≤ 2 ^ 53) :
    IsWhole (x - y) (a - b) := by
  rw [sub_eq_add_neg x hy.finite]
  exact hx.add hy.neg h

/-- The magnitude of a whole number. -/
theorem wholePart_code (hx : IsWhole x a) : wholePart (code x) = a.natAbs := by
  have htoInt := hx.toInt_eq
  rw [toInt] at htoInt
  split at htoInt <;> omega

end IsWhole

end Formula.Double
