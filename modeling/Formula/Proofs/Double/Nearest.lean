import Formula.Proofs.Double.Whole

/-!
# Sums that are rounded

A sum of finite doubles is the double nearest to the exact sum, so it grows with the exact sum.

Counted in the smallest positive double, the exact sum is an integer, and the code of the double that
is nearest to it can be computed from its bits (`codeOfUnits`): those behind the highest 53 are
rounded away, and the number of these gives the binade. A significand that is rounded up to `2 ^ 53`
gives the first code of the next binade.

* `codeOfUnits_mono`: a larger magnitude has no smaller code.
* `round_eq` is the step: rounding finds this code, from any exponent.
* `order_add` is the main statement, and `order_add_mono` what follows for the order of sums.
* `nearestCode_ratio`: the code nearest to a ratio is found from its units in the same way, so a ratio that is
  the magnitude of a double has the code of that double (`nearestCode_units`).
* `inUnits_ofNat_mono` says the same of the doubles of whole numbers, which are rounded in the same way.
-/

namespace Formula.Double

open Float.Model Float.Model.UnpackedFloat

/-! ## 1. Rounding a ratio to a whole number -/

theorem div_le_roundHalfEven (n d : Nat) : n / d ≤ roundHalfEven n d := by
  unfold roundHalfEven
  dsimp only
  split
  · exact Nat.le_refl _
  · split <;> omega

theorem roundHalfEven_le (n d : Nat) : roundHalfEven n d ≤ n / d + 1 := by
  unfold roundHalfEven
  dsimp only
  split
  · exact Nat.le_succ _
  · split <;> omega

/-- **A larger ratio is rounded to no smaller number.** -/
theorem roundHalfEven_mono {m n : Nat} (h : m ≤ n) (d : Nat) :
    roundHalfEven m d ≤ roundHalfEven n d := by
  have hdiv : m / d ≤ n / d := Nat.div_le_div_right h
  rcases Nat.lt_or_eq_of_le hdiv with hlt | heq
  · calc roundHalfEven m d ≤ m / d + 1 := roundHalfEven_le m d
      _ ≤ n / d := hlt
      _ ≤ roundHalfEven n d := div_le_roundHalfEven n d
  · -- the whole parts are the same, so the rests are in order
    have hm := Nat.div_add_mod m d
    have hn := Nat.div_add_mod n d
    have hrest : m % d ≤ n % d := by
      rw [heq] at hm
      omega
    unfold roundHalfEven
    dsimp only
    rw [heq]
    split <;> split <;> (try split) <;> (try split) <;> omega

/-- Only the ratio counts. -/
theorem roundHalfEven_mul (n d : Nat) {c : Nat} (hc : 0 < c) :
    roundHalfEven (n * c) (d * c) = roundHalfEven n d := by
  have hlt : 2 * (n % d * c) < d * c ↔ 2 * (n % d) < d := by
    rw [← Nat.mul_assoc]
    exact Nat.mul_lt_mul_right hc
  have hgt : d * c < 2 * (n % d * c) ↔ d < 2 * (n % d) := by
    rw [← Nat.mul_assoc]
    exact Nat.mul_lt_mul_right hc
  unfold roundHalfEven
  simp only [Nat.mul_div_mul_right _ _ hc, Nat.mul_mod_mul_right, hlt, hgt]

/-! ## 2. The code nearest to a magnitude -/

/-- How many bits of a magnitude are rounded away. -/
def dropped (n : Nat) : Nat := n.log2 - 52

/-- The bits that are kept, rounded. -/
def kept (n : Nat) : Nat := roundHalfEven n (2 ^ dropped n)

/-- The code nearest to a magnitude that is counted in `2 ^ -1074`, if codes had no end. -/
def codeOfUnits (n : Nat) : Nat := dropped n * 2 ^ 52 + kept n

theorem kept_le (n : Nat) : kept n ≤ 2 ^ 53 := by
  have hbits : n < 2 ^ 53 * 2 ^ dropped n := by
    rw [← Nat.pow_add]
    refine Nat.lt_of_lt_of_le Nat.lt_log2_self (Nat.pow_le_pow_right (by decide) ?_)
    rw [dropped]
    omega
  have hdiv : n / 2 ^ dropped n < 2 ^ 53 := Nat.div_lt_of_lt_mul (by rwa [Nat.mul_comm])
  exact (roundHalfEven_le _ _).trans hdiv

theorem kept_of_dropped {n : Nat} (h : dropped n = 0) : kept n = n := by
  rw [kept, h, Nat.pow_zero, roundHalfEven_one]

theorem le_kept {n : Nat} (h : dropped n ≠ 0) : 2 ^ 52 ≤ kept n := by
  have hne : n ≠ 0 := by
    rintro rfl
    exact h rfl
  have hlog : 52 + dropped n = n.log2 := by
    rw [dropped] at h ⊢
    omega
  have hbits : 2 ^ 52 * 2 ^ dropped n ≤ n := by
    rw [← Nat.pow_add, hlog]
    exact Nat.log2_self_le hne
  exact ((Nat.le_div_iff_mul_le (Nat.two_pow_pos _)).2 hbits).trans (div_le_roundHalfEven _ _)

/-- **A larger magnitude has no smaller code.** -/
theorem codeOfUnits_mono : Monotone codeOfUnits := by
  intro m n h
  have hlog : m.log2 ≤ n.log2 := by
    rw [Nat.log2_eq_log_two, Nat.log2_eq_log_two]
    exact Nat.log_mono_right h
  have hdropped : dropped m ≤ dropped n := Nat.sub_le_sub_right hlog 52
  rcases Nat.lt_or_eq_of_le hdropped with hlt | heq
  · have hm := kept_le m
    have hn := le_kept (Nat.ne_of_gt (Nat.zero_lt_of_lt hlt))
    rw [codeOfUnits, codeOfUnits]
    omega
  · rw [codeOfUnits, codeOfUnits, kept, kept, heq]
    exact Nat.add_le_add_left (roundHalfEven_mono h _) _

theorem codeOfUnits_ne_zero {n : Nat} (h : n ≠ 0) : codeOfUnits n ≠ 0 := by
  rw [codeOfUnits]
  by_cases hdropped : dropped n = 0
  · rw [kept_of_dropped hdropped]
    omega
  · omega

/-- **A magnitude that is a double's has its code.** -/
theorem codeOfUnits_units (code : Nat) : codeOfUnits (units code) = code := by
  have hF : code % 2 ^ 52 < 2 ^ 52 := Nat.mod_lt _ (by decide)
  have hsplit : code / 2 ^ 52 * 2 ^ 52 + code % 2 ^ 52 = code := by omega
  have hjoined : ¬code / 2 ^ 52 = 0 →
      (code / 2 ^ 52 - 1) * 2 ^ 52 + (2 ^ 52 + code % 2 ^ 52) = code := by omega
  have hunits : units (code / 2 ^ 52 * 2 ^ 52 + code % 2 ^ 52) = _ := units_fields hF
  rw [hsplit] at hunits
  split at hunits
  · rename_i hbottom
    have hlog : (units code).log2 ≤ 52 := by
      rw [hunits]
      by_cases hzero : code % 2 ^ 52 = 0
      · rw [hzero]
        decide
      · exact ((Nat.log2_lt hzero).2 hF).le
    have hdropped : dropped (units code) = 0 := Nat.sub_eq_zero_of_le hlog
    rw [hbottom] at hsplit
    rw [codeOfUnits, kept_of_dropped hdropped, hdropped, hunits, hsplit]
  · rename_i hbottom
    have hne : 2 ^ 52 + code % 2 ^ 52 ≠ 0 := by omega
    have hlog : (2 ^ 52 + code % 2 ^ 52).log2 = 52 := (Nat.log2_eq_iff hne).2 (by omega)
    have hdropped : dropped (units code) = code / 2 ^ 52 - 1 := by
      rw [dropped, hunits, log2_mul_two_pow hne, hlog, Nat.add_sub_cancel_left]
    have hkept : kept (units code) = 2 ^ 52 + code % 2 ^ 52 := by
      have hratio := roundHalfEven_mul (2 ^ 52 + code % 2 ^ 52) 1
        (Nat.two_pow_pos (code / 2 ^ 52 - 1))
      rw [Nat.one_mul, roundHalfEven_one] at hratio
      rw [kept, hdropped, hunits, hratio]
    rw [codeOfUnits, hdropped, hkept, hjoined hbottom]

/-- The kept bits are the significand of the code, which is one bit shorter if rounding has carried. -/
theorem exists_carry (n : Nat) :
    ∃ d : Nat, kept n = significand (codeOfUnits n) * 2 ^ d ∧
      (dropped n : Int) - 1074 = scale (codeOfUnits n) - d := by
  have hle := kept_le n
  rcases Nat.lt_or_eq_of_le hle with hlt | heq
  · refine ⟨0, ?_⟩
    by_cases hdropped : dropped n = 0
    · have hcode : codeOfUnits n = kept n := by rw [codeOfUnits, hdropped, Nat.zero_mul, Nat.zero_add]
      rw [hcode, significand_of_lt hlt, scale_of_lt hlt, hdropped]
      exact ⟨(Nat.mul_one _).symm, by omega⟩
    · have hge := le_kept hdropped
      have hcode : codeOfUnits n = (dropped n + 1) * 2 ^ 52 + (kept n - 2 ^ 52) := by
        rw [codeOfUnits]
        omega
      rw [hcode, significand_fields _ (by omega), scale_fields _ (by omega),
        if_neg (Nat.succ_ne_zero _), if_neg (Nat.succ_ne_zero _)]
      omega
  · have hcode : codeOfUnits n = (dropped n + 2) * 2 ^ 52 + 0 := by
      rw [codeOfUnits, heq]
      omega
    refine ⟨1, ?_⟩
    rw [hcode, heq, significand_fields _ (by decide), scale_fields _ (by decide),
      if_neg (Nat.succ_ne_zero _), if_neg (Nat.succ_ne_zero _)]
    omega

/-! ## 3. Rounding -/

/-- **What is left of a significand that is shifted**, and what the two bits behind it tell about the
    rest that is lost. -/
theorem repeat_shiftRightOne_bits (m a : Nat) :
    Nat.repeat ExtendedMantissa.shiftRightOne a ⟨m, false, false⟩ =
      ⟨m / 2 ^ a, decide (2 ^ a ≤ 2 * (m % 2 ^ a)),
        decide (m % 2 ^ a ≠ 0 ∧ 2 * (m % 2 ^ a) ≠ 2 ^ a)⟩ := by
  induction a with
  | zero => simp [Nat.repeat, Nat.mod_one]
  | succ a ih =>
    have hrest : m % 2 ^ (a + 1) = m % 2 ^ a + 2 ^ a * (m / 2 ^ a % 2) := Nat.mod_pow_succ
    have hlt : m % 2 ^ a < 2 ^ a := Nat.mod_lt _ (Nat.two_pow_pos a)
    have hbit : m / 2 ^ a % 2 = 0 ∨ m / 2 ^ a % 2 = 1 := by omega
    have hpow : 2 ^ (a + 1) = 2 * 2 ^ a := Nat.pow_succ'
    rw [Nat.repeat, ih, ExtendedMantissa.shiftRightOne, hrest, hpow]
    simp only [ExtendedMantissa.mk.injEq]
    refine ⟨?_, ?_, ?_⟩
    · rw [Nat.div_div_eq_div_mul, Nat.mul_comm]
    · rcases hbit with hbit | hbit <;> rw [hbit]
      · exact (decide_eq_false (by omega)).symm
      · exact (decide_eq_true (by omega)).symm
    · rw [← Bool.decide_or]
      refine decide_eq_decide.2 ?_
      rcases hbit with hbit | hbit <;> rw [hbit] <;> omega

/-- **A shifted significand is rounded to the nearest.** -/
theorem roundedMantissa_repeat (m a : Nat) :
    ExtendedMantissa.roundedMantissa
        (Nat.repeat ExtendedMantissa.shiftRightOne a ⟨m, false, false⟩) =
      roundHalfEven m (2 ^ a) := by
  have hpos := Nat.two_pow_pos a
  rw [repeat_shiftRightOne_bits, roundHalfEven]
  generalize m % 2 ^ a = r
  generalize 2 ^ a = p at *
  by_cases hlt : 2 * r < p
  · have hround : decide (p ≤ 2 * r) = false := decide_eq_false (by omega)
    rw [if_pos hlt, hround]
    cases decide (r ≠ 0 ∧ 2 * r ≠ p) <;> rfl
  · have hround : decide (p ≤ 2 * r) = true := decide_eq_true (by omega)
    rw [if_neg hlt, hround]
    by_cases hgt : p < 2 * r
    · have hsticky : decide (r ≠ 0 ∧ 2 * r ≠ p) = true := decide_eq_true (by omega)
      rw [if_pos hgt, hsticky]
      rfl
    · have hsticky : decide (r ≠ 0 ∧ 2 * r ≠ p) = false := decide_eq_false (by omega)
      rw [if_neg hgt, hsticky]
      rfl

section Rounding

variable {m : Nat} {e : Int} (hm : m ≠ 0) (he : -1074 ≤ e)

include hm he

/-- The exponent that rounding aims at drops the bits behind the highest 53. -/
theorem targetExponent_units :
    Format.binary64.targetExponent (totalExponent m e) =
      (dropped (m * 2 ^ (e + 1074).toNat) : Int) - 1074 := by
  rw [dropped, log2_mul_two_pow hm, totalExponent]
  show max (_ - 53) (-1074) = _
  omega

theorem roundWithAccuracy_eq (s : Sign)
    (hle : e ≤ (dropped (m * 2 ^ (e + 1074).toNat) : Int) - 1074) :
    let code := codeOfUnits (m * 2 ^ (e + 1074).toNat)
    roundWithAccuracy .binary64 s m e .exact =
      .finite s (significand code) (scale code) (significand_pos (codeOfUnits_ne_zero
        (Nat.mul_ne_zero hm (Nat.two_pow_pos _).ne'))) := by
  intro code
  have hne : m * 2 ^ (e + 1074).toNat ≠ 0 := Nat.mul_ne_zero hm (Nat.two_pow_pos _).ne'
  have hcode : code ≠ 0 := codeOfUnits_ne_zero hne
  obtain ⟨d, hkept, hscale⟩ := exists_carry (m * 2 ^ (e + 1074).toNat)
  let a := ((dropped (m * 2 ^ (e + 1074).toNat) : Int) - 1074 - e).toNat
  have hexponent : e + (a : Int) = scale code - d := by
    rw [← hscale]
    omega
  have hratio : roundHalfEven m (2 ^ a) = significand code * 2 ^ d := by
    have hpow : a + (e + 1074).toNat = dropped (m * 2 ^ (e + 1074).toNat) := by omega
    rw [← hkept, kept, ← hpow, Nat.pow_add, roundHalfEven_mul _ _ (Nat.two_pow_pos _)]
  have hfirst : shiftToTargetExponent .binary64 m e .exact =
      (Nat.repeat ExtendedMantissa.shiftRightOne a ⟨m, false, false⟩, scale code - d) := by
    rw [shiftToTargetExponent, targetExponent_units hm he, shiftToExponent]
    exact Prod.ext rfl hexponent
  rw [roundWithAccuracy, hfirst]
  simp only [roundedMantissa_repeat, hratio, shift_exact hcode d]
  exact dif_neg (significand_pos hcode).ne'

/-- **Rounding finds the nearest code**, whatever the exponent. -/
theorem round_eq (s : Sign) {n : Nat} (hn : m * 2 ^ (e + 1074).toNat = n) (hn0 : n ≠ 0) :
    UnpackedFloat.round .binary64 s m e =
      .finite s (significand (codeOfUnits n)) (scale (codeOfUnits n))
        (significand_pos (codeOfUnits_ne_zero hn0)) := by
  subst hn
  let target := (dropped (m * 2 ^ (e + 1074).toNat) : Int) - 1074
  let d := (e - target).toNat
  have htarget : -1074 ≤ target := by omega
  have hd : -1074 ≤ e - d := by omega
  have hshifted : m * 2 ^ d ≠ 0 := Nat.mul_ne_zero hm (Nat.two_pow_pos d).ne'
  have hsame : m * 2 ^ d * 2 ^ (e - (d : Int) + 1074).toNat = m * 2 ^ (e + 1074).toNat := by
    have hpow : d + (e - (d : Int) + 1074).toNat = (e + 1074).toNat := by omega
    rw [Nat.mul_assoc, ← Nat.pow_add, hpow]
  have hdecreased : decreaseExponent m e target = (m * 2 ^ d, e - d) := by
    rw [decreaseExponent, Nat.shiftLeft_eq]
  have hrounded := roundWithAccuracy_eq hshifted hd s (by rw [hsame]; omega)
  simp only [hsame] at hrounded
  rw [UnpackedFloat.round, targetExponent_units hm he, hdecreased]
  exact hrounded

end Rounding

/-- The same for a whole number with a sign. -/
theorem normalize_eq {m e S : Int} (he : -1074 ≤ e) (hm : m * 2 ^ (e + 1074).toNat = S)
    (hS : S ≠ 0) (zeroSign : Sign) :
    UnpackedFloat.normalize .binary64 m e zeroSign =
      .finite (sign (decide (S < 0))) (significand (codeOfUnits S.natAbs))
        (scale (codeOfUnits S.natAbs))
        (significand_pos (codeOfUnits_ne_zero (Int.natAbs_ne_zero.2 hS))) := by
  have hpow : (0 : Int) < 2 ^ (e + 1074).toNat := Int.pow_pos (by decide)
  have hm0 : m ≠ 0 := by
    rintro rfl
    exact hS (by rw [← hm, Int.zero_mul])
  have hsign : S < 0 ↔ m < 0 := by
    have hlt : m * 2 ^ (e + 1074).toNat < 0 * 2 ^ (e + 1074).toNat ↔ m < 0 :=
      Int.mul_lt_mul_right hpow
    rwa [hm, Int.zero_mul] at hlt
  have hunits : m.natAbs * 2 ^ (e + 1074).toNat = S.natAbs := by
    rw [← hm, Int.natAbs_mul, Int.natAbs_pow]
    rfl
  have hround (s : Sign) := round_eq (Int.natAbs_ne_zero.2 hm0) he s hunits (Int.natAbs_ne_zero.2 hS)
  rcases Int.lt_or_gt_of_ne hm0 with hneg | hpos
  · have hcompare : compare m 0 = .lt := Int.compare_eq_lt.2 hneg
    have habs : (-m).toNat = m.natAbs := by omega
    rw [UnpackedFloat.normalize, hcompare, decide_eq_true (hsign.2 hneg)]
    dsimp only
    rw [habs]
    exact hround _
  · have hcompare : compare m 0 = .gt := Int.compare_eq_gt.2 hpos
    have habs : m.toNat = m.natAbs := by omega
    rw [UnpackedFloat.normalize, hcompare, decide_eq_false (by omega)]
    dsimp only
    rw [habs]
    exact hround _

/-! ## 4. Packing -/

theorem packed_infinity (negative : Bool) :
    packed (.infinity (sign negative)) = ofCode negative infinityCode := by
  cases negative <;> decide +kernel

/-- **A magnitude past the largest double is packed as infinity.** -/
theorem packed_finite (negative : Bool) {code : Nat} (h : code ≠ 0) :
    packed (.finite (sign negative) (significand code) (scale code) (significand_pos h)) =
      ofCode negative (min infinityCode code) := by
  have hinfinity : infinityCode = 2047 * 2 ^ 52 := rfl
  by_cases hfinite : code < infinityCode
  · rw [← unpacked_finite negative h hfinite, packed_unpacked negative hfinite,
      Nat.min_eq_right hfinite.le]
  · have hscale : (scale code + 1023 + 52).toNat = code / 2 ^ 52 := by
      rw [scale, if_neg (by simp only [Nat.pow_eq]; omega), Nat.pow_eq]
      omega
    have hbig : 2 ^ 11 ≤ (scale code + 1023 + 52).toNat + 1 := by
      rw [hscale]
      omega
    rw [Nat.min_eq_left (Nat.not_lt.1 hfinite), ← packed_infinity]
    have hpack : UnpackedFloat.pack .binary64 (.finite (sign negative) (significand code)
        (scale code) (significand_pos h)) = packedInfinity .binary64 (sign negative) := if_pos hbig
    rw [packed, Float.Model.pack, packed, Float.Model.pack]
    simp only [hpack]
    rfl

theorem code_ofCode_le (negative : Bool) {code : Nat} (h : code ≤ infinityCode) :
    Double.code (ofCode negative code) = code ∧ Double.negative (ofCode negative code) = negative := by
  rcases Nat.lt_or_eq_of_le h with hlt | rfl
  · exact ⟨code_ofCode negative hlt, negative_ofCode negative hlt⟩
  · cases negative <;> decide +kernel

/-! ## 5. Sums -/

/-- The place in the order of doubles of the one nearest to an exact sum. -/
def nearestOrder (S : Int) : Int :=
  if S < 0 then -(min infinityCode (codeOfUnits S.natAbs) : Nat)
  else (min infinityCode (codeOfUnits S.natAbs) : Nat)

theorem nearestOrder_mono : Monotone nearestOrder := by
  intro S T h
  have hmono {m n : Nat} (hmn : m ≤ n) :
      min infinityCode (codeOfUnits m) ≤ min infinityCode (codeOfUnits n) :=
    min_le_min_left _ (codeOfUnits_mono hmn)
  rw [nearestOrder, nearestOrder]
  by_cases hS : S < 0
  · by_cases hT : T < 0
    · have := hmono (by omega : T.natAbs ≤ S.natAbs)
      rw [if_pos hS, if_pos hT]
      omega
    · rw [if_pos hS, if_neg hT]
      omega
  · have := hmono (by omega : S.natAbs ≤ T.natAbs)
    rw [if_neg hS, if_neg (by omega)]
    omega

variable {x y : Float}

/-- **A sum is the double nearest to the exact sum.** -/
theorem add_eq_nearest (hx : isFinite x = true) (hy : isFinite y = true)
    (hS : inUnits x + inUnits y ≠ 0) :
    x + y = ofCode (decide (inUnits x + inUnits y < 0))
      (min infinityCode (codeOfUnits (inUnits x + inUnits y).natAbs)) := by
  -- a double that is the exact sum already is put together from its own fields
  have hself {z : Float} (hz : isFinite z = true) (hcount : inUnits x + inUnits y = inUnits z) :
      x + y = ofCode (decide (inUnits x + inUnits y < 0))
        (min infinityCode (codeOfUnits (inUnits x + inUnits y).natAbs)) := by
    have hz0 : code z ≠ 0 := fun hzero => hS (hcount.trans (inUnits_eq_zero_iff.2 hzero))
    have hunits := units_pos hz0
    have hnegative : decide (inUnits z < 0) = negative z := by
      rw [inUnits_eq]
      cases negative z with
      | false => exact decide_eq_false (by rw [if_neg Bool.false_ne_true]; omega)
      | true => exact decide_eq_true (by rw [if_pos rfl]; omega)
    have hnatAbs : (inUnits z).natAbs = units (code z) := by
      rw [inUnits_eq]
      split <;> omega
    rw [hcount, hnegative, hnatAbs, codeOfUnits_units, Nat.min_eq_right (isFinite_iff.1 hz).le,
      ofCode_fields (isFinite_iff.1 hz)]
    exact add_eq hx hy hz hz0 hcount
  by_cases hx0 : code x = 0
  · exact hself hy (by rw [inUnits_eq_zero_iff.2 hx0, Int.zero_add])
  by_cases hy0 : code y = 0
  · exact hself hx (by rw [inUnits_eq_zero_iff.2 hy0, Int.add_zero])
  obtain ⟨m, e, he, hm, hsum⟩ := add_eq_normalize hx hy hx0 hy0
  rw [hsum, normalize_eq he hm hS]
  exact packed_finite _ (codeOfUnits_ne_zero (Int.natAbs_ne_zero.2 hS))

/-- **Where a sum stands in the order of doubles depends on the exact sum alone**, and a sum of finite
    doubles is a number. -/
theorem order_add (hx : isFinite x = true) (hy : isFinite y = true) :
    order (x + y) = nearestOrder (inUnits x + inUnits y) ∧ isNaN (x + y) = false := by
  have hfields {negative : Bool} {c : Nat} (hc : c ≤ infinityCode)
      (hsum : x + y = ofCode negative c) :
      order (x + y) = (if negative then -(c : Int) else c) ∧ isNaN (x + y) = false := by
    obtain ⟨hcode, hnegative⟩ := code_ofCode_le negative hc
    rw [hsum, order, isNaN, hcode, hnegative]
    exact ⟨rfl, decide_eq_false (Nat.not_lt.2 hc)⟩
  by_cases hS : inUnits x + inUnits y = 0
  · obtain ⟨horder, hnumber⟩ := hfields (Nat.zero_le _) (add_eq_zero hx hy hS)
    refine ⟨?_, hnumber⟩
    rw [horder, hS, nearestOrder, Int.natCast_zero, Int.neg_zero, ite_self]
    rfl
  · obtain ⟨horder, hnumber⟩ := hfields (Nat.min_le_left _ _) (add_eq_nearest hx hy hS)
    refine ⟨?_, hnumber⟩
    rw [horder, nearestOrder]
    split <;> rename_i hsign
    · rw [if_pos (of_decide_eq_true hsign)]
    · rw [if_neg (fun hlt => hsign (decide_eq_true hlt))]

/-- **A sum with a larger second operand is no smaller.** -/
theorem order_add_mono {z : Float} (hx : isFinite x = true) (hy : isFinite y = true)
    (hz : isFinite z = true) (h : inUnits y ≤ inUnits z) : order (x + y) ≤ order (x + z) := by
  rw [(order_add hx hy).1, (order_add hx hz).1]
  exact nearestOrder_mono (Int.add_le_add_left h _)

/-! ## 6. Ratios -/

section Ratio

variable {n d u : Nat} (hn : n ≠ 0) (hd : 0 < d) (h : n * one = u * d)

include h

/-- A ratio that counts units may be scaled as the units are. -/
theorem scaled_ratio (a b : Nat) :
    n * 2 ^ a * one = u * 2 ^ a * d ∧ d * 2 ^ b * one = 2 ^ (b + places) * d := by
  constructor
  · rw [Nat.mul_right_comm, h, Nat.mul_right_comm]
  · rw [Nat.mul_assoc, one, ← Nat.pow_add, Nat.mul_comm]

include hn hd

/-- The first bit of a ratio is that of the units that it counts. -/
theorem topBit_ratio : topBit n d = (u.log2 : Int) - places := by
  have hu : u ≠ 0 := by
    rintro rfl
    rw [Nat.zero_mul] at h
    exact Nat.mul_ne_zero hn one_pos.ne' h
  -- the quotient that the bit is read off is positive
  have hbits : n.log2 + places < u.log2 + 1 + (d.log2 + 1) := by
    rw [← Nat.pow_lt_pow_iff_right (a := 2) (by decide), Nat.pow_add, Nat.pow_add]
    calc 2 ^ n.log2 * 2 ^ places ≤ n * one := Nat.mul_le_mul_right _ (Nat.log2_self_le hn)
      _ = u * d := h
      _ < 2 ^ (u.log2 + 1) * 2 ^ (d.log2 + 1) :=
        Nat.mul_lt_mul_of_lt_of_le Nat.lt_log2_self Nat.lt_log2_self.le (Nat.two_pow_pos _)
  have hquotient (a b : Nat) : (n * 2 ^ a / (d * 2 ^ b)).log2 = u.log2 + a - (b + places) := by
    obtain ⟨hleft, hright⟩ := scaled_ratio h a b
    rw [← Nat.mul_div_mul_right _ _ one_pos, hleft, hright, Nat.mul_div_mul_right _ _ hd,
      Nat.log2_eq_log_two, Nat.log_div_base_pow, ← Nat.log2_eq_log_two, log2_mul_two_pow hu]
  rw [topBit, unscale]
  simp only [Nat.pow_eq, hquotient]
  omega

/-- **The code nearest to a ratio is that of the units that it counts.** -/
theorem nearestCode_ratio : nearestCode n d = min infinityCode (codeOfUnits u) := by
  have hplaces : places = 1074 := rfl
  let up := (-(max (-1074) ((u.log2 : Int) - places - 52))).toNat
  let down := (max (-1074) ((u.log2 : Int) - places - 52)).toNat
  have hbinade : dropped u = (max (-1074) ((u.log2 : Int) - places - 52) + 1074).toNat := by
    rw [dropped]
    omega
  have hdown : down + places = dropped u + up := by omega
  have hkept : kept u = roundHalfEven (n * 2 ^ up) (d * 2 ^ down) := by
    obtain ⟨hleft, hright⟩ := scaled_ratio h up down
    rw [← roundHalfEven_mul _ _ one_pos, hleft, hright, roundHalfEven_mul _ _ hd, hdown,
      Nat.pow_add, roundHalfEven_mul _ _ (Nat.two_pow_pos _), kept]
  rw [nearestCode, if_neg hn, topBit_ratio hn hd h, codeOfUnits, hbinade, hkept]
  rfl

/-- **A ratio that is the magnitude of a double has its code.** -/
theorem nearestCode_units {code : Nat} (hcode : code < infinityCode) (hunits : u = units code) :
    nearestCode n d = code := by
  rw [nearestCode_ratio hn hd h, hunits, codeOfUnits_units, Nat.min_eq_right hcode.le]

end Ratio

/-! ## 7. Whole numbers -/

/-- The double nearest to a whole number has the code nearest to it. -/
theorem nearestCode_eq (n : Nat) : nearestCode n 1 = min infinityCode (codeOfUnits (n * one)) := by
  by_cases hn : n = 0
  · have hzero : codeOfUnits 0 = 0 := codeOfUnits_units 0
    rw [hn, nearestCode_zero, Nat.zero_mul, hzero, Nat.min_zero]
  · exact nearestCode_ratio hn Nat.one_pos (Nat.mul_one _).symm

theorem nearestCode_mono {j k : Nat} (h : j ≤ k) : nearestCode j 1 ≤ nearestCode k 1 := by
  rw [nearestCode_eq, nearestCode_eq]
  exact min_le_min_left _ (codeOfUnits_mono (Nat.mul_le_mul_right _ h))

/-- **The doubles of larger whole numbers are no smaller.** -/
theorem inUnits_ofNat_mono {j k : Nat} (h : j ≤ k) (hk : k ≤ 2 ^ 64) :
    isFinite (ofNat j) = true ∧ inUnits (ofNat j) ≤ inUnits (ofNat k) := by
  have hlarge : nearestCode (2 ^ 64) 1 < infinityCode := by decide +kernel
  have hkfinite := (nearestCode_mono hk).trans_lt hlarge
  have hjfinite := (nearestCode_mono h).trans_lt hkfinite
  have hcount {n : Nat} (hn : nearestCode n 1 < infinityCode) :
      inUnits (ofNat n) = units (nearestCode n 1) := by
    rw [inUnits_eq, ofNat, negative_ofCode false hn, code_ofCode false hn, if_neg Bool.false_ne_true]
  refine ⟨?_, ?_⟩
  · rw [isFinite_iff, ofNat, code_ofCode false hjfinite]
    exact hjfinite
  · rw [hcount hjfinite, hcount hkfinite]
    exact Int.ofNat_le.2 (units_strictMono.monotone (nearestCode_mono h))

end Formula.Double
