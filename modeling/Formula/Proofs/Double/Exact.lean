import Formula.Proofs.Double.Fields

/-!
# Sums and differences that need no rounding

Every finite double is a whole multiple of the smallest positive one, `2 ^ -1074`. Counted in that
unit (`inUnits`), doubles are integers, and addition is exact wherever the sum of the integers is
again the count of a double.

* `units_strictMono`: larger codes have larger magnitudes, so the order of doubles is that of their
  counts (`order_lt_iff`), and a double other than zero is determined by its count (`eq_of_inUnits`).
* `round_exact` is the step: rounding finds a magnitude that is a double's, from any exponent.
* `add_eq` and `add_eq_zero` are the main statements; `sub_eq_add_neg` makes them serve differences.
-/

namespace Formula.Double

open Float.Model Float.Model.UnpackedFloat

/-! ## 1. Doubles as integers -/

/-- The magnitude of a finite code, counted in `2 ^ -1074`. -/
def units (code : Nat) : Nat := significand code * 2 ^ (scale code + 1074).toNat

/-- A finite double, counted in `2 ^ -1074`. -/
def inUnits (x : Float) : Int := (sign (negative x)).apply (units (code x))

theorem units_fields {exponent fraction : Nat} (h : fraction < 2 ^ 52) :
    units (exponent * 2 ^ 52 + fraction) =
      if exponent = 0 then fraction else (2 ^ 52 + fraction) * 2 ^ (exponent - 1) := by
  rw [units, significand_fields _ h, scale_fields _ h]
  split
  · exact Nat.mul_one _
  · have hexponent : ((exponent : Int) - 1075 + 1074).toNat = exponent - 1 := by omega
    rw [hexponent]

/-- **A larger code is a larger magnitude.** -/
theorem units_strictMono : StrictMono units := by
  refine strictMono_nat_of_lt_succ fun code => ?_
  have hF : code % 2 ^ 52 < 2 ^ 52 := Nat.mod_lt _ (by decide)
  have hsplit : code = code / 2 ^ 52 * 2 ^ 52 + code % 2 ^ 52 := by omega
  generalize code / 2 ^ 52 = E at hsplit
  generalize code % 2 ^ 52 = F at hsplit hF
  subst hsplit
  by_cases hcarry : F + 1 < 2 ^ 52
  · rw [Nat.add_assoc, units_fields hF, units_fields hcarry]
    split
    · omega
    · exact Nat.mul_lt_mul_of_pos_right (by omega) (Nat.two_pow_pos _)
  · -- the fraction is full, and the next code begins the next binade
    have hnext : E * 2 ^ 52 + F + 1 = (E + 1) * 2 ^ 52 + 0 := by omega
    rw [hnext, units_fields hF, units_fields (by decide : (0 : Nat) < 2 ^ 52),
      if_neg (Nat.succ_ne_zero E)]
    split
    · rename_i hE
      rw [hE]
      omega
    · have hpow : 2 ^ (E + 1 - 1) = 2 * 2 ^ (E - 1) := by
        rw [← Nat.pow_succ']
        congr 1
        omega
      rw [hpow, ← Nat.mul_assoc]
      exact Nat.mul_lt_mul_of_pos_right (by omega) (Nat.two_pow_pos _)

theorem units_zero : units 0 = 0 := by
  rw [units]
  exact Nat.zero_mul _

theorem units_eq_zero_iff {code : Nat} : units code = 0 ↔ code = 0 := by
  constructor
  · intro h
    exact units_strictMono.injective (h.trans units_zero.symm)
  · rintro rfl
    exact units_zero

theorem units_pos {code : Nat} (h : code ≠ 0) : 0 < units code :=
  Nat.pos_of_ne_zero (mt units_eq_zero_iff.1 h)

theorem apply_sign (negative : Bool) (n : Int) :
    (sign negative).apply n = if negative then -n else n := by
  cases negative <;> rfl

theorem inUnits_eq (x : Float) :
    inUnits x = if negative x then -(units (code x) : Int) else units (code x) :=
  apply_sign _ _

theorem inUnits_eq_zero_iff {x : Float} : inUnits x = 0 ↔ code x = 0 := by
  rw [← units_eq_zero_iff, inUnits_eq]
  split <;> omega

/-- **The order of doubles is that of their counts.** -/
theorem order_lt_iff (x y : Float) : order x < order y ↔ inUnits x < inUnits y := by
  have hlt : code x < code y ↔ units (code x) < units (code y) := units_strictMono.lt_iff_lt.symm
  have hgt : code y < code x ↔ units (code y) < units (code x) := units_strictMono.lt_iff_lt.symm
  have hx : units (code x) = 0 ↔ code x = 0 := units_eq_zero_iff
  have hy : units (code y) = 0 ↔ code y = 0 := units_eq_zero_iff
  rw [order, order, inUnits_eq, inUnits_eq]
  split <;> split <;> omega

/-- **A double other than zero is determined by its count.** -/
theorem eq_of_inUnits {x y : Float} (hx : code x ≠ 0) (h : inUnits x = inUnits y) : x = y := by
  have hunits := units_pos hx
  rw [inUnits_eq, inUnits_eq] at h
  have hsame : negative x = negative y ∧ units (code x) = units (code y) := by
    cases hnx : negative x <;> cases hny : negative y <;> simp [hnx, hny] at h ⊢ <;> omega
  exact eq_of_fields hsame.1 (units_strictMono.injective hsame.2)

/-! ## 2. Rounding what is a double already -/

theorem log2_mul_two_pow {m : Nat} (h : m ≠ 0) (k : Nat) : (m * 2 ^ k).log2 = m.log2 + k := by
  have hne : m * 2 ^ k ≠ 0 := Nat.mul_ne_zero h (Nat.two_pow_pos k).ne'
  obtain ⟨hlow, hhigh⟩ := (Nat.log2_eq_iff h).1 rfl
  refine (Nat.log2_eq_iff hne).2 ⟨?_, ?_⟩
  · rw [Nat.pow_add]
    exact Nat.mul_le_mul_right _ hlow
  · rw [Nat.add_right_comm, Nat.pow_add]
    exact Nat.mul_lt_mul_of_pos_right hhigh (Nat.two_pow_pos k)

section Rounding

variable {code : Nat}

theorem scale_ge (code : Nat) : -1074 ≤ scale code := by
  unfold scale
  simp only [Nat.pow_eq]
  split <;> omega

/-- A code has the exponent that rounding aims at for its magnitude. -/
theorem targetExponent_eq (h : code ≠ 0) :
    Format.binary64.targetExponent (((significand code).log2 : Int) + 1 + scale code) =
      scale code := by
  have hF : code % 2 ^ 52 < 2 ^ 52 := Nat.mod_lt _ (by decide)
  have hsplit : code / 2 ^ 52 * 2 ^ 52 + code % 2 ^ 52 = code := by omega
  have hsignificand := significand_fields (code / 2 ^ 52) hF
  have hscale := scale_fields (code / 2 ^ 52) hF
  rw [hsplit] at hsignificand hscale
  show max (_ - 53) (-1074) = _
  split at hsignificand
  · rename_i hbottom
    have hlog : (code % 2 ^ 52).log2 < 52 := (Nat.log2_lt (by omega)).2 hF
    rw [hsignificand, hscale, if_pos hbottom]
    omega
  · rename_i hbottom
    have hne : 2 ^ 52 + code % 2 ^ 52 ≠ 0 := by omega
    have hlog : (2 ^ 52 + code % 2 ^ 52).log2 = 52 := (Nat.log2_eq_iff hne).2 (by omega)
    rw [hsignificand, hscale, if_neg hbottom, hlog]
    omega

/-- Shifting a multiple of a power of two by that power loses nothing. -/
theorem repeat_shiftRightOne (m d : Nat) :
    Nat.repeat ExtendedMantissa.shiftRightOne d ⟨m * 2 ^ d, false, false⟩ = ⟨m, false, false⟩ := by
  induction d generalizing m with
  | zero => rw [Nat.pow_zero, Nat.mul_one]; rfl
  | succ d ih =>
    have hpow : m * 2 ^ (d + 1) = m * 2 * 2 ^ d := by rw [Nat.pow_succ', Nat.mul_assoc]
    rw [Nat.repeat, hpow, ih]
    simp [ExtendedMantissa.shiftRightOne]

theorem shift_exact (h : code ≠ 0) (d : Nat) :
    shiftToTargetExponent .binary64 (significand code * 2 ^ d) (scale code - d) .exact =
      (⟨significand code, false, false⟩, scale code) := by
  have htarget := targetExponent_eq h
  have htotal : totalExponent (significand code * 2 ^ d) (scale code - d) =
      ((significand code).log2 : Int) + 1 + scale code := by
    rw [totalExponent, log2_mul_two_pow (significand_pos h).ne']
    omega
  have hshift : (scale code - (scale code - (d : Int))).toNat = d := by omega
  rw [shiftToTargetExponent, htotal, htarget, shiftToExponent]
  simp only [hshift]
  refine Prod.ext (repeat_shiftRightOne _ d) ?_
  show scale code - (d : Int) + (d : Int) = _
  omega

theorem roundWithAccuracy_exact (s : Sign) (h : code ≠ 0) (d : Nat) :
    roundWithAccuracy .binary64 s (significand code * 2 ^ d) (scale code - d) .exact =
      .finite s (significand code) (scale code) (significand_pos h) := by
  have hagain := shift_exact h 0
  rw [Nat.pow_zero, Nat.mul_one, Int.natCast_zero, Int.sub_zero] at hagain
  have hrounded : ExtendedMantissa.roundedMantissa ⟨significand code, false, false⟩ =
      significand code := rfl
  rw [roundWithAccuracy, shift_exact h d]
  simp only [hrounded, hagain]
  exact dif_neg (significand_pos h).ne'

/-- **A magnitude that is a double's is rounded to it**, whatever its exponent. -/
theorem round_exact (s : Sign) (h : code ≠ 0) {m : Nat} {e : Int} (he : -1074 ≤ e)
    (hm : m * 2 ^ (e + 1074).toNat = units code) :
    UnpackedFloat.round .binary64 s m e =
      .finite s (significand code) (scale code) (significand_pos h) := by
  have hscale := scale_ge code
  have hpositive := units_pos h
  have hne : m ≠ 0 := by
    rintro rfl
    rw [Nat.zero_mul] at hm
    omega
  have htotal : totalExponent m e = ((significand code).log2 : Int) + 1 + scale code := by
    have hlog := congrArg Nat.log2 hm
    rw [units, log2_mul_two_pow hne, log2_mul_two_pow (significand_pos h).ne'] at hlog
    rw [totalExponent]
    omega
  -- the pre-shift brings the exponent down to the target if it is above, and else leaves it
  have hdecreased : decreaseExponent m e (scale code) =
      (significand code * 2 ^ (scale code - e).toNat, scale code - (scale code - e).toNat) := by
    rw [decreaseExponent]
    refine Prod.ext ?_ ?_
    · show m <<< (e - scale code).toNat = _
      rw [Nat.shiftLeft_eq]
      refine Nat.eq_of_mul_eq_mul_right (Nat.two_pow_pos (min e (scale code) + 1074).toNat) ?_
      have hleft : (e - scale code).toNat + (min e (scale code) + 1074).toNat =
          (e + 1074).toNat := by omega
      have hright : (scale code - e).toNat + (min e (scale code) + 1074).toNat =
          (scale code + 1074).toNat := by omega
      rw [Nat.mul_assoc, Nat.mul_assoc, ← Nat.pow_add, ← Nat.pow_add, hleft, hright, hm, units]
    · show e - ((e - scale code).toNat : Int) = _
      omega
  rw [UnpackedFloat.round, htotal, targetExponent_eq h, hdecreased]
  exact roundWithAccuracy_exact s h _

/-- The same for a whole number with a sign. -/
theorem normalize_exact (negative : Bool) (h : code ≠ 0) {m e : Int} (he : -1074 ≤ e)
    (hm : m * 2 ^ (e + 1074).toNat = (sign negative).apply (units code)) (zeroSign : Sign) :
    UnpackedFloat.normalize .binary64 m e zeroSign =
      .finite (sign negative) (significand code) (scale code) (significand_pos h) := by
  have hpositive := units_pos h
  have hpow : (0 : Int) < 2 ^ (e + 1074).toNat := Int.pow_pos (by decide)
  cases negative with
  | false =>
    have hm' : m * 2 ^ (e + 1074).toNat = (units code : Int) := hm
    have hlt : 0 < m := by
      by_contra hnot
      have := Int.mul_nonpos_of_nonpos_of_nonneg (Int.not_lt.1 hnot) hpow.le
      omega
    have hcompare : compare m 0 = .gt := Int.compare_eq_gt.2 hlt
    have hround : m.toNat * 2 ^ (e + 1074).toNat = units code := by
      have hcast : ((m.toNat * 2 ^ (e + 1074).toNat : Nat) : Int) = units code := by
        rw [Int.natCast_mul, Int.toNat_of_nonneg hlt.le, Int.natCast_pow]
        exact hm'
      exact Int.ofNat_inj.1 hcast
    rw [UnpackedFloat.normalize, hcompare]
    exact round_exact _ h he hround
  | true =>
    have hm' : m * 2 ^ (e + 1074).toNat = -(units code : Int) := hm
    have hlt : m < 0 := by
      by_contra hnot
      have := Int.mul_nonneg (Int.not_lt.1 hnot) hpow.le
      omega
    have hcompare : compare m 0 = .lt := Int.compare_eq_lt.2 hlt
    have hround : (-m).toNat * 2 ^ (e + 1074).toNat = units code := by
      have hcast : (((-m).toNat * 2 ^ (e + 1074).toNat : Nat) : Int) = units code := by
        rw [Int.natCast_mul, Int.toNat_of_nonneg (by omega), Int.natCast_pow]
        show -m * 2 ^ (e + 1074).toNat = _
        rw [Int.neg_mul, hm', Int.neg_neg]
      exact Int.ofNat_inj.1 hcast
    rw [UnpackedFloat.normalize, hcompare]
    exact round_exact _ h he hround

end Rounding

/-! ## 3. Arithmetic -/

theorem isFinite_iff {x : Float} : isFinite x = true ↔ code x < infinityCode := decide_eq_true_iff

theorem add_packed (x y : Float) :
    x + y = packed (UnpackedFloat.add .binary64 (unpacked (negative x) (code x))
      (unpacked (negative y) (code y))) := by
  rw [← unpack_eq, ← unpack_eq]
  rfl

/-- A finite double is what its own form packs to. -/
theorem packed_fields {x : Float} (hx : isFinite x = true) :
    packed (unpacked (negative x) (code x)) = x := by
  rw [packed_unpacked _ (isFinite_iff.1 hx), ofCode_fields (isFinite_iff.1 hx)]

/-- The significand of a double with its sign, brought down to a smaller exponent. -/
def aligned (x : Float) (e : Int) : Int :=
  (sign (negative x)).apply (decreaseExponent (significand (code x)) (scale (code x)) e).1

theorem aligned_units (x : Float) {e : Int} (he : -1074 ≤ e) (hle : e ≤ scale (code x)) :
    aligned x e * 2 ^ (e + 1074).toNat = inUnits x := by
  have hpow : (scale (code x) - e).toNat + (e + 1074).toNat = (scale (code x) + 1074).toNat := by
    omega
  have hunits : ((decreaseExponent (significand (code x)) (scale (code x)) e).1 : Int) *
      2 ^ (e + 1074).toNat = units (code x) := by
    show ((significand (code x) <<< (scale (code x) - e).toNat : Nat) : Int) * _ = _
    rw [Nat.shiftLeft_eq, units, ← hpow, Nat.pow_add, ← Nat.mul_assoc]
    push_cast
    rfl
  rw [aligned, inUnits_eq, apply_sign]
  split
  · rw [Int.neg_mul, hunits]
  · exact hunits

variable {x y z : Float}

/-- The sum of two doubles other than zero, before it is packed. -/
theorem add_eq_normalize (hx : isFinite x = true) (hy : isFinite y = true) (hx0 : code x ≠ 0)
    (hy0 : code y ≠ 0) :
    ∃ m e : Int, -1074 ≤ e ∧ m * 2 ^ (e + 1074).toNat = inUnits x + inUnits y ∧
      x + y = packed (UnpackedFloat.normalize .binary64 m e .positive) := by
  have hex := scale_ge (code x)
  have hey := scale_ge (code y)
  let e := min (scale (code x)) (scale (code y))
  have he : -1074 ≤ e := by omega
  refine ⟨aligned x e + aligned y e, e, he, ?_, ?_⟩
  · rw [Int.add_mul, aligned_units x he (Int.min_le_left _ _),
      aligned_units y he (Int.min_le_right _ _)]
  · rw [add_packed, unpacked_finite _ hx0 (isFinite_iff.1 hx),
      unpacked_finite _ hy0 (isFinite_iff.1 hy)]
    rfl

/-- **A sum that is the count of a double is that double.** -/
theorem add_eq (hx : isFinite x = true) (hy : isFinite y = true) (hz : isFinite z = true)
    (hz0 : code z ≠ 0) (h : inUnits x + inUnits y = inUnits z) : x + y = z := by
  by_cases hx0 : code x = 0
  · have hyz : inUnits z = inUnits y := by rw [← h, inUnits_eq_zero_iff.2 hx0, Int.zero_add]
    obtain rfl := eq_of_inUnits hz0 hyz
    rw [add_packed, hx0, unpacked_zero, unpacked_finite _ hz0 (isFinite_iff.1 hz)]
    show packed (.finite _ _ _ _) = _
    rw [← unpacked_finite _ hz0 (isFinite_iff.1 hz), packed_fields hz]
  by_cases hy0 : code y = 0
  · have hxz : inUnits z = inUnits x := by rw [← h, inUnits_eq_zero_iff.2 hy0, Int.add_zero]
    obtain rfl := eq_of_inUnits hz0 hxz
    rw [add_packed, hy0, unpacked_zero, unpacked_finite _ hz0 (isFinite_iff.1 hz)]
    show packed (.finite _ _ _ _) = _
    rw [← unpacked_finite _ hz0 (isFinite_iff.1 hz), packed_fields hz]
  obtain ⟨m, e, he, hm, hsum⟩ := add_eq_normalize hx hy hx0 hy0
  rw [hsum, normalize_exact _ hz0 he (hm.trans h), ← unpacked_finite _ hz0 (isFinite_iff.1 hz),
    packed_fields hz]

/-- **A sum whose count is zero is zero**, and positive unless both operands are negative. -/
theorem add_eq_zero (hx : isFinite x = true) (hy : isFinite y = true)
    (h : inUnits x + inUnits y = 0) : x + y = ofCode (negative x && negative y) 0 := by
  have hzero (negative : Bool) : packed (.zero (sign negative)) = ofCode negative 0 :=
    packed_unpacked negative (by decide : 0 < infinityCode)
  by_cases hx0 : code x = 0
  · have hy0 : code y = 0 := by
      rw [inUnits_eq_zero_iff.2 hx0, Int.zero_add] at h
      exact inUnits_eq_zero_iff.1 h
    rw [add_packed, hx0, hy0, unpacked_zero, unpacked_zero, ← hzero]
    cases negative x <;> cases negative y <;> rfl
  · have hy0 : code y ≠ 0 := by
      intro hy0
      rw [inUnits_eq_zero_iff.2 hy0, Int.add_zero] at h
      exact hx0 (inUnits_eq_zero_iff.1 h)
    have hsign : (negative x && negative y) = false := by
      refine Bool.eq_false_iff.2 fun hboth => ?_
      obtain ⟨hnx, hny⟩ := Bool.and_eq_true_iff.1 hboth
      have hunits := units_pos hx0
      rw [inUnits_eq, inUnits_eq, hnx, hny, if_pos rfl, if_pos rfl] at h
      omega
    obtain ⟨m, e, -, hm, hsum⟩ := add_eq_normalize hx hy hx0 hy0
    have hm0 : m = 0 := by
      rw [h] at hm
      exact (Int.mul_eq_zero.1 hm).resolve_right (Int.pow_pos (by decide)).ne'
    rw [hsum, hm0, hsign, ← hzero]
    rfl

/-! ### Negation and subtraction -/

theorem unpacked_neg (negative : Bool) (code : Nat) :
    (unpacked negative code).neg = unpacked (!negative) code := by
  unfold unpacked
  split
  · cases negative <;> rfl
  · split
    · cases negative <;> rfl
    · split
      · cases negative <;> rfl
      · rfl

/-- **Negation turns the sign of a finite double.** -/
theorem neg_eq (hx : isFinite x = true) : -x = ofCode (!negative x) (code x) := by
  rw [← packed_unpacked _ (isFinite_iff.1 hx), ← unpacked_neg, ← unpack_eq]
  rfl

theorem isFinite_neg (hx : isFinite x = true) : isFinite (-x) = true := by
  rw [neg_eq hx, isFinite_iff, code_ofCode _ (isFinite_iff.1 hx)]
  exact isFinite_iff.1 hx

theorem inUnits_neg (hx : isFinite x = true) : inUnits (-x) = -inUnits x := by
  rw [inUnits_eq, inUnits_eq, neg_eq hx, code_ofCode _ (isFinite_iff.1 hx),
    negative_ofCode _ (isFinite_iff.1 hx)]
  cases negative x <;> simp

theorem sub_packed (a b : UnpackedFloat) :
    UnpackedFloat.sub .binary64 a b = UnpackedFloat.add .binary64 a b.neg := by
  have happly (s : Sign) (n : Int) : (-s).apply n = -s.apply n := by
    cases s
    · exact (Int.neg_neg n).symm
    · rfl
  cases a <;> cases b <;> simp [UnpackedFloat.sub, UnpackedFloat.add, UnpackedFloat.neg, happly,
    Int.sub_eq_add_neg]

/-- **A difference is the sum with the negated second operand.** -/
theorem sub_eq_add_neg (x : Float) (hy : isFinite y = true) : x - y = x + -y := by
  have hneg : (-y).toModel.unpack = y.toModel.unpack.neg := by
    rw [unpack_eq, unpack_eq, unpacked_neg, neg_eq hy, code_ofCode _ (isFinite_iff.1 hy),
      negative_ofCode _ (isFinite_iff.1 hy)]
  show packed (UnpackedFloat.sub .binary64 x.toModel.unpack y.toModel.unpack) =
    packed (UnpackedFloat.add .binary64 x.toModel.unpack (-y).toModel.unpack)
  rw [hneg, sub_packed]

end Formula.Double
