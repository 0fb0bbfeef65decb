import Formula.Decimal
import Formula.Proofs.Double.Nearest

/-!
# The shortest decimal reads back

The search for the shortest decimal compares the code of every candidate with the code that is wanted, so
a hit reads back by its test. What needs an argument is the answer without a hit, the exact expansion: its
value is the magnitude of the code and not only near to it, and a decimal with the value of a double is
read as that double (`code_of_exact`).

`reads_shortest` puts the two together.
-/

namespace Formula.Decimal

open Double (one units infinityCode)

variable {c : Nat} {d : Decimal}

/-- The decimal is in positional form and is read as the double with the code. -/
structure Reads (c : Nat) (d : Decimal) : Prop where
  code : d.code = c
  exponent : d.exponent ≤ 0

/-! ## 1. Dropping zeros -/

/-- A positional decimal is its digits over a power of ten. -/
theorem numerator_of_nonpos (h : d.exponent ≤ 0) : d.numerator = d.digits := by
  have hzero : d.exponent.toNat = 0 := by omega
  rw [numerator, hzero]
  exact Nat.mul_one _

theorem exponent_dropZeros (digits places : Nat) : (dropZeros digits places).exponent ≤ 0 := by
  fun_induction dropZeros digits places with
  | case1 => exact Int.le_refl 0
  | case2 digits places hzero ih => exact ih
  | case3 digits places hdigit =>
    show -((places + 1 : Nat) : Int) ≤ 0
    omega

/-- **Dropped zeros do not change the value.** -/
theorem dropZeros_value (digits places : Nat) :
    (dropZeros digits places).digits * 10 ^ places =
      digits * (dropZeros digits places).denominator := by
  fun_induction dropZeros digits places with
  | case1 => rfl
  | case2 digits places hzero ih =>
    have hten : digits = digits / 10 * 10 := (Nat.div_mul_cancel (Nat.dvd_of_mod_eq_zero hzero)).symm
    rw [Nat.pow_succ, ← Nat.mul_assoc, ih, Nat.mul_right_comm, ← hten]
  | case3 digits places hdigit =>
    have hplaces : (- -((places + 1 : Nat) : Int)).toNat = places + 1 := by omega
    rw [denominator, hplaces]
    rfl

/-! ## 2. Exact decimals -/

/-- A decimal with the value of a double other than zero is not so small that it is taken for zero. Where
    it has many places, it has digits to make up for them. -/
theorem exponent_add_log2 (h : d.digits * one = units c * d.denominator) (hdigits : d.digits ≠ 0) :
    -400 ≤ d.exponent + d.digits.log2 := by
  have hunits : 1 ≤ units c := by
    rw [Nat.one_le_iff_ne_zero]
    intro hzero
    rw [hzero, Nat.zero_mul] at h
    exact Nat.mul_ne_zero hdigits Double.one_pos.ne' h
  have hbits : 3 * (-d.exponent).toNat < d.digits.log2 + 1 + Double.places := by
    -- ten is more than eight, so each place takes three bits away
    rw [← Nat.pow_lt_pow_iff_right (a := 2) (by decide), Nat.pow_mul, Nat.pow_add]
    calc (2 ^ 3) ^ (-d.exponent).toNat ≤ 10 ^ (-d.exponent).toNat :=
          Nat.pow_le_pow_left (by decide) _
      _ ≤ units c * d.denominator := Nat.le_mul_of_pos_left _ hunits
      _ = d.digits * one := h.symm
      _ < 2 ^ (d.digits.log2 + 1) * 2 ^ Double.places :=
        Nat.mul_lt_mul_of_pos_right Nat.lt_log2_self Double.one_pos
  have hplaces : Double.places = 1074 := rfl
  omega

/-- **A decimal whose value is that of a double is read as that double.** -/
theorem code_of_exact (hc : c < infinityCode) (he : d.exponent ≤ 0)
    (h : d.digits * one = units c * d.denominator) : d.code = c := by
  rw [code]
  split
  · rename_i hzero
    rw [hzero, Nat.zero_mul, eq_comm, Nat.mul_eq_zero, Double.units_eq_zero_iff] at h
    exact (h.resolve_right d.denominator_pos.ne').symm
  · rename_i hdigits
    have hsmall := exponent_add_log2 h hdigits
    rw [if_neg (by omega), if_neg (by omega), numerator_of_nonpos he]
    exact Double.nearestCode_units hdigits d.denominator_pos h hc rfl

/-- A half is five tenths, so the expansion has the magnitude of the code. -/
theorem reads_exact (hc : c < infinityCode) : Reads c (exact c) := by
  have he : (exact c).exponent ≤ 0 := exponent_dropZeros _ _
  refine ⟨code_of_exact hc he ?_, he⟩
  let p := (-Double.scale c).toNat
  have hvalue : (exact c).digits * 10 ^ p =
      Double.numerator c * 5 ^ p * (exact c).denominator := dropZeros_value _ _
  have hten : 10 ^ p = 5 ^ p * Double.denominator c := Nat.mul_pow 5 2 p
  refine Nat.eq_of_mul_eq_mul_right (Nat.pow_pos (n := p) (by decide : 0 < 10)) ?_
  calc (exact c).digits * one * 10 ^ p
      = (exact c).digits * 10 ^ p * one := Nat.mul_right_comm _ _ _
    _ = Double.numerator c * 5 ^ p * (exact c).denominator * one := by rw [hvalue]
    _ = Double.numerator c * one * 5 ^ p * (exact c).denominator := by
      rw [Nat.mul_right_comm, Nat.mul_right_comm _ _ one]
    _ = units c * Double.denominator c * 5 ^ p * (exact c).denominator := by
      rw [Double.numerator_mul_one]
    _ = units c * (exact c).denominator * 10 ^ p := by
      rw [hten]
      ring

/-! ## 3. The search -/

/-- A hit on a grid has passed its test. -/
theorem reads_onGrid {digits : Nat} (h : onGrid c digits = some d) : Reads c d := by
  have hpositional {e : Decimal} (htest : decide (e.positional.code = c) = true) :
      Reads c e.positional := ⟨of_decide_eq_true htest, exponent_dropZeros _ _⟩
  simp only [onGrid] at h
  split at h
  · rename_i hlow hhigh
    cases h
    split
    · exact hpositional hlow
    · exact hpositional hhigh
  · rename_i hlow _
    cases h
    exact hpositional hlow
  · rename_i _ hhigh
    cases h
    exact hpositional hhigh
  · cases h

theorem reads_search {digits tries : Nat} (h : search c digits tries = some d) : Reads c d := by
  induction tries generalizing digits with
  | zero => cases h
  | succ tries ih =>
    rw [search] at h
    split at h
    · rename_i hgrid
      cases h
      exact reads_onGrid hgrid
    · exact ih h

/-- **The shortest decimal of a finite code is read as that code.** -/
theorem reads_shortest (hc : c < infinityCode) : Reads c (shortest c) := by
  unfold shortest
  split
  · rename_i hzero
    rw [hzero]
    exact ⟨rfl, Int.le_refl 0⟩
  · cases hsearch : search c 1 17 with
    | none => exact reads_exact hc
    | some d => exact reads_search hsearch

end Formula.Decimal
