import Formula.Double
import Mathlib

/-!
# The unpacked form of a double

Arithmetic on doubles unpacks its operands into a sign, a significand and an exponent, computes with
those, and packs what comes out. Here the unpacked form is read off the two fields of a double, its
sign and its code, so that a fact on codes becomes a fact on arithmetic.

* `unpacked negative code` is that form, and `unpack_eq` says that every double unpacks to it.
* `packed_unpacked`: packing the form of two fields gives the double of these.
* `eq_of_fields`: a double is determined by its two fields, and `ofCode_fields` puts it together.
-/

namespace Formula.Double

open Float.Model Float.Model.UnpackedFloat

/-! ## 1. Codes by their bit fields -/

theorem significand_fields (exponent : Nat) {fraction : Nat} (h : fraction < 2 ^ 52) :
    significand (exponent * 2 ^ 52 + fraction) =
      if exponent = 0 then fraction else 2 ^ 52 + fraction := by
  unfold significand
  simp only [Nat.pow_eq]
  split <;> split <;> omega

theorem scale_fields (exponent : Nat) {fraction : Nat} (h : fraction < 2 ^ 52) :
    scale (exponent * 2 ^ 52 + fraction) =
      if exponent = 0 then -1074 else (exponent : Int) - 1075 := by
  unfold scale
  simp only [Nat.pow_eq]
  split <;> split <;> omega

theorem significand_pos {code : Nat} (h : code ≠ 0) : 0 < significand code := by
  unfold significand
  simp only [Nat.pow_eq]
  split <;> omega

/-- The sign of a sign bit. -/
def sign (negative : Bool) : Sign := if negative then .negative else .positive

/-- The unpacked form of the double with a given sign and code. -/
def unpacked (negative : Bool) (code : Nat) : UnpackedFloat :=
  if h : code = 0 then .zero (sign negative)
  else if code < infinityCode then
    .finite (sign negative) (significand code) (scale code) (significand_pos h)
  else if code = infinityCode then .infinity (sign negative)
  else .notANumber

theorem unpacked_zero (negative : Bool) : unpacked negative 0 = .zero (sign negative) := rfl

theorem unpacked_finite (negative : Bool) {code : Nat} (hzero : code ≠ 0)
    (h : code < infinityCode) :
    unpacked negative code =
      .finite (sign negative) (significand code) (scale code) (significand_pos hzero) := by
  rw [unpacked, dif_neg hzero, if_pos h]

/-! ## 2. Unpacking -/

theorem toNat_unpackMantissa (b : BitVec 64) :
    (@unpackMantissa .binary64 b).toNat = b.toNat % 2 ^ 52 := by
  simp [unpackMantissa, BitVec.extractLsb_toNat]

theorem toNat_unpackExponent (b : BitVec 64) :
    (@unpackExponent .binary64 b).toNat = b.toNat / 2 ^ 52 % 2 ^ 11 := by
  simp [unpackExponent, BitVec.extractLsb_toNat, Nat.shiftRight_eq_div_pow]

theorem ofBitVec_unpackSign (b : BitVec 64) :
    Sign.ofBitVec (@unpackSign .binary64 b) = sign (decide (2 ^ 63 ≤ b.toNat)) := by
  have hlt := b.isLt
  have hsign : (@unpackSign .binary64 b).toNat = b.toNat / 2 ^ 63 % 2 := by
    simp [unpackSign, BitVec.extractLsb_toNat, Nat.shiftRight_eq_div_pow]
  unfold Sign.ofBitVec sign
  by_cases h : 2 ^ 63 ≤ b.toNat
  · have hone : @unpackSign .binary64 b ≠ 0#1 := by
      intro hzero
      rw [hzero, BitVec.toNat_zero] at hsign
      omega
    rw [if_neg hone, decide_eq_true h, if_pos rfl]
  · have hzero : @unpackSign .binary64 b = 0#1 := by
      apply BitVec.eq_of_toNat_eq
      rw [hsign, BitVec.toNat_zero]
      omega
    rw [if_pos hzero, decide_eq_false h, if_neg Bool.false_ne_true]

/-- **What a word of bits unpacks to.** -/
theorem unpack_bits (b : BitVec 64) :
    UnpackedFloat.unpack .binary64 b =
      unpacked (decide (2 ^ 63 ≤ b.toNat)) (b.toNat % 2 ^ 63) := by
  have hfraction := toNat_unpackMantissa b
  have hexponent := toNat_unpackExponent b
  have hones : @unpackExponent .binary64 b = -1#11 ↔ b.toNat / 2 ^ 52 % 2 ^ 11 = 2047 := by
    rw [← hexponent, ← BitVec.toNat_inj]
    rfl
  have hzeros : @unpackExponent .binary64 b = 0#11 ↔ b.toNat / 2 ^ 52 % 2 ^ 11 = 0 := by
    rw [← hexponent, ← BitVec.toNat_inj]
    rfl
  have hnone : @unpackMantissa .binary64 b = 0#52 ↔ b.toNat % 2 ^ 52 = 0 := by
    rw [← hfraction, ← BitVec.toNat_inj]
    rfl
  have himplicit : (1#1 ++ @unpackMantissa .binary64 b).toNat =
      2 ^ 52 + b.toNat % 2 ^ 52 := by
    rw [BitVec.toNat_append, ← Nat.shiftLeft_add_eq_or_of_lt (BitVec.isLt _), hfraction]
    rfl
  have hbias : ((Format.binary64.exponentBias : Nat) : Int) = 1023 := rfl
  have hinfinity : infinityCode = 2047 * 2 ^ 52 := rfl
  have hcode : b.toNat % 2 ^ 63 = b.toNat / 2 ^ 52 % 2 ^ 11 * 2 ^ 52 + b.toNat % 2 ^ 52 := by omega
  have hE : b.toNat / 2 ^ 52 % 2 ^ 11 < 2 ^ 11 := Nat.mod_lt _ (by decide)
  have hF : b.toNat % 2 ^ 52 < 2 ^ 52 := Nat.mod_lt _ (by decide)
  rw [UnpackedFloat.unpack, ofBitVec_unpackSign, hcode]
  generalize b.toNat / 2 ^ 52 % 2 ^ 11 = E at *
  generalize b.toNat % 2 ^ 52 = F at *
  have hsignificand := significand_fields E hF
  have hscale := scale_fields E hF
  -- the exponent field tells infinity, the small numbers and the others apart
  by_cases htop : E = 2047
  · have hzero : ¬E * 2 ^ 52 + F = 0 := by omega
    have hfinite : ¬E * 2 ^ 52 + F < infinityCode := by omega
    rw [if_pos (hones.2 htop), unpacked, dif_neg hzero, if_neg hfinite]
    by_cases hnone' : F = 0
    · have heq : E * 2 ^ 52 + F = infinityCode := by omega
      rw [if_pos (hnone.2 hnone'), if_pos heq]
    · have hne : ¬E * 2 ^ 52 + F = infinityCode := by omega
      rw [if_neg (mt hnone.1 hnone'), if_neg hne]
  · have hfinite : E * 2 ^ 52 + F < infinityCode := by omega
    rw [if_neg (mt hones.1 htop)]
    by_cases hbottom : E = 0
    · rw [if_pos (hzeros.2 hbottom)]
      by_cases hnone' : F = 0
      · have hzero : E * 2 ^ 52 + F = 0 := by omega
        rw [dif_pos (hnone.2 hnone'), hzero, unpacked_zero]
      · have hzero : ¬E * 2 ^ 52 + F = 0 := by omega
        rw [if_pos hbottom] at hsignificand hscale
        rw [dif_neg (mt hnone.1 hnone'), unpacked_finite _ hzero hfinite]
        simp only [finite.injEq, true_and, hsignificand, hscale, hfraction, hexponent, hbias]
        omega
    · have hzero : ¬E * 2 ^ 52 + F = 0 := by omega
      rw [if_neg hbottom] at hsignificand hscale
      rw [if_neg (mt hzeros.1 hbottom), unpacked_finite _ hzero hfinite]
      simp only [finite.injEq, true_and, hsignificand, hscale, himplicit, hexponent, hbias]
      omega

/-- **A double unpacks to the form of its two fields.** -/
theorem unpack_eq (x : Float) : x.toModel.unpack = unpacked (negative x) (code x) :=
  unpack_bits x.toBits.toBitVec

/-! ## 3. Packing -/

/-- The double that an unpacked form packs to. -/
def packed (form : UnpackedFloat) : Float := .ofModel (Float.Model.pack form)

/-- The word of a sign and a code. -/
def word (negative : Bool) (code : Nat) : BitVec 64 :=
  (UInt64.ofNat ((if negative then 2 ^ 63 else 0) + code)).toBitVec

section Word

variable (negative : Bool) {code : Nat} (h : code < infinityCode)

include h

theorem toNat_word : (word negative code).toNat = (if negative then 2 ^ 63 else 0) + code := by
  have hinfinity : infinityCode = 2047 * 2 ^ 52 := rfl
  refine UInt64.toNat_ofNat_of_lt' ?_
  show _ < 2 ^ 64
  split <;> omega

theorem code_word : (word negative code).toNat % 2 ^ 63 = code := by
  have hinfinity : infinityCode = 2047 * 2 ^ 52 := rfl
  rw [toNat_word negative h]
  split <;> omega

theorem negative_word : decide (2 ^ 63 ≤ (word negative code).toNat) = negative := by
  have hinfinity : infinityCode = 2047 * 2 ^ 52 := rfl
  rw [toNat_word negative h]
  cases negative with
  | false => exact decide_eq_false (by rw [if_neg Bool.false_ne_true]; omega)
  | true => exact decide_eq_true (by rw [if_pos rfl]; omega)

theorem not_isNaNBits_word : ¬@isNaNBits .binary64 (word negative code) = true := by
  have hinfinity : infinityCode = 2047 * 2 ^ 52 := rfl
  intro hnan
  obtain ⟨hones, -⟩ := of_decide_eq_true hnan
  have hexponent : (@unpackExponent .binary64 (word negative code)).toNat = 2047 := by
    rw [hones]
    rfl
  rw [toNat_unpackExponent, toNat_word negative h] at hexponent
  split at hexponent <;> omega

/-- **Packing the form of a sign and a code gives the double of the two.** -/
theorem packed_unpacked : packed (unpacked negative code) = ofCode negative code := by
  have hunpack := unpack_bits (word negative code)
  rw [negative_word negative h, code_word negative h] at hunpack
  rw [← hunpack]
  rfl

theorem toNat_toBits_ofCode :
    (ofCode negative code).toBits.toNat = (word negative code).toNat := by
  have hpack := @pack_unpack .binary64 (word negative code) (by decide)
  rw [if_neg (not_isNaNBits_word negative h)] at hpack
  exact congrArg BitVec.toNat hpack

theorem code_ofCode : Double.code (ofCode negative code) = code := by
  rw [Double.code, toNat_toBits_ofCode negative h]
  exact code_word negative h

theorem negative_ofCode : Double.negative (ofCode negative code) = negative := by
  rw [Double.negative, toNat_toBits_ofCode negative h]
  exact negative_word negative h

end Word

/-! ## 4. A double and its fields -/

/-- **A double is determined by its sign and its code.** -/
theorem eq_of_fields {x y : Float} (hnegative : negative x = negative y) (hcode : code x = code y) :
    x = y := by
  have hx : x.toBits.toNat < 2 ^ 64 := x.toBits.toBitVec.isLt
  have hy : y.toBits.toNat < 2 ^ 64 := y.toBits.toBitVec.isLt
  have hsign : 2 ^ 63 ≤ x.toBits.toNat ↔ 2 ^ 63 ≤ y.toBits.toNat := decide_eq_decide.1 hnegative
  have hrest : x.toBits.toNat % 2 ^ 63 = y.toBits.toNat % 2 ^ 63 := hcode
  exact Float.toBits_inj.1 (UInt64.toNat_inj.1 (by omega))

/-- **A finite double is put together from its fields.** -/
theorem ofCode_fields {x : Float} (h : code x < infinityCode) : ofCode (negative x) (code x) = x :=
  eq_of_fields (negative_ofCode _ h) (code_ofCode _ h)

end Formula.Double
