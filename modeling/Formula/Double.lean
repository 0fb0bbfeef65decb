/-!
# Doubles

A double is a sign and a magnitude code: the 63 bits below the sign, read as one number. Codes below
`infinityCode` are the finite magnitudes in increasing order, `infinityCode` itself is infinity, and
the codes above it are not numbers. This file fixes that reading and computes with it:

* `negative`, `code` and `ofCode` take a double apart and put it together;
* `isFinite`, `isNaN` and `isZero` tell the kinds of doubles apart, and `order` compares doubles that
  are numbers;
* `significand` and `scale` give the magnitude of a finite code, which is
  `significand c * 2 ^ scale c`;
* `nearestCode n d` is the code of the double nearest to `n / d`;
* `truncate`, `floor`, `ceiling` and `round` go to whole numbers, `remainder` divides, `larger` and
  `smaller` choose, and `cubeRoot` takes cube roots.

Printing and reading of doubles are stated on codes as well. Everything is exact integer arithmetic.
-/

namespace Formula.Double

/-! ## 1. Sign and code -/

/-- The code of infinity: every exponent bit set and no other. -/
def infinityCode : Nat := 2047 * Nat.pow 2 52

/-- Whether the sign bit is set. It is set for `-0` as well. -/
def negative (x : Float) : Bool := decide (Nat.pow 2 63 ≤ x.toBits.toNat)

/-- The bits below the sign, as a number. -/
def code (x : Float) : Nat := x.toBits.toNat % Nat.pow 2 63

/-- The double with the given sign and magnitude code. -/
def ofCode (negative : Bool) (code : Nat) : Float :=
  Float.ofBits (UInt64.ofNat ((if negative then Nat.pow 2 63 else 0) + code))

/-- Positive infinity. -/
def infinity : Float := ofCode false infinityCode

/-- The one value that is not a number. -/
def notANumber : Float := ofCode false (infinityCode + Nat.pow 2 51)

/-! ## 2. Kinds and order -/

/-- Whether a double is a number other than the infinities. -/
def isFinite (x : Float) : Bool := decide (code x < infinityCode)

/-- Whether a double is an infinity. -/
def isInfinite (x : Float) : Bool := code x == infinityCode

/-- Whether a double is not a number. -/
def isNaN (x : Float) : Bool := decide (infinityCode < code x)

/-- Whether a double is zero, of either sign. -/
def isZero (x : Float) : Bool := code x == 0

/-- The place of a double that is a number in the order of all of them. Both zeros have one place, and
    the larger of two doubles has the larger place. -/
def order (x : Float) : Int := if negative x then -(code x : Int) else code x

/-! ## 3. The magnitude of a code -/

/-- The integer that a code scales. The lowest two binades share one spacing, so below `2 ^ 53` the
    code is the significand itself. -/
def significand (code : Nat) : Nat :=
  if code < Nat.pow 2 53 then code else Nat.pow 2 52 + code % Nat.pow 2 52

/-- The power of two by which a code scales its significand. -/
def scale (code : Nat) : Int :=
  if code < Nat.pow 2 53 then -1074 else (code / Nat.pow 2 52 : Nat) - 1075

/-- Numerator of the magnitude of a code, over `denominator`. -/
def numerator (code : Nat) : Nat := significand code * Nat.pow 2 (scale code).toNat

/-- Denominator of the magnitude of a code: a power of two. -/
def denominator (code : Nat) : Nat := Nat.pow 2 (-scale code).toNat

theorem denominator_pos (code : Nat) : 0 < denominator code := Nat.two_pow_pos _

theorem significand_of_lt {code : Nat} (h : code < Nat.pow 2 53) : significand code = code :=
  if_pos h

theorem scale_of_lt {code : Nat} (h : code < Nat.pow 2 53) : scale code = -1074 :=
  if_pos h

/-! ## 4. The double nearest to a ratio

Of two doubles equally near to `n / d` the nearest one is that with the even significand, and past the
largest finite double it is infinity.

* `roundHalfEven` rounds a ratio to an integer, and `topBit` finds the binade of a ratio.
* `nearestCode` rounds at the spacing of that binade. A significand that rounds up to the next power of
  two needs no special case, because codes of neighbouring binades are consecutive. -/

/-- The integer nearest to `n / d`, the even one if two are equally near. -/
def roundHalfEven (n d : Nat) : Nat :=
  let q := n / d
  if 2 * (n % d) < d then q
  else if d < 2 * (n % d) then q + 1
  else q + q % 2

/-- `n / d` divided by `2 ^ k`, as a numerator and a denominator. -/
def unscale (n d : Nat) (k : Int) : Nat × Nat :=
  (n * Nat.pow 2 (-k).toNat, d * Nat.pow 2 k.toNat)

/-- The exponent of the highest power of two that is at most `n / d`, for a positive ratio. It is
    read off a quotient that is known to have 53 or 54 bits. -/
def topBit (n d : Nat) : Int :=
  let k : Int := (n.log2 : Int) - d.log2 - 53
  let r := unscale n d k
  k + (r.1 / r.2).log2

/-- The code of the double nearest to `n / d`. -/
def nearestCode (n d : Nat) : Nat :=
  if n = 0 then 0
  else
    let k := max (-1074) (topBit n d - 52)
    let r := unscale n d k
    min infinityCode ((k + 1074).toNat * Nat.pow 2 52 + roundHalfEven r.1 r.2)

theorem nearestCode_zero (d : Nat) : nearestCode 0 d = 0 := rfl

theorem nearestCode_le (n d : Nat) : nearestCode n d ≤ infinityCode := by
  unfold nearestCode
  split
  · exact Nat.zero_le _
  · exact Nat.min_le_left ..

/-- The double nearest to a natural number. -/
def ofNat (n : Nat) : Float := ofCode false (nearestCode n 1)

/-! ## 5. Whole numbers

A magnitude is its whole part and a part below one, `wholePart c + belowOne c / denominator c`. The four
roundings look at these two and at the sign, and they all keep the sign, so a small negative number
rounds to `-0`. A double without a part below one, which every double from `2 ^ 52` on is, rounds to
itself; so do infinities and values that are not numbers. -/

/-- The magnitude of a code, rounded down to a natural number. -/
def wholePart (code : Nat) : Nat := numerator code / denominator code

/-- What `wholePart` leaves of the numerator. -/
def belowOne (code : Nat) : Nat := numerator code % denominator code

/-- The double `± n`. -/
def signed (negative : Bool) (n : Nat) : Float := ofCode negative (nearestCode n 1)

/-- Rounds `x` to its whole part, or to the next whole number away from zero where `away` says so
    of the sign and the code. -/
def roundWhere (away : Bool → Nat → Bool) (x : Float) : Float :=
  let c := code x
  if !isFinite x || belowOne c == 0 then x
  else signed (negative x) (wholePart c + if away (negative x) c then 1 else 0)

/-- Rounds toward zero. -/
def truncate (x : Float) : Float := roundWhere (fun _ _ => false) x

/-- Rounds down. -/
def floor (x : Float) : Float := roundWhere (fun negative _ => negative) x

/-- Rounds up. -/
def ceiling (x : Float) : Float := roundWhere (fun negative _ => !negative) x

/-- Rounds to the nearest whole number, a half away from zero. -/
def round (x : Float) : Float :=
  roundWhere (fun _ c => decide (denominator c ≤ 2 * belowOne c)) x

/-! ## 6. Remainder

`remainder x y` is `x` less the multiple of `y` that leaves the sign of `x` and a magnitude below that
of `y`. It is exact: both magnitudes are whole multiples of one power of two, and so is what is left. -/

/-- What is left of magnitude `a` after taking away magnitude `b` as often as possible, for finite
    codes with `b` not zero. -/
def remainderCode (a b : Nat) : Nat :=
  let d := denominator a * denominator b
  nearestCode ((numerator a * denominator b) % (numerator b * denominator a)) d

/-- The remainder of a division that rounds toward zero. -/
def remainder (x y : Float) : Float :=
  if isNaN x || isNaN y || isInfinite x || isZero y then notANumber
  else if isInfinite y then x
  else ofCode (negative x) (remainderCode (code x) (code y))

/-! ## 7. Choice

`larger` and `smaller` choose one of two doubles; a value that is not a number is chosen only when both
are, and of equal ones the first is kept. -/

/-- The larger of two doubles. -/
def larger (x y : Float) : Float :=
  if isNaN x then y else if isNaN y then x else if order x < order y then y else x

/-- The smaller of two doubles. -/
def smaller (x y : Float) : Float :=
  if isNaN x then y else if isNaN y then x else if order y < order x then y else x

/-! ## 8. Cube roots

`cubeRoot x` is the double nearest to the cube root of `x`. The root of a double is far from the ends of
the range, so its spacing is that of its binade: if the highest power of two in `x` is `2 ^ e`, then
that in the root is `2 ^ (e / 3)`. The significand is an integer cube root, and whether to go one up is
decided by the cube of the midpoint. -/

/-- Sets the bits below bit `bits` of a root, each if the cube stays within `n`. -/
def cubeRootBits (n : Nat) : (bits root : Nat) → Nat
  | 0, root => root
  | bits + 1, root =>
    let raised := root + Nat.pow 2 bits
    cubeRootBits n bits (if raised.pow 3 ≤ n then raised else root)

/-- The largest number whose cube is at most `n`. -/
def floorCubeRoot (n : Nat) : Nat := cubeRootBits n (n.log2 / 3 + 1) 0

/-- The code of the double nearest to the cube root of a positive finite code. No root of a double
    lies halfway between two doubles. -/
def cubeRootCode (code : Nat) : Nat :=
  let k := topBit (numerator code) (denominator code) / 3 - 52
  let r := unscale (numerator code) (denominator code) (3 * k)
  let q := floorCubeRoot (r.1 / r.2)
  (k + 1074).toNat * Nat.pow 2 52 + if 8 * r.1 < Nat.pow (2 * q + 1) 3 * r.2 then q else q + 1

/-- The cube root. -/
def cubeRoot (x : Float) : Float :=
  if isZero x || !isFinite x then x else ofCode (negative x) (cubeRootCode (code x))

end Formula.Double
