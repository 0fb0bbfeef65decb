import Formula.Double

/-!
# Decimals

A decimal is an integer of digits times a power of ten. This file goes from decimals to doubles and
back, and from doubles to texts and back:

* `Decimal.code` is the magnitude code nearest to a decimal. Exponents far outside the range of doubles
  are settled by their size alone, so that no power of ten is ever larger than the digits call for.
* `Decimal.shortest` is the decimal with the fewest digits among those that read back as a code.
* `Spelling.write` writes a double, positionally and with the digits of its shortest decimal.
* `Double.read` reads one. A text that is no number is refused for being empty or for being malformed.
-/

namespace Formula

/-! ## 1. Decimals and their codes -/

/-- The magnitude `digits * 10 ^ exponent`. -/
structure Decimal where
  digits : Nat
  exponent : Int
  deriving DecidableEq, Repr

namespace Decimal

/-- Numerator of the magnitude, over `denominator`. -/
def numerator (d : Decimal) : Nat := d.digits * Nat.pow 10 d.exponent.toNat

/-- Denominator of the magnitude: a power of ten. -/
def denominator (d : Decimal) : Nat := Nat.pow 10 (-d.exponent).toNat

theorem denominator_pos (d : Decimal) : 0 < d.denominator := Nat.pow_pos (by decide)

/-- The code of the double nearest to the decimal. With an exponent above 400 every positive decimal
    is beyond the largest double; and `digits` being below `2 ^ (log2 digits + 1)`, a decimal whose
    exponent and binary length add up to less than -400 is nearer to zero than to any other
    double. -/
def code (d : Decimal) : Nat :=
  if d.digits = 0 then 0
  else if 400 < d.exponent then Double.infinityCode
  else if d.exponent + d.digits.log2 < -400 then 0
  else Double.nearestCode d.numerator d.denominator

/-! ## 2. Positional form

A number written positionally has some digits after the point and no power of ten. As a decimal it
has an exponent that is not positive, and no zero ends the digits after the point. -/

/-- Drops zeros at the end of the digits, at most as many as there are places after the point. -/
def dropZeros : (digits places : Nat) → Decimal
  | digits, 0 => ⟨digits, 0⟩
  | digits, places + 1 =>
    if digits % 10 = 0 then dropZeros (digits / 10) places
    else ⟨digits, -((places + 1 : Nat) : Int)⟩

/-- The same magnitude in positional form. -/
def positional (d : Decimal) : Decimal :=
  dropZeros (d.digits * Nat.pow 10 d.exponent.toNat) (-d.exponent).toNat

/-! ## 3. The shortest decimal of a double

A grid of `n` digits has two points next to a magnitude, the one not above it and the one above. The
search goes through the grids of 1, 2, … 17 digits and stops at the first with a neighbour that reads
back. Where both read back it takes the nearer one, and of two equally near ones the larger.

* Candidates are in positional form, as they are written, and "reads back" is tested by reading:
  `Decimal.code` of the candidate is compared with the code.
* Seventeen digits tell any two doubles apart. Should no grid have a hit, the exact decimal expansion
  is the answer, which reads back as well. -/

/-- The number of decimal digits of a positive number. -/
def digitCount (n : Nat) : Nat := (Nat.toDigits 10 n).length

/-- The place of the leading digit of the ratio `n / d`: the `k` with
    `10 ^ (k - 1) ≤ n / d < 10 ^ k`, for a positive ratio. -/
def leadingPlace (n d : Nat) : Int :=
  if d ≤ n then digitCount (n / d) else 1 - (digitCount ((d - 1) / n) : Int)

/-- The exact expansion of a finite code: a half is five tenths. -/
def exact (code : Nat) : Decimal :=
  let places := (-Double.scale code).toNat
  dropZeros (Double.numerator code * Nat.pow 5 places) places

/-- The decimal to take on the grid of `digits` digits: a neighbour of the magnitude that reads back
    as `code`, if there is one. -/
def onGrid (code digits : Nat) : Option Decimal :=
  let n := Double.numerator code
  let d := Double.denominator code
  let exponent := leadingPlace n d - digits
  let n' := n * Nat.pow 10 (-exponent).toNat
  let d' := d * Nat.pow 10 exponent.toNat
  let low := positional ⟨n' / d', exponent⟩
  let high := positional ⟨n' / d' + 1, exponent⟩
  match decide (low.code = code), decide (high.code = code) with
  | true, true => some (if 2 * (n' % d') < d' then low else high)
  | true, false => some low
  | false, true => some high
  | false, false => none

/-- The first hit among `tries` grids, beginning with the one of `digits` digits. -/
def search (code digits : Nat) : Nat → Option Decimal
  | 0 => none
  | tries + 1 =>
    match onGrid code digits with
    | some d => some d
    | none => search code (digits + 1) tries

/-- The shortest decimal that reads back as a finite code. -/
def shortest (code : Nat) : Decimal :=
  if code = 0 then ⟨0, 0⟩ else (search code 1 17).getD (exact code)

/-! ## 4. Digits and a point -/

/-- The decimal written positionally. At least one digit stands before the point, and the point is
    written only in front of a digit. -/
def layout (d : Decimal) : List Char :=
  let digits := Nat.toDigits 10 (d.digits * Nat.pow 10 d.exponent.toNat)
  let places := (-d.exponent).toNat
  if places = 0 then digits
  else
    let padded := List.replicate (places + 1 - digits.length) '0' ++ digits
    padded.take (padded.length - places) ++ '.' :: padded.drop (padded.length - places)

end Decimal

/-! ## 5. Spellings

What is left to choose of the text of a double, the words for zero, infinity and what is not a number,
is the record `Spelling`. -/

/-- The words of a number format. -/
structure Spelling where
  negativeZero : String
  infinity : String
  notANumber : String

namespace Spelling

/-- The text of a double. -/
def write (s : Spelling) (x : Float) : String :=
  if Double.isNaN x then s.notANumber
  else
    let sign := if Double.negative x then "-" else ""
    if Double.isInfinite x then sign ++ s.infinity
    else if Double.isZero x && Double.negative x then s.negativeZero
    else sign ++ String.ofList (Decimal.shortest (Double.code x)).layout

/-- Numbers in messages and log records show the sign of zero. -/
def message : Spelling := ⟨"-0", "inf", "NaN"⟩

/-- Answers do not. -/
def answer : Spelling := ⟨"0", "Inf", "NaN"⟩

end Spelling

/-! ## 6. Reading

The grammar of a number:

    number   := sign? (word | decimal)
    word     := inf | infinity | nan                 (in any case)
    decimal  := digits (. digits?)? exponent?
              | . digits exponent?
    exponent := (e | E) sign? digits

The value is the double nearest to the decimal, infinity where that is out of range. -/

namespace Decimal

/-- The number that digits write. -/
def ofDigits (digits : List Char) : Nat :=
  digits.foldl (fun n c => 10 * n + (c.toNat - '0'.toNat)) 0

/-- A nonempty run of digits and nothing else. -/
def digits? (text : List Char) : Option Nat :=
  if text ≠ [] ∧ text.all Char.isDigit then some (ofDigits text) else none

/-- The exponent at the end of a decimal; none written is zero. -/
def exponent? : List Char → Option Int
  | [] => some 0
  | mark :: text =>
    if mark = 'e' ∨ mark = 'E' then
      match text with
      | '-' :: text => (digits? text).map fun n => -(n : Int)
      | '+' :: text => (digits? text).map fun n => (n : Int)
      | text => (digits? text).map fun n => (n : Int)
    else none

/-- The decimal that a text without sign writes. -/
def read? (text : List Char) : Option Decimal :=
  let whole := text.takeWhile Char.isDigit
  let afterWhole := text.dropWhile Char.isDigit
  let (fraction, tail) :=
    match afterWhole with
    | '.' :: rest => (rest.takeWhile Char.isDigit, rest.dropWhile Char.isDigit)
    | rest => ([], rest)
  if whole ++ fraction = [] then none
  else (exponent? tail).map fun e => ⟨ofDigits (whole ++ fraction), e - fraction.length⟩

end Decimal

/-- Why a text is no number. -/
inductive NotANumber
  | empty
  | malformed
  deriving DecidableEq, Repr

namespace NotANumber

def message : NotANumber → String
  | empty => "cannot parse float from empty string"
  | malformed => "invalid float literal"

end NotANumber

namespace Double

/-- The value of a number without sign, with `negative` set for a minus before it. -/
def readUnsigned? (negative : Bool) (text : List Char) : Option Float :=
  let word := text.map Char.toLower
  if word = ['i', 'n', 'f'] ∨ word = ['i', 'n', 'f', 'i', 'n', 'i', 't', 'y'] then
    some (ofCode negative infinityCode)
  else if word = ['n', 'a', 'n'] then some notANumber
  else (Decimal.read? text).map fun d => ofCode negative d.code

/-- Reads a number. -/
def read (text : String) : Except NotANumber Float :=
  match text.toList with
  | [] => .error .empty
  | c :: rest =>
    let value :=
      if c = '-' then readUnsigned? true rest
      else if c = '+' then readUnsigned? false rest
      else readUnsigned? false (c :: rest)
    match value with
    | some x => .ok x
    | none => .error .malformed

end Double

end Formula
