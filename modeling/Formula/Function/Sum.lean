import Formula.Function.Basic

/-!
# Sums

`sum(a, b)` adds `a`, `a + 1`, … up to `b`. `sum(a, b, body)` rounds both bounds toward zero and adds
the values of the body with `#i` bound to each whole number of the range in turn.

* The end of the range has to be written as a number, with any number of minus signs before it; it
  is read off the formula and not evaluated (`literalBound?`).
* The numbers of a range are counted first and then computed from the start (`count`, `term`), so
  that a sum ends even where adding one no longer changes a number.
-/

namespace Formula.Sum

/-- The variable that runs through a range. -/
def index : String := "#i"

/-- The number that a formula writes out. -/
def literalBound? : Expr → Option Float
  | .number value _ => some value
  | .binary symbol (.number _ text) operand =>
    if symbol = '-' ∧ text = "" then (literalBound? operand).map (- ·) else none
  | _ => none

/-- How many of the numbers `first`, `first + 1`, … are not past `last`, at most `2 ^ 64 - 1`. The
    difference of the two is rounded before its whole part is taken. -/
def count (first last : Float) : Nat :=
  if Double.order last < Double.order first then 0
  else min (Nat.pow 2 64 - 1) (Double.wholePart (Double.code (last - first)) + 1)

/-- The number `k` steps after `first`. -/
def term (first : Float) (k : Nat) : Float := first + Double.ofNat k

/-! ## 1. A range -/

/-- Adds `remaining` terms from number `k` on to a total. -/
def addTerms (first : Float) : (remaining k : Nat) → Float → Float
  | 0, _, total => total
  | remaining + 1, k, total => addTerms first remaining (k + 1) (total + term first k)

/-- The sum of a range. It starts from `-0`, which adding leaves alone, so an empty range gives
    `-0`. -/
def range (first last : Float) : Float := addTerms first (count first last) 0 (-0.0)

/-! ## 2. A body -/

/-- Adds the values of the body at `remaining` indices, from number `k` on, to a total. -/
def addBodies (first : Float) : (remaining k : Nat) → Float → Rule
  | 0, _, total => .value total
  | remaining + 1, k, total =>
    .within index (term first k) (.argument 2 .value)
      (.onValue fun x => addBodies first remaining (k + 1) (total + x))

/-- The sum of the body over a range of whole numbers. -/
def bodies (first last : Float) : Rule :=
  let first := Double.truncate first
  addBodies first (count first (Double.truncate last)) 0 0.0

/-! ## 3. The function -/

/-- The refusals of a sum. -/
def refuse (reason : Refusal) : Rule := .fail (.refused "sum" reason)

/-- Hands on the two bounds of a range, if they are finite. -/
def bounded (last : Expr) (next : Float → Float → Rule) : Rule :=
  match literalBound? last with
  | none => refuse .symbolicBound
  | some last =>
    if Double.isFinite last then
      .argument 0 fun first =>
        if Double.isFinite first then next first last else refuse .startNotFinite
    else refuse .endNotFinite

/-- What a sum does. -/
def rule : List Expr → Rule
  | [_, last] => bounded last fun first last => .value (range first last)
  | [_, last, _] => bounded last bodies
  | arguments => refuse (.sumArguments arguments.length)

/-- How a sum is typeset; without a body the index stands in for it. -/
def row : Row
  | [_, _] =>
    [.text "\\sum_\x7bi=", .argument 0, .text "\x7d^\x7b", .argument 1, .text "\x7d i"]
  | [_, _, _] =>
    [.text "\\sum_\x7bi=", .argument 0, .text "\x7d^\x7b", .argument 1, .text "\x7d ", .argument 2]
  | _ => []

end Formula.Sum
