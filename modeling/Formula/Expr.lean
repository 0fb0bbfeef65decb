/-!
# Formulas as trees

A formula is a tree of numbers, constants, variables, applications of a binary operator and calls.
Trees come from a source or are made by hand; a hand-made tree may hold any operator symbol and any
name.

* `Expr.negation` is how a unary minus is written: a subtraction from a zero without text.
* `Expr.depth` is the height of a tree.
* `Expr.agrees` compares two trees with the comparison of doubles, so that a tree with a value that
  is not a number differs from itself.
* `Expr.at?` finds the node at a path: the number of a formula in a row, and the number of a part for
  each step further down. What is known of a formula and of its parts is kept in a `Rose`, in which a
  path leads to the same place (`Rose.at?_map`).
-/

namespace Formula

/-- A formula. -/
inductive Expr
  /-- A number with the digits that were written for it; the zero of a negation has none. -/
  | number (value : Float) (text : String)
  /-- A named constant with its value. -/
  | constant (name : String) (value : Float)
  /-- A variable. -/
  | var (name : String)
  /-- A binary operator and its operands. -/
  | binary (symbol : Char) (left right : Expr)
  /-- A function and its arguments. -/
  | call (name : String) (arguments : List Expr)
  deriving Inhabited

namespace Expr

/-- The negation of a formula, as zero less the formula. -/
def negation (operand : Expr) : Expr := .binary '-' (.number 0.0 "") operand

/-! ## 1. Height -/

mutual

/-- The height of a tree; a leaf has height 1. -/
def depth : Expr → Nat
  | number _ _ | constant _ _ | var _ => 1
  | binary _ left right => 1 + max left.depth right.depth
  | call _ arguments => 1 + depthAll arguments

/-- The greatest height among arguments, zero if there are none. -/
def depthAll : List Expr → Nat
  | [] => 0
  | e :: rest => max e.depth (depthAll rest)

end

/-! ## 2. Agreement -/

mutual

/-- Whether two trees have one shape, the same texts and names, and equal values. -/
def agrees : Expr → Expr → Bool
  | number v s, number w t => v == w && s == t
  | constant m v, constant n w => m == n && v == w
  | var m, var n => m == n
  | binary s l r, binary t l' r' => s == t && l.agrees l' && r.agrees r'
  | call m as, call n bs => m == n && agreeAll as bs
  | _, _ => false

/-- Whether two argument lists agree one by one. -/
def agreeAll : List Expr → List Expr → Bool
  | [], [] => true
  | a :: as, b :: bs => a.agrees b && agreeAll as bs
  | _, _ => false

end

/-! ## 3. Parts and paths -/

/-- The formulas right below the root of a formula. -/
def parts : Expr → List Expr
  | number _ _ | constant _ _ | var _ => []
  | binary _ left right => [left, right]
  | call _ arguments => arguments

/-- The node at a path. -/
def at? : List Expr → List Nat → Option Expr
  | _, [] => none
  | row, [index] => row[index]?
  | row, index :: next :: path => row[index]?.bind fun e => at? e.parts (next :: path)

end Expr

/-- Something with parts, which have parts in their turn. -/
structure Rose (α : Type) where
  label : α
  parts : List (Rose α)

namespace Rose

variable {α : Type}

/-- What stands at a path. -/
def at? : List (Rose α) → List Nat → Option α
  | _, [] => none
  | row, [index] => row[index]?.map label
  | row, index :: next :: path => row[index]?.bind fun rose => at? rose.parts (next :: path)

/-- **A path leads to the same place in formulas and in what is known of them.** -/
theorem at?_map {known : Expr → Rose α}
    (hknown : ∀ e, (known e).parts = e.parts.map known) (row : List Expr) (path : List Nat) :
    at? (row.map known) path = (Expr.at? row path).map fun e => (known e).label := by
  fun_induction Expr.at? row path with
  | case1 => rfl
  | case2 row index =>
    rw [at?, List.getElem?_map, Option.map_map]
    rfl
  | case3 row index next path ih =>
    rw [at?, List.getElem?_map]
    cases row[index]? with
    | none => rfl
    | some e =>
      show at? (known e).parts (next :: path) = _
      rw [hknown]
      exact ih e

end Rose

end Formula
