import Formula.Function.Sum
import Formula.Proofs.Double.Nearest

/-!
# The numbers of a range

A sum counts the numbers of its range by a difference that is rounded, and computes each of them by an
addition that is rounded. This file says where neither rounds, and what the sum of a range starts from.

* `terms_whole`: between whole numbers that are not too large or too far apart, the numbers of a range
  are the whole numbers from the one to the other (`indices`).
* `pairwise_terms`: the numbers of a range never go down, also where they are rounded.
* `addTerms_eq` and `foldl_terms`: the sum of a range is the same from `0` and from `-0`, unless the
  range is empty.
-/

namespace Formula.Sum

open Double

/-- The numbers of a range from number `k` on. -/
def terms (first : Float) (remaining k : Nat) : List Float :=
  (List.range' k remaining).map (term first)

/-- The whole numbers from `a` to `b`, as doubles. -/
def indices (a b : Int) : List Float := (Int.range a (b + 1)).map ofInt

theorem terms_succ (first : Float) (remaining k : Nat) :
    terms first (remaining + 1) k = term first k :: terms first remaining (k + 1) := by
  rw [terms, List.range'_succ, List.map_cons, terms]

/-! ## 1. Ranges of whole numbers -/

section Whole

variable {first last : Float} {a b : Int}

theorem count_whole (hfirst : IsWhole first a) (hlast : IsWhole last b)
    (h : (b - a).natAbs ≤ 2 ^ 53) : count first last = (b + 1 - a).toNat := by
  have horder := hlast.order_lt_iff hfirst
  have hpart := (hlast.sub hfirst h).wholePart_code
  unfold count
  simp only [Nat.pow_eq]
  split <;> omega

theorem term_whole (hfirst : IsWhole first a) {k : Nat} (hk : k ≤ 2 ^ 53)
    (h : (a + k).natAbs ≤ 2 ^ 53) : term first k = ofInt (a + k) := by
  have hsize : (k : Int).natAbs ≤ 2 ^ 53 := hk
  have hstep := isWhole_ofInt hsize
  have hpositive : negative (ofInt k) = false := by
    rw [negative_ofInt hsize]
    exact decide_eq_false (by omega)
  rw [term, ofNat_eq_ofInt]
  refine hfirst.add_eq_ofInt hstep ?_ h
  rw [hpositive, Bool.and_false]

-- A start between `-1` and `0` is cut to `-0`, but its first number is `0`.
example : Double.truncate (-0.5) = -0.0 ∧ term (Double.truncate (-0.5)) 0 = 0.0 := by decide +kernel

/-- **A range between whole numbers has exactly the whole numbers from the one to the other.** -/
theorem terms_whole (hfirst : IsWhole first a) (hlast : IsWhole last b) (ha : a.natAbs ≤ 2 ^ 53)
    (hb : b.natAbs ≤ 2 ^ 53) (h : (b - a).natAbs ≤ 2 ^ 53) :
    terms first (count first last) 0 = indices a b := by
  rw [count_whole hfirst hlast h, terms, indices, Int.range, List.map_map, List.range_eq_range']
  refine List.map_congr_left fun k hk => ?_
  have hlt : k < (b + 1 - a).toNat := by
    have := List.mem_range'_1.1 hk
    omega
  exact term_whole hfirst (by omega) (by omega)

end Whole

/-! ## 2. The order of a range -/

theorem count_le (first last : Float) : count first last ≤ 2 ^ 64 := by
  unfold count
  simp only [Nat.pow_eq]
  split <;> omega

/-- **The numbers of a range never go down**, and each of them is a number. -/
theorem pairwise_terms {first : Float} (hfirst : isFinite first = true) {remaining : Nat}
    (h : remaining ≤ 2 ^ 64) :
    (terms first remaining 0).Pairwise (order · ≤ order ·) ∧
      ∀ x ∈ terms first remaining 0, isNaN x = false := by
  have hsteps {k : Nat} (hk : k ∈ List.range' 0 remaining) : k ≤ 2 ^ 64 := by
    have := List.mem_range'_1.1 hk
    omega
  constructor
  · refine List.pairwise_map.2 (List.Pairwise.imp_of_mem ?_ List.pairwise_lt_range')
    intro j k _ hk hlt
    obtain ⟨hj, hcount⟩ := inUnits_ofNat_mono hlt.le (hsteps hk)
    exact order_add_mono hfirst hj (inUnits_ofNat_mono le_rfl (hsteps hk)).1 hcount
  · intro x hx
    obtain ⟨k, hk, rfl⟩ := List.mem_map.1 hx
    exact (order_add hfirst (inUnits_ofNat_mono le_rfl (hsteps hk)).1).2

/-! ## 3. The start of a sum -/

theorem addTerms_eq (first : Float) (remaining k : Nat) (total : Float) :
    addTerms first remaining k total = (terms first remaining k).foldl (· + ·) total := by
  induction remaining generalizing k total with
  | zero => rfl
  | succ remaining ih => rw [addTerms, ih, terms_succ, List.foldl_cons]

theorem zero_eq : (0.0 : Float) = ofCode false 0 := by decide +kernel

theorem negativeZero_eq : (-0.0 : Float) = ofCode true 0 := by decide +kernel

/-- A double is what it gives when it is added to a zero, unless it is a zero itself. -/
theorem zero_add {x : Float} (hx : isFinite x = true) (hx0 : code x ≠ 0) (negative : Bool) :
    ofCode negative 0 + x = x := by
  have hzero := isWhole_zero negative
  refine add_eq hzero.finite hx hx hx0 ?_
  rw [hzero.count, Int.zero_mul, Int.zero_add]

/-- The first number of a range is not `-0`, so it does not matter which zero it is added to. -/
theorem zero_add_term {first : Float} (hfirst : isFinite first = true) :
    0.0 + term first 0 = -0.0 + term first 0 := by
  have hstep : ofNat 0 = ofCode false 0 := by decide +kernel
  have hzero := isWhole_zero false
  by_cases hcode : code first = 0
  · have hcount : inUnits first + inUnits (ofCode false 0) = 0 := by
      rw [inUnits_eq_zero_iff.2 hcode, hzero.count, Int.zero_mul]
      rfl
    have hterm := add_eq_zero hfirst hzero.finite hcount
    have hpositive : negative (ofCode false 0) = false := negative_ofCode false (by decide)
    rw [term, hstep, hterm, hpositive, Bool.and_false]
    decide +kernel
  · have hterm : first + ofCode false 0 = first := by
      refine add_eq hfirst hzero.finite hfirst hcode ?_
      rw [hzero.count, Int.zero_mul, Int.add_zero]
    rw [term, hstep, hterm, negativeZero_eq, zero_eq, zero_add hfirst hcode, zero_add hfirst hcode]

/-- **The sum of a range starts from either zero.** -/
theorem foldl_terms {first : Float} (hfirst : isFinite first = true) {remaining : Nat}
    (h : remaining ≠ 0) :
    (terms first remaining 0).foldl (· + ·) 0.0 = (terms first remaining 0).foldl (· + ·) (-0.0) := by
  obtain ⟨remaining, rfl⟩ := Nat.exists_eq_succ_of_ne_zero h
  rw [terms_succ, List.foldl_cons, List.foldl_cons, zero_add_term hfirst]

end Formula.Sum
