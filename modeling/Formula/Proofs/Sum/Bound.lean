import Formula.Proofs.Double.Negation
import Formula.Proofs.Sum.Loop

/-!
# The end of a sum

A sum reads its end off the formula. Two formulas off which the same number is read are the same end, also
where the one is `0` and the other `-0`.

* `Sum.count_same` and `Sum.count_truncate`: ends that are the same number give ranges of one length, from
  any finite start, and also where start and end are cut to whole numbers first.
* `Sum.run_addBodies_eq`: the loop looks at no argument but the body. The induction is on the passes that
  remain.
* `Expr.eval_sum_same` puts them together, for the two forms of a sum.
-/

namespace Formula

namespace Sum

open Double

/-! ## 1. The length of a range -/

section Count

variable {first last last' : Float}

/-- A zero of either sign is as far from a number as the number is from zero. -/
theorem code_zero_sub {x : Float} (hx : code x = 0) (hfirst : isFinite first = true) :
    code (x - first) = code first := by
  have hfinite : code first < infinityCode := isFinite_iff.1 hfirst
  have hzero : ofCode (negative x) 0 = x := by
    have hcode : code x < infinityCode := by rw [hx]; decide
    rw [← hx]
    exact ofCode_fields hcode
  have hneg : code (-first) = code first := by rw [neg_eq hfirst, code_ofCode _ hfinite]
  rw [sub_eq_add_neg x hfirst, ← hzero]
  by_cases hcode : code first = 0
  · have hwhole := isWhole_zero (negative x)
    have hcount : inUnits (ofCode (negative x) 0) + inUnits (-first) = 0 := by
      rw [hwhole.count, inUnits_eq_zero_iff.2 (hneg.trans hcode), Int.zero_mul]
      rfl
    rw [Double.add_eq_zero hwhole.finite (isFinite_neg hfirst) hcount, hcode]
    exact code_ofCode _ (by decide)
  · rw [zero_add (isFinite_neg hfirst) (by rw [hneg]; exact hcode), hneg]

/-- **Ends that are the same number are as many steps away.** -/
theorem count_same (h : Same last last') (hlast : isFinite last = true)
    (hfirst : isFinite first = true) : count first last = count first last' := by
  rcases h.eq_or_zero (isNaN_eq_false_iff.2 (isFinite_iff.1 hlast).le) with rfl | ⟨hzero, hzero'⟩
  · rfl
  · have horder : order last = 0 ∧ order last' = 0 := by
      rw [order, order, hzero, hzero']
      simp
    rw [count, count, horder.1, horder.2, code_zero_sub hzero hfirst, code_zero_sub hzero' hfirst]

theorem truncate_zero {x : Float} (h : code x = 0) : truncate x = x := by
  rw [truncate, roundWhere, h]
  simp [belowOne, numerator, significand]

/-- So they are behind the cut to a whole number. -/
theorem count_truncate (h : Same last last') (hlast : isFinite last = true)
    (hfirst : isFinite first = true) :
    count (truncate first) (truncate last) = count (truncate first) (truncate last') := by
  refine count_same ?_ (isWhole_truncate hlast).finite (isWhole_truncate hfirst).finite
  rcases h.eq_or_zero (isNaN_eq_false_iff.2 (isFinite_iff.1 hlast).le) with rfl | ⟨hzero, hzero'⟩
  · exact .refl _
  · rw [truncate_zero hzero, truncate_zero hzero']
    exact h

end Count

/-! ## 2. The loop -/

variable {angle : Angle} {nodes others : List (Rose Node)}

/-- **The loop of a sum looks at its body only.** -/
theorem run_addBodies_eq (h : Rule.supplied nodes [2] = Rule.supplied others [2]) (first : Float)
    (remaining k : Nat) (total : Float) :
    Rule.run angle nodes (addBodies first remaining k total) =
      Rule.run angle others (addBodies first remaining k total) := by
  induction remaining generalizing k total with
  | zero => rfl
  | succ remaining ih =>
    funext s
    rw [run_addBodies_succ rfl, run_addBodies_succ rfl, h]
    generalize (Rule.supplied others [2] (s.bind index (term first k))).1 = outcome
    cases outcome with
    | error failure => rfl
    | ok y => exact congrFun (ih (k + 1) (total + y)) _

/-! ## 3. The bounds -/

/-- **A sum comes to the same if its end is the same number**, and what it does between its bounds comes to
    the same. -/
theorem fromBounds_same {start : Evaluation} {last last' : Expr} {bound bound' : Float}
    (hlast : literalBound? last = some bound) (hlast' : literalBound? last' = some bound')
    (h : Same bound bound') {next next' : Float → Float → Evaluation}
    (hnext : ∀ first, isFinite first = true → isFinite bound = true →
      next first bound = next' first bound') (s : Scope) :
    fromBounds next (bounds start last s) = fromBounds next' (bounds start last' s) := by
  unfold bounds
  rw [hlast, hlast']
  dsimp only
  rw [← h.isFinite_eq]
  split
  · rename_i hbound
    rcases start s with ⟨_ | first, t⟩
    · rfl
    · dsimp only
      split
      · rename_i hfirst
        exact congrFun (hnext first hfirst hbound) t
      · rfl
  · rfl

end Sum

/-! ## 4. Calls -/

namespace Expr

variable {registry : Registry} (hregistry : registry.Reachable) {angle : Angle} {last last' : Expr}
  {bound bound' : Float}

include hregistry in
/-- **Ends off which the same number is read give the same sum**, with the same failures, variables and
    events, in both forms. -/
theorem eval_sum_same (hlast : Sum.literalBound? last = some bound)
    (hlast' : Sum.literalBound? last' = some bound') (h : Double.Same bound bound') (start body : Expr)
    (s : Scope) :
    (call "sum" [start, last]).eval registry angle s =
        (call "sum" [start, last']).eval registry angle s ∧
      (call "sum" [start, last, body]).eval registry angle s =
        (call "sum" [start, last', body]).eval registry angle s := by
  constructor
  · rw [eval_sum_range hregistry, eval_sum_range hregistry]
    refine Sum.fromBounds_same hlast hlast' h (fun first hfirst hbound => ?_) s
    funext t
    rw [Sum.range, Sum.range, Sum.count_same h hbound hfirst]
  · rw [eval_sum_bodies hregistry, eval_sum_bodies hregistry]
    refine Sum.fromBounds_same hlast hlast' h (fun first hfirst hbound => ?_) s
    have hbody : Rule.supplied (evalAll registry angle [start, last, body]) [2] =
        Rule.supplied (evalAll registry angle [start, last', body]) [2] := by
      rw [supplied_evalAll (Nat.lt_succ_self 2), supplied_evalAll (Nat.lt_succ_self 2)]
      rfl
    rw [Sum.bodies, Sum.bodies, Sum.count_truncate h hbound hfirst]
    exact Sum.run_addBodies_eq hbody _ _ 0 0.0

end Expr

end Formula
