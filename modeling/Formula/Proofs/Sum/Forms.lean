import Formula.Proofs.Sum.Loop

/-!
# The two forms of a sum

`sum(a, b)` adds the numbers of a range, `sum(a, b, #i)` adds the index over a range. Between bounds that
are whole numbers already, the two come to the same, also where the numbers of the range are so large
that they repeat.

* `Sum.range_index` is the step, between finite bounds: both add the same numbers, from `-0` and
  from `0`.
* `Expr.eval_sum_forms` is the main statement, with the failures.
-/

namespace Formula

namespace Sum

/-- Adding the index is adding the numbers. -/
theorem accumulate_ok (xs : List Float) (total : Float) :
    accumulate .ok xs total = .ok (xs.foldl (· + ·) total) :=
  List.foldlM_pure

theorem count_eq_zero {first last : Float} (h : Double.order last < Double.order first) :
    count first last = 0 := if_pos h

theorem count_ne_zero {first last : Float} (h : Double.order first ≤ Double.order last) :
    count first last ≠ 0 := by
  unfold count
  simp only [Nat.pow_eq]
  rw [if_neg (Int.not_lt.2 h)]
  omega

theorem zero_isZero : Double.isZero 0.0 = true := by decide +kernel

theorem negativeZero_isZero : Double.isZero (-0.0) = true := by decide +kernel

/-- **Over a range that is not empty the two forms add up to the same**, over an empty one to a zero. -/
theorem range_index {first : Float} (hfirst : Double.isFinite first = true) (last : Float) :
    ∃ x, accumulate .ok (terms first (count first last) 0) 0.0 = .ok x ∧
      (Double.order first ≤ Double.order last → range first last = x) ∧
      (Double.order last < Double.order first →
        Double.isZero (range first last) = true ∧ Double.isZero x = true) := by
  refine ⟨_, accumulate_ok _ _, ?_, ?_⟩
  · intro h
    rw [range, addTerms_eq, foldl_terms hfirst (count_ne_zero h)]
  · intro h
    rw [range, count_eq_zero h]
    exact ⟨negativeZero_isZero, zero_isZero⟩

end Sum

namespace Expr

variable {registry : Registry}

/-- **The two forms of a sum agree between whole numbers.** They fail alike, and where they have values,
    these are one double, or both zero if the range is empty. Both leave the variables as they were,
    the index among them. -/
theorem eval_sum_forms (hregistry : registry.Reachable) (angle : Angle) {start last : Expr}
    (hcallees : ∀ name ∈ start.callees, name ∈ Builtin.names) (s : Scope)
    (hlast : ∀ bound, Sum.literalBound? last = some bound → Double.isFinite bound = true →
      Double.truncate bound = bound)
    (hstart : ∀ first, (start.eval registry angle s).1 = .ok first →
      Double.isFinite first = true → Double.truncate first = first) :
    let plain := (call "sum" [start, last]).eval registry angle s
    let indexed := (call "sum" [start, last, .var "#i"]).eval registry angle s
    ((∃ failure, plain.1 = .error failure ∧ indexed.1 = .error failure) ∨
      ∃ first bound x y, (start.eval registry angle s).1 = .ok first ∧
        Sum.literalBound? last = some bound ∧ plain.1 = .ok x ∧ indexed.1 = .ok y ∧
        (Double.order first ≤ Double.order bound → x = y) ∧
        (Double.order bound < Double.order first →
          Double.isZero x = true ∧ Double.isZero y = true)) ∧
    plain.2.context = s.context ∧ indexed.2.context = s.context := by
  intro plain indexed
  have hkeeps := keeps_of_builtin hregistry angle hcallees
  have hcontext := Sum.context_bounds hkeeps last s
  have hplain : plain = _ := eval_sum_range hregistry s
  have hindexed : indexed = _ := eval_sum_bodies hregistry s
  rcases hbounds : Sum.bounds (start.eval registry angle) last s with ⟨result, t⟩
  rw [hbounds] at hcontext hplain hindexed
  cases result with
  | error failure =>
    rw [hplain, hindexed]
    exact ⟨.inl ⟨failure, rfl, rfl⟩, hcontext, hcontext⟩
  | ok range =>
    obtain ⟨first, bound⟩ := range
    obtain ⟨hbound, hfinite, hvalue, hfirst⟩ := Sum.bounds_inv hbounds
    have hvalueAt : Sum.valueAt ((var "#i").eval registry angle) t.context = .ok := by
      funext x
      simp [Sum.valueAt, eval, Context.value, Sum.index]
    have hcallees : ∀ name ∈ (var "#i").callees, name ∈ Builtin.names := by decide
    obtain ⟨houtcome, -, hafter⟩ := eval_sum_body hregistry hcallees hvalue hfirst hbound hfinite
    rw [hvalueAt, hlast bound hbound hfinite, hstart first (by rw [hvalue]) hfirst] at houtcome
    obtain ⟨x, hx, hfull, hempty⟩ := Sum.range_index hfirst bound
    refine ⟨.inr ⟨first, bound, _, x, by rw [hvalue], hbound, ?_, houtcome.trans hx, hfull, hempty⟩,
      ?_, hafter.trans hcontext⟩
    · rw [hplain]
      rfl
    · rw [hplain]
      exact hcontext

/-- The sums from `x` to two, with `x` bound to `-3` and the index bound as well. -/
theorem eval_sum_forms_minusThree :
    let s : Scope := ⟨.ofList [("#i", 7.0), ("x", -3.0)], []⟩
    let plain := (call "sum" [.var "x", .number 2.0 "2"]).eval .standard .radians s
    let indexed := (call "sum" [.var "x", .number 2.0 "2", .var "#i"]).eval .standard .radians s
    plain.1 = .ok (-3.0) ∧ indexed.1 = .ok (-3.0) ∧ plain.2.context = s.context ∧
      indexed.2.context = s.context := by
  intro s plain indexed
  have hvalue : (var "x").eval .standard .radians s = (.ok (-3.0), s) := by
    simp [s, eval, Context.value, Context.ofList]
  have hcallees : ∀ name ∈ (var "x").callees, name ∈ Builtin.names := by decide
  have hlast : ∀ bound, Sum.literalBound? (.number 2.0 "2") = some bound →
      Double.isFinite bound = true → Double.truncate bound = bound := by
    intro bound hbound _
    cases hbound
    decide +kernel
  have hstart : ∀ first, ((var "x").eval .standard .radians s).1 = .ok first →
      Double.isFinite first = true → Double.truncate first = first := by
    intro first hfirst _
    rw [hvalue] at hfirst
    cases hfirst
    decide +kernel
  have hbounds := Sum.bounds_ok (rfl : Sum.literalBound? (.number 2.0 "2") = some 2.0)
    (by decide +kernel) hvalue (by decide +kernel)
  have htotal : Sum.range (-3.0) 2.0 = -3.0 := by decide +kernel
  have hplain : plain = (.ok (-3.0), s) := by
    show (call "sum" [.var "x", .number 2.0 "2"]).eval .standard .radians s = _
    rw [eval_sum_range Registry.reachable_standard, hbounds, Sum.fromBounds, htotal]
  obtain ⟨hagree, -, hafter⟩ :=
    eval_sum_forms Registry.reachable_standard .radians hcallees s hlast hstart
  have houtcome : plain.1 = .ok (-3.0) := by rw [hplain]
  refine ⟨houtcome, ?_, by rw [hplain], hafter⟩
  rcases hagree with ⟨failure, hfailure, -⟩ | ⟨first, bound, x, y, hx, hy, hleft, hright, hsame, -⟩
  · cases houtcome.symm.trans hfailure
  · rw [hvalue] at hx
    cases hx
    cases hy
    have horder : Double.order (-3.0) ≤ Double.order 2.0 := by decide +kernel
    rw [← Except.ok.inj (hleft.symm.trans houtcome), hsame horder]
    exact hright

end Expr

end Formula
