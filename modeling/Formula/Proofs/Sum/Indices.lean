import Formula.Function.Basic
import Formula.Proofs.Sum.Loop

/-!
# Sums over whole numbers

A sum with a body rounds both bounds toward zero and visits every whole number from the one to the
other once, in order, as long as the two are at most `2 ^ 53` from zero and from each other.

* `Expr.eval_sum_indices` is the main statement.
* The body sees the variables as the start left them. A start that calls builtin functions leaves them
  as they were; one that calls a function which binds a variable for good does not
  (`Expr.eval_sum_storing`).
-/

namespace Formula.Expr

variable {registry : Registry}

/-- **A sum visits every index of its range once, in order, up to the first failure.** The index is
    bound to the whole numbers between the bounds, rounded toward zero; the values of the body are
    added from left to right, and each pass begins with the variables that the start of the sum left. -/
theorem eval_sum_indices (hregistry : registry.Reachable) {angle : Angle} {start last body : Expr}
    (hbody : ∀ name ∈ body.callees, name ∈ Builtin.names) {s t : Scope} {first bound : Float}
    (hstart : start.eval registry angle s = (.ok first, t))
    (hfirst : Double.isFinite first = true) (hlast : Sum.literalBound? last = some bound)
    (hbound : Double.isFinite bound = true) {a b : Int} (ha : Double.toInt first = a)
    (hb : Double.toInt bound = b) (hsmall : a.natAbs ≤ 2 ^ 53 ∧ b.natAbs ≤ 2 ^ 53)
    (hdistance : (b - a).natAbs ≤ 2 ^ 53) :
    let value := Sum.valueAt (body.eval registry angle) t.context
    let events := Sum.eventsAt (body.eval registry angle) t.context
    let indices := Sum.indices a b
    let r := (call "sum" [start, last, body]).eval registry angle s
    r.1 = Sum.accumulate value indices 0.0 ∧
      Log.inOrder r.2.log =
        Log.inOrder t.log ++ (Sum.visited value indices).flatMap events ∧
      (∀ before x after failure, indices = before ++ x :: after →
        (∀ y ∈ before, ∃ z, value y = .ok z) → value x = .error failure →
          r.1 = .error failure ∧ Sum.visited value indices = before ++ [x]) ∧
      r.2.context = t.context ∧
      ((∀ name ∈ start.callees, name ∈ Builtin.names) → t.context = s.context) := by
  intro value events indices r
  have hnumbers : Sum.terms (Double.truncate first)
      (Sum.count (Double.truncate first) (Double.truncate bound)) 0 = indices := by
    have hwhole := Double.isWhole_truncate hfirst
    have hwhole' := Double.isWhole_truncate hbound
    rw [ha] at hwhole
    rw [hb] at hwhole'
    exact Sum.terms_whole hwhole hwhole' hsmall.1 hsmall.2 hdistance
  obtain ⟨houtcome, hlog, hcontext⟩ := eval_sum_body hregistry hbody hstart hfirst hlast hbound
  rw [hnumbers] at houtcome hlog
  refine ⟨houtcome, hlog, ?_, hcontext, ?_⟩
  · intro before x after failure hindices hbefore hx
    rw [houtcome, hindices]
    exact Sum.accumulate_failure hbefore hx after 0.0
  · intro hcallees
    have hkeeps := keeps_of_builtin hregistry angle hcallees s
    rw [hstart] at hkeeps
    exact hkeeps

/-- The tree of `1/#i`. -/
def reciprocal : Expr := .binary '/' (.number 1.0 "1") (.var "#i")

theorem eval_reciprocal (angle : Angle) (s : Scope) :
    reciprocal.eval registry angle s =
      (if Double.isZero (s.context.value "#i") then .error (.divisionByZero 1.0)
        else .ok (1.0 / s.context.value "#i"), s) := rfl

/-- The sum of `1/#i` from `-1.5` to `1.5` visits `-1` and then `0`, where it fails, and not `1`. -/
theorem eval_sum_indices_reciprocal :
    let start := negation (.number 1.5 "1.5")
    let s : Scope := ⟨.ofList [("#i", 9.0)], []⟩
    let r := (call "sum" [start, .number 1.5 "1.5", reciprocal]).eval .standard .radians s
    start.eval .standard .radians s = (.ok (-1.5), s) ∧
      r.1 = .error (.divisionByZero 1.0) ∧ r.2.context = s.context ∧
      Log.inOrder r.2.log =
        [.bound "#i" (-1.0), .released "#i", .bound "#i" 0.0, .released "#i"] := by
  intro start s r
  have hbody : ∀ name ∈ reciprocal.callees, name ∈ Builtin.names := by decide
  have hstart : start.eval .standard .radians s = (.ok (-1.5), s) := by
    have hvalue : (0.0 - 1.5 : Float) = -1.5 := by decide +kernel
    rw [← hvalue]
    rfl
  have hlast : Sum.literalBound? (.number 1.5 "1.5") = some 1.5 := rfl
  have hfirst : Double.isFinite (-1.5) = true ∧ Double.toInt (-1.5) = -1 := by decide +kernel
  have hbound : Double.isFinite 1.5 = true ∧ Double.toInt 1.5 = 1 := by decide +kernel
  obtain ⟨-, hlog, hfailure, hcontext, -⟩ := eval_sum_indices Registry.reachable_standard hbody
    hstart hfirst.1 hlast hbound.1 hfirst.2 hbound.2 (by decide) (by decide)
  have hvalue (x : Float) : Sum.valueAt (reciprocal.eval .standard .radians) s.context x =
      if Double.isZero x then .error (.divisionByZero 1.0) else .ok (1.0 / x) := by
    rw [Sum.valueAt, eval_reciprocal]
    simp [Context.value, Sum.index]
  have hevents (x : Float) : Sum.eventsAt (reciprocal.eval .standard .radians) s.context x =
      [.bound "#i" x, .released "#i"] := by
    rw [Sum.eventsAt, eval_reciprocal]
    rfl
  have hindices : Sum.indices (-1) 1 = [-1.0] ++ 0.0 :: [1.0] := by decide +kernel
  have hminusOne : Sum.valueAt (reciprocal.eval .standard .radians) s.context (-1.0) =
      .ok (1.0 / -1.0) := by
    rw [hvalue]
    exact if_neg (by decide +kernel)
  have hzero : Sum.valueAt (reciprocal.eval .standard .radians) s.context 0.0 =
      .error (.divisionByZero 1.0) := by
    rw [hvalue]
    exact if_pos (by decide +kernel)
  obtain ⟨houtcome, hvisited⟩ := hfailure _ _ _ _ hindices
    (List.forall_mem_singleton.2 ⟨_, hminusOne⟩) hzero
  refine ⟨hstart, houtcome, hcontext, ?_⟩
  show Log.inOrder r.2.log = _
  rw [hlog, hvisited]
  simp only [List.cons_append, List.nil_append, List.flatMap_cons, List.flatMap_nil, hevents]
  rfl

/-! ## A start that binds a variable for good -/

/-- The standard functions, and one that binds `s` to its argument for good. -/
def storing : Registry := Registry.standard.after [.function "store" ⟨.exactly 1, Stock.store, none⟩]

/-- The start of `sum(store(5),1,$s)`. -/
def storeFive : Expr := .call "store" [.number 5.0 "5"]

theorem eval_storeFive :
    storeFive.eval storing .radians ⟨.empty, []⟩ = (.ok (-1.0), ⟨Context.empty.set "s" 5.0, []⟩) := by
  have hstore : storing.function? "store" = some ⟨.exactly 1, Stock.store, none⟩ := rfl
  rw [storeFive, eval_call hstore rfl]
  show (Except.ok ((Context.empty.get? "s").getD (-1.0)), _) = _
  rw [Context.get?_empty]
  rfl

/-- The sum `sum(store(5),1,$s)` visits `-1`, `0` and `1` with `s` bound to five, although `s` reads zero
    before the sum. -/
theorem eval_sum_storing :
    let s : Scope := ⟨.empty, []⟩
    let value := Sum.valueAt ((var "s").eval storing .radians) s.context
    let r := (call "sum" [storeFive, .number 1.0 "1", .var "s"]).eval storing .radians s
    (storeFive.eval storing .radians s).1 = .ok (-1.0) ∧
      Double.toInt (-1.0) = -1 ∧ Double.toInt 1.0 = 1 ∧
      Sum.accumulate value (Sum.indices (-1) 1) 0.0 = .ok 0.0 ∧ r.1 = .ok 15.0 ∧
      r.1 ≠ Sum.accumulate value (Sum.indices (-1) 1) 0.0 := by
  intro s value r
  have hregistry : storing.Reachable := Registry.reachable_standard.after _
  have hbody : ∀ name ∈ (var "s").callees, name ∈ Builtin.names := by decide
  have hlast : Sum.literalBound? (.number 1.0 "1") = some 1.0 := rfl
  have hnumbers : Sum.terms (Double.truncate (-1.0))
      (Sum.count (Double.truncate (-1.0)) (Double.truncate 1.0)) 0 = [-1.0, 0.0, 1.0] := by
    decide +kernel
  have hindices : Sum.indices (-1) 1 = [-1.0, 0.0, 1.0] := by decide +kernel
  obtain ⟨houtcome, -⟩ := eval_sum_body hregistry hbody eval_storeFive (by decide +kernel) hlast
    (by decide +kernel)
  have hunstored : Sum.accumulate value (Sum.indices (-1) 1) 0.0 = .ok 0.0 := by
    have hvalue (x : Float) : value x = .ok 0.0 := by
      simp [value, s, Sum.valueAt, eval, Context.value, Sum.index, Context.get?_set]
    have htotal : (0.0 + 0.0 + 0.0 + 0.0 : Float) = 0.0 := by decide +kernel
    simp only [hindices, Sum.accumulate_cons, hvalue, Except.bind]
    exact congrArg Except.ok htotal
  have hfifteen : r.1 = .ok 15.0 := by
    have hvalue (x : Float) : Sum.valueAt ((var "s").eval storing .radians)
        (Context.empty.set "s" 5.0) x = .ok 5.0 := by
      simp [Sum.valueAt, eval, Context.value, Sum.index, Context.get?_set]
    have htotal : (0.0 + 5.0 + 5.0 + 5.0 : Float) = 15.0 := by decide +kernel
    rw [hnumbers] at houtcome
    refine houtcome.trans ?_
    simp only [Sum.accumulate_cons, hvalue, Except.bind]
    exact congrArg Except.ok htotal
  refine ⟨?_, by decide +kernel, by decide +kernel, hunstored, hfifteen, ?_⟩
  · rw [eval_storeFive]
  · rw [hfifteen, hunstored]
    have hne : (15.0 : Float) ≠ 0.0 := by decide +kernel
    intro h
    exact hne (Except.ok.inj h)

end Formula.Expr
