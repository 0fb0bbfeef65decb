import Formula.Proofs.Evaluation.Frame
import Formula.Proofs.Evaluation.Record
import Formula.Proofs.Sum.Range

/-!
# The loop of a sum

A sum with a body evaluates the body once for each number of its range, with the index bound to that
number, and stops at the first failure. One pass hands nothing on to the next but the total.

* `Sum.bounds` is what a sum does before its loop; `Sum.run_bounded` says that every sum begins so.
* `Sum.context_afterPass` and `Sum.log_afterPass` are the step: one pass leaves the variables as they
  were, and adds its own events to the record.
* `Sum.run_addBodies` is the loop, by induction on the passes that remain.
* `Expr.eval_sum_body` puts the two together: a sum with a body, between any two finite bounds.
-/

namespace Formula

variable {angle : Angle} {nodes : List (Rose Node)}

/-- A rule that hands on the value of an argument is the evaluation of that argument. -/
theorem Rule.run_argument_value (index : Nat) :
    run angle nodes (argument index value) = supplied nodes [index] := by
  funext s
  show run angle nodes (onValue _ (supplied nodes [index] s).1) (supplied nodes [index] s).2 = _
  generalize supplied nodes [index] s = r
  obtain ⟨outcome, t⟩ := r
  cases outcome <;> rfl

namespace Sum

open Rule (Keeps Records)

/-! ## 1. The bounds of a range -/

/-- The bounds of a range, or why there are none. The end is looked at before the start is
    evaluated. -/
def bounds (start : Evaluation) (last : Expr) (s : Scope) :
    Except Failure (Float × Float) × Scope :=
  match literalBound? last with
  | none => (.error (.refused "sum" .symbolicBound), s)
  | some bound =>
    if Double.isFinite bound then
      match start s with
      | (.error failure, t) => (.error failure, t)
      | (.ok first, t) =>
        if Double.isFinite first then (.ok (first, bound), t)
        else (.error (.refused "sum" .startNotFinite), t)
    else (.error (.refused "sum" .endNotFinite), s)

/-- What a sum does with the bounds of its range; without bounds it fails. -/
def fromBounds (next : Float → Float → Evaluation) :
    Except Failure (Float × Float) × Scope → Outcome × Scope
  | (.error failure, t) => (.error failure, t)
  | (.ok (first, bound), t) => next first bound t

/-- **A sum begins with the bounds of its range.** -/
theorem run_bounded (last : Expr) (next : Float → Float → Rule) (s : Scope) :
    Rule.run angle nodes (bounded last next) s =
      fromBounds (fun first bound => Rule.run angle nodes (next first bound))
        (bounds (Rule.supplied nodes [0]) last s) := by
  unfold bounded bounds
  cases literalBound? last with
  | none => rfl
  | some bound =>
    dsimp only
    by_cases hbound : Double.isFinite bound = true
    · rw [if_pos hbound, if_pos hbound]
      show Rule.run angle nodes (Rule.onValue _ (Rule.supplied nodes [0] s).1)
        (Rule.supplied nodes [0] s).2 = _
      generalize Rule.supplied nodes [0] s = r
      obtain ⟨outcome, t⟩ := r
      cases outcome with
      | error failure => rfl
      | ok first =>
        show Rule.run angle nodes (if Double.isFinite first = true then _ else _) t = _
        by_cases hfirst : Double.isFinite first = true
        · simp only [if_pos hfirst]
          rfl
        · simp only [if_neg hfirst]
          rfl
    · rw [if_neg hbound, if_neg hbound]
      rfl

theorem bounds_ok {start : Evaluation} {last : Expr} {s t : Scope} {first bound : Float}
    (hlast : literalBound? last = some bound) (hbound : Double.isFinite bound = true)
    (hstart : start s = (.ok first, t)) (hfirst : Double.isFinite first = true) :
    bounds start last s = (.ok (first, bound), t) := by
  simp only [bounds, hlast, hstart, if_pos hbound, if_pos hfirst]

/-- Bounds that are found are finite, and the start came to the first of them. -/
theorem bounds_inv {start : Evaluation} {last : Expr} {s t : Scope} {first bound : Float}
    (h : bounds start last s = (.ok (first, bound), t)) :
    literalBound? last = some bound ∧ Double.isFinite bound = true ∧
      start s = (.ok first, t) ∧ Double.isFinite first = true := by
  unfold bounds at h
  split at h
  · cases h
  · rename_i hlast
    split at h
    · rename_i hbound
      split at h
      · cases h
      · rename_i hstart
        split at h
        · rename_i hfirst
          cases h
          exact ⟨hlast, hbound, hstart, hfirst⟩
        · cases h
    · cases h

/-- Looking for the bounds leaves the variables alone if the start does. -/
theorem context_bounds {start : Evaluation} (h : Keeps start) (last : Expr) (s : Scope) :
    (bounds start last s).2.context = s.context := by
  have hstart := h s
  unfold bounds
  split
  · rfl
  · split
    · split
      · rename_i hvalue
        rw [hvalue] at hstart
        exact hstart
      · rename_i hvalue
        rw [hvalue] at hstart
        split <;> exact hstart
    · rfl

/-! ## 2. One pass -/

/-- What a body comes to with the index bound to a number. -/
def valueAt (body : Evaluation) (context : Context) (x : Float) : Outcome :=
  (body ⟨context.set index x, []⟩).1

/-- What the pass at a number records: the binding of the index, what the body records, and the end
    of the binding. -/
def eventsAt (body : Evaluation) (context : Context) (x : Float) : List Event :=
  .bound index x :: (Log.inOrder (body ⟨context.set index x, []⟩).2.log ++ [.released index])

/-- The scope after one pass. -/
def afterPass (body : Evaluation) (s : Scope) (x : Float) : Scope :=
  (body (s.bind index x)).2.release index (s.context.get? index)

section Pass

variable {body : Evaluation} (hkeeps : Keeps body) (hrecords : Records body) (s : Scope) (x : Float)

include hkeeps in
theorem context_afterPass : (afterPass body s x).context = s.context :=
  hkeeps.released index x s

include hrecords

/-- The body runs as on an empty record, in front of the binding and of what was recorded before. -/
theorem run_bind :
    body (s.bind index x) = (valueAt body s.context x,
      (body ⟨s.context.set index x, []⟩).2.onto (.bound index x :: s.log)) :=
  hrecords ⟨s.context.set index x, []⟩ (.bound index x :: s.log)

/-- **One pass records its own events behind the earlier ones.** -/
theorem log_afterPass :
    Log.inOrder (afterPass body s x).log = Log.inOrder s.log ++ eventsAt body s.context x := by
  show List.reverse (.released index :: (body (s.bind index x)).2.log) = _
  rw [run_bind hrecords, eventsAt, Scope.onto]
  simp [Log.inOrder]

end Pass

/-! ## 3. All passes -/

/-- The values at some numbers, added to a total from left to right; a failure ends it. -/
def accumulate (value : Float → Outcome) (xs : List Float) (total : Float) : Outcome :=
  xs.foldlM (fun total x => (value x).map (total + ·)) total

/-- The numbers that are visited: all up to the first at which there is no value. -/
def visited (value : Float → Outcome) : List Float → List Float
  | [] => []
  | x :: rest =>
    x :: match value x with
      | .ok _ => visited value rest
      | .error _ => []

theorem accumulate_cons (value : Float → Outcome) (x : Float) (rest : List Float) (total : Float) :
    accumulate value (x :: rest) total =
      (value x).bind fun y => accumulate value rest (total + y) := by
  rw [accumulate, List.foldlM_cons]
  cases value x <;> rfl

/-- **The first failure is the failure of all, and nothing is visited behind it.** -/
theorem accumulate_failure {value : Float → Outcome} {failure : Failure} {before : List Float}
    (hbefore : ∀ y ∈ before, ∃ z, value y = .ok z) {x : Float} (hx : value x = .error failure)
    (after : List Float) (total : Float) :
    accumulate value (before ++ x :: after) total = .error failure ∧
      visited value (before ++ x :: after) = before ++ [x] := by
  induction before generalizing total with
  | nil =>
    rw [List.nil_append, accumulate_cons, visited, hx]
    exact ⟨rfl, rfl⟩
  | cons y before ih =>
    obtain ⟨⟨z, hz⟩, hrest⟩ := List.forall_mem_cons.1 hbefore
    obtain ⟨htotal, hvisited⟩ := ih hrest (total + z)
    rw [List.cons_append, accumulate_cons, visited, hz]
    refine ⟨htotal, ?_⟩
    dsimp only
    rw [hvisited, List.cons_append]

/-- The loop of a sum does one pass and goes on behind it. -/
theorem run_addBodies_succ {body : Evaluation} (hbody : Rule.supplied nodes [2] = body) (first : Float)
    (remaining k : Nat) (total : Float) (s : Scope) :
    Rule.run angle nodes (addBodies first (remaining + 1) k total) s =
      Rule.run angle nodes
        (.onValue (fun y => addBodies first remaining (k + 1) (total + y))
          (body (s.bind index (term first k))).1)
        (afterPass body s (term first k)) := by
  rw [← hbody, ← Rule.run_argument_value]
  rfl

/-- **The loop of a sum adds the values at the numbers of its range**, and records the passes in
    order. -/
theorem run_addBodies {body : Evaluation} (hbody : Rule.supplied nodes [2] = body)
    (hkeeps : Keeps body) (hrecords : Records body) {context : Context} (first : Float)
    (remaining k : Nat) (total : Float) {s : Scope} (hs : s.context = context) :
    let value := valueAt body context
    let numbers := terms first remaining k
    let r := Rule.run angle nodes (addBodies first remaining k total) s
    r.1 = accumulate value numbers total ∧
      Log.inOrder r.2.log =
        Log.inOrder s.log ++ (visited value numbers).flatMap (eventsAt body context) ∧
      r.2.context = context := by
  intro value
  -- The context is fixed and the scope is not: each pass starts in a scope with a longer record, but
  -- with the same variables.
  induction remaining generalizing k total s with
  | zero => exact ⟨rfl, (List.append_nil _).symm, hs⟩
  | succ remaining ih =>
    let x := term first k
    have hvalue : (body (s.bind index x)).1 = value x := by rw [run_bind hrecords, hs]
    have hlog := log_afterPass hrecords s x
    have hcontext := (context_afterPass hkeeps s x).trans hs
    dsimp only
    rw [run_addBodies_succ hbody, hvalue, terms_succ, accumulate_cons, visited]
    cases hx : value x with
    | error failure =>
      refine ⟨rfl, ?_, hcontext⟩
      show Log.inOrder (afterPass body s x).log = _
      rw [hlog, hs]
      simp [x]
    | ok y =>
      obtain ⟨houtcome, hrest, hafter⟩ := ih (k + 1) (total + y) hcontext
      refine ⟨houtcome, hrest.trans ?_, hafter⟩
      rw [hlog, hs, List.flatMap_cons, List.append_assoc]

end Sum

/-! ## 4. Calls -/

namespace Expr

variable {registry : Registry} (hregistry : registry.Reachable) {angle : Angle}
  {start last body : Expr}

include hregistry

theorem eval_sum_range (s : Scope) :
    (call "sum" [start, last]).eval registry angle s =
      Sum.fromBounds (fun first bound t => (.ok (Sum.range first bound), t))
        (Sum.bounds (start.eval registry angle) last s) := by
  rw [eval_call hregistry.sum rfl]
  exact Sum.run_bounded last _ s

theorem eval_sum_bodies (s : Scope) :
    (call "sum" [start, last, body]).eval registry angle s =
      Sum.fromBounds (fun first bound => Rule.run angle (evalAll registry angle [start, last, body])
          (Sum.bodies first bound))
        (Sum.bounds (start.eval registry angle) last s) := by
  rw [eval_call hregistry.sum rfl]
  exact Sum.run_bounded last _ s

/-- **A sum with a body adds the values of the body at the numbers of its range.** What it leaves are
    the variables that its start left, and a record of its passes behind that of its start. -/
theorem eval_sum_body (hbody : ∀ name ∈ body.callees, name ∈ Builtin.names) {s t : Scope}
    {first bound : Float} (hstart : start.eval registry angle s = (.ok first, t))
    (hfirst : Double.isFinite first = true) (hlast : Sum.literalBound? last = some bound)
    (hbound : Double.isFinite bound = true) :
    let value := Sum.valueAt (body.eval registry angle) t.context
    let events := Sum.eventsAt (body.eval registry angle) t.context
    let numbers := Sum.terms (Double.truncate first)
      (Sum.count (Double.truncate first) (Double.truncate bound)) 0
    let r := (call "sum" [start, last, body]).eval registry angle s
    r.1 = Sum.accumulate value numbers 0.0 ∧
      Log.inOrder r.2.log = Log.inOrder t.log ++ (Sum.visited value numbers).flatMap events ∧
      r.2.context = t.context := by
  intro value events numbers r
  have hsupplied : Rule.supplied (evalAll registry angle [start, last, body]) [2] =
      body.eval registry angle := supplied_evalAll (Nat.lt_succ_self 2)
  have hkeeps := keeps_of_builtin hregistry angle hbody
  have hr : r = Rule.run angle (evalAll registry angle [start, last, body])
      (Sum.bodies first bound) t := by
    show (call "sum" [start, last, body]).eval registry angle s = _
    rw [eval_sum_bodies hregistry, Sum.bounds_ok hlast hbound hstart hfirst]
    rfl
  rw [hr]
  exact Sum.run_addBodies hsupplied hkeeps (eval_records registry angle body) _ _ 0 0.0 rfl

end Expr

end Formula
