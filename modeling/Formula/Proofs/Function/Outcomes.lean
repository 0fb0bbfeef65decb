import Formula.Proofs.Function.Plain

/-!
# What a rule comes to

A rule is judged without running it: which outcomes can it come to, if each argument comes to an
outcome of a given kind (`Rule.Yields`)?

* `Rule.run_yields` is the step: a run stays within the judgement.
* `Rule.Passes`: every value is wanted, and so is all that one of the supplied arguments comes to. A
  rule that evaluates only supplied arguments then yields what is wanted.
* `Builtin.yields` is the main statement: a builtin function whose arity accepts its arguments adds
  no failure to theirs, except that `sum`, `max` and `min` refuse some arguments.
-/

namespace Formula

variable {given : Nat → Outcome → Prop} {wanted : Outcome → Prop} {count : Nat}

/-! ## 1. Judging a rule -/

namespace Rule

/-- A rule comes to a wanted outcome, whatever is given for its arguments. A scope has to come to a
    wanted outcome as well. The rule may look at texts and at the variables, but it evaluates no node
    further down. -/
def Yields (given : Nat → Outcome → Prop) (wanted : Outcome → Prop) : Rule → Prop
  | answer outcome => wanted outcome
  | evaluate path next =>
    ∃ index, path = [index] ∧ ∀ outcome, given index outcome → (next outcome).Yields given wanted
  | typeset _ next => ∀ text, (next text).Yields given wanted
  | read next => ∀ context, (next context).Yields given wanted
  | replace _ next => next.Yields given wanted
  | within _ _ part next =>
    part.Yields given wanted ∧ ∀ outcome, wanted outcome → (next outcome).Yields given wanted
  | record _ next => next.Yields given wanted
  | askAngle next => ∀ angle, (next angle).Yields given wanted

/-- **A run comes to what its rule yields.** -/
theorem run_yields {angle : Angle} {nodes : List (Rose Node)}
    (h : ∀ index s, given index (supplied nodes [index] s).1) {rule : Rule}
    (hrule : rule.Yields given wanted) (s : Scope) : wanted (run angle nodes rule s).1 := by
  induction rule generalizing s with
  | answer outcome => exact hrule
  | evaluate path next ih =>
    obtain ⟨index, rfl, hnext⟩ := hrule
    exact ih _ (hnext _ (h index s)) _
  | typeset path next ih => exact ih _ (hrule _) _
  | read next ih => exact ih _ (hrule _) _
  | replace context next ih => exact ih hrule _
  | within name value part next ihpart ihnext =>
    have hpart := ihpart hrule.1 (s.bind name value)
    exact ihnext _ (hrule.2 _ hpart) _
  | record event next ih => exact ih hrule _
  | askAngle next ih => exact ih angle (hrule angle) s

/-- All that a rule may hand on is wanted: any value, and what the first `count` arguments come to. -/
structure Passes (given : Nat → Outcome → Prop) (wanted : Outcome → Prop) (count : Nat) : Prop where
  value : ∀ x, wanted (.ok x)
  argument : ∀ index < count, ∀ outcome, given index outcome → wanted outcome

theorem yields_value (h : Passes given wanted count) (x : Float) : (value x).Yields given wanted :=
  h.value x

theorem yields_onValue {next : Float → Rule} (hnext : ∀ x, (next x).Yields given wanted)
    {outcome : Outcome} (houtcome : wanted outcome) : (onValue next outcome).Yields given wanted := by
  cases outcome with
  | ok x => exact hnext x
  | error failure => exact houtcome

theorem yields_argument (h : Passes given wanted count) {index : Nat} (hindex : index < count)
    {next : Float → Rule} (hnext : ∀ x, (next x).Yields given wanted) :
    (argument index next).Yields given wanted := by
  refine ⟨index, rfl, fun outcome houtcome => ?_⟩
  exact yields_onValue hnext (h.argument index hindex outcome houtcome)

theorem yields_foldArguments (h : Passes given wanted count) (combine : Float → Float → Float)
    {next : Float → Rule} (hnext : ∀ x, (next x).Yields given wanted) {remaining index : Nat}
    (hcount : index + remaining ≤ count) (x : Float) :
    (foldArguments combine next remaining index x).Yields given wanted := by
  induction remaining generalizing index x with
  | zero => exact hnext x
  | succ remaining ih =>
    have hindex : index < count := by omega
    have hrest : index + 1 + remaining ≤ count := by omega
    exact yields_argument h hindex fun y => ih hrest (combine x y)

end Rule

open Rule

/-! ## 2. Sums -/

namespace Sum

theorem yields_addBodies (h : Passes given wanted count) (hcount : 2 < count) (first : Float)
    (remaining k : Nat) (total : Float) :
    (addBodies first remaining k total).Yields given wanted := by
  induction remaining generalizing k total with
  | zero => exact yields_value h total
  | succ remaining ih =>
    refine ⟨yields_argument h hcount (yields_value h), fun outcome houtcome => ?_⟩
    exact yields_onValue (fun x => ih (k + 1) (total + x)) houtcome

theorem yields_bounded (h : Passes given wanted count) (hcount : 0 < count)
    (hrefused : ∀ reason, wanted (.error (.refused "sum" reason))) {next : Float → Float → Rule}
    (hnext : ∀ first last, (next first last).Yields given wanted) (last : Expr) :
    (bounded last next).Yields given wanted := by
  unfold bounded
  split
  · exact hrefused .symbolicBound
  · rename_i bound _
    by_cases hfinite : Double.isFinite bound = true
    · rw [if_pos hfinite]
      refine yields_argument h hcount fun first => ?_
      by_cases hstart : Double.isFinite first = true
      · rw [if_pos hstart]
        exact hnext first bound
      · rw [if_neg hstart]
        exact hrefused .startNotFinite
    · rw [if_neg hfinite]
      exact hrefused .endNotFinite

theorem yields_rule {arguments : List Expr} (h : Passes given wanted arguments.length)
    (hrefused : ∀ reason, wanted (.error (.refused "sum" reason))) :
    (rule arguments).Yields given wanted := by
  unfold rule
  split
  · exact yields_bounded h (by simp) hrefused (fun first last => yields_value h (range first last)) _
  · refine yields_bounded h (by simp) hrefused (fun first last => ?_) _
    exact yields_addBodies h (by simp) _ _ _ _
  · exact hrefused _

end Sum

/-! ## 3. Builtin functions -/

namespace Builtin

theorem yields_single {name : String} {next : Float → Rule} {arguments : List Expr}
    (h : Passes given wanted arguments.length) (hlength : arguments.length = 1)
    (hnext : ∀ x, (next x).Yields given wanted) :
    (single name next arguments).Yields given wanted := by
  obtain ⟨e, rfl⟩ := List.length_eq_one_iff.1 hlength
  exact yields_argument h Nat.zero_lt_one hnext

theorem yields_noerr {arguments : List Expr} (h : Passes given wanted arguments.length)
    (hlength : arguments.length = 1) : (noerr arguments).Yields given wanted := by
  obtain ⟨e, rfl⟩ := List.length_eq_one_iff.1 hlength
  refine ⟨0, rfl, fun outcome _ => ?_⟩
  cases outcome with
  | ok x => exact h.value x
  | error failure => exact h.value 0.0

theorem yields_choice {name : String} {choose : Float → Float → Float} {arguments : List Expr}
    (h : Passes given wanted arguments.length)
    (hrefused : ∀ reason, wanted (.error (.refused name reason))) :
    (choice name choose arguments).Yields given wanted := by
  cases arguments with
  | nil => exact hrefused .noArgument
  | cons e rest =>
    refine yields_argument h (Nat.succ_pos _) fun x => ?_
    have hcount : 1 + rest.length ≤ (e :: rest).length := by rw [List.length_cons]; omega
    exact yields_foldArguments h choose (yields_value h) hcount x

theorem yields_logarithm : ∀ {arguments : List Expr}, Passes given wanted arguments.length →
    arguments.length = 2 → (logarithm arguments).Yields given wanted
  | [_, _], h, _ => by
    refine yields_argument h Nat.zero_lt_two fun x => ?_
    exact yields_argument h Nat.one_lt_two fun y => yields_value h (y.log / x.log)

/-- **A builtin function that accepts its arguments passes their outcomes on.** Only `sum`, `max` and
    `min` have failures of their own. -/
theorem yields {name : String} {function : Function} (hmem : (name, function) ∈ table)
    {arguments : List Expr} (harity : function.arity.accepts arguments.length = true)
    (h : Passes given wanted arguments.length)
    (hrefused : name ∈ ["sum", "max", "min"] → ∀ reason, wanted (.error (.refused name reason))) :
    (function.rule arguments).Yields given wanted := by
  cases family hmem with
  | trigonometric name command f =>
    exact yields_single h (eq_of_beq harity) fun x angle =>
      yields_value h (f (angle.toRadians x))
  | numeric name f row => exact yields_single h (eq_of_beq harity) fun x => yields_value h (f x)
  | noerr => exact yields_noerr h (eq_of_beq harity)
  | choosing name command choose hname => exact yields_choice h (hrefused (.tail _ hname))
  | sum => exact Sum.yields_rule h (hrefused (.head _))
  | logarithm => exact yields_logarithm h (eq_of_beq harity)

end Builtin

end Formula
