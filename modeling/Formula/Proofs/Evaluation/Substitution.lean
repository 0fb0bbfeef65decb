import Formula.Proofs.Evaluation.Dependence
import Formula.Proofs.Tree.Substitute

/-!
# A number in place of a variable

Evaluating a formula with a variable bound to a number comes to the same as evaluating the formula with
that number written in place of the variable, as long as the variable does not stand in the end of a
range, which is read and not evaluated.

* `Rule.InSight x changed rule covered`: a judgement on rules. The rule evaluates the changed arguments
  only where `x` has not been bound anew, and it looks at nothing else; `covered` says whether `x` has
  been bound.
* `Rule.run_inSight` is the step: such a rule does the same with arguments that differ only where `x`
  reads something else.
* `Builtin.inSight` and `Builtin.rule_congr`: every builtin function keeps `x` in sight, and its rule
  looks at nothing of its arguments but their number and the end of a range.
* `Expr.eval_substitute_bound` is the induction on the tree: where `x` reads the number already, the
  substitution changes nothing at all. `Expr.eval_substitute` is the main statement.
-/

namespace Formula

/-! ## 1. Keeping a variable in sight -/

namespace Rule

/-- A rule that evaluates the changed arguments only where `x` has not been bound anew. -/
def InSight (x : String) (changed : Nat → Prop) : Rule → Prop → Prop
  | answer _, _ => True
  | evaluate path next, covered =>
    (∃ index, path = [index] ∧ (changed index → ¬covered)) ∧
      ∀ outcome, (next outcome).InSight x changed covered
  | typeset _ _, _ | read _, _ | replace _ _, _ => False
  | within name _ part next, covered =>
    part.InSight x changed (name = x ∨ covered) ∧
      ∀ outcome, (next outcome).InSight x changed covered
  | record _ next, covered => next.InSight x changed covered
  | askAngle next, covered => ∀ angle, (next angle).InSight x changed covered

variable {x : String} {value : Float} {changed : Nat → Prop} {covered : Prop}

/-- A rule that keeps a variable in sight never replaces the variables. -/
theorem InSight.tidy {rule : Rule} (h : rule.InSight x changed covered) : rule.Tidy := by
  induction rule generalizing covered with
  | answer outcome => trivial
  | evaluate path next ih => exact fun outcome => ih outcome (h.2 outcome)
  | typeset | read | replace => exact h.elim
  | within name value part next ihpart ihnext =>
    exact ⟨ihpart h.1, fun outcome => ihnext outcome (h.2 outcome)⟩
  | record event next ih => exact ih h
  | askAngle next ih => exact fun angle => ih angle (h angle)

/-- Two rows of arguments that differ only in the changed ones, and in these only where `x` does not
    read the value. -/
structure Interchangeable (x : String) (value : Float) (changed : Nat → Prop)
    (left right : List (Rose Node)) : Prop where
  keeps : Rose.All KeptBy right
  same : ∀ index s, (changed index → s.context.value x = value) →
    supplied left [index] s = supplied right [index] s

/-- **Interchangeable arguments make no difference** to a rule that keeps the variable in sight. -/
theorem run_inSight {angle : Angle} {left right : List (Rose Node)}
    (h : Interchangeable x value changed left right) {rule : Rule}
    (hrule : rule.InSight x changed covered) {s : Scope}
    (hs : ¬covered → s.context.value x = value) :
    run angle left rule s = run angle right rule s := by
  induction rule generalizing covered s with
  | answer outcome => rfl
  | evaluate path next ih =>
    obtain ⟨⟨index, rfl, hindex⟩, hnext⟩ := hrule
    have hsame := h.same index s fun hchanged => hs (hindex hchanged)
    have hafter : (supplied right [index] s).2.context = s.context :=
      supplied_keeps h.keeps [index] s
    show run angle left (next (supplied left [index] s).1) (supplied left [index] s).2 = _
    rw [hsame]
    refine ih _ (hnext _) fun hcovered => ?_
    rw [hafter]
    exact hs hcovered
  | typeset | read | replace => exact hrule.elim
  | within name bound part next ihpart ihnext =>
    have hbind : ¬(name = x ∨ covered) → (s.bind name bound).context.value x = value := by
      intro hcovered
      obtain ⟨hname, hcovered⟩ := not_or.1 hcovered
      rw [Scope.context_bind, Context.value_set, if_neg hname]
      exact hs hcovered
    have hsame := ihpart hrule.1 hbind
    have hkeeps : Keeps (run angle right part) := run_context h.keeps hrule.1.tidy
    show run angle left (next (run angle left part (s.bind name bound)).1)
      ((run angle left part (s.bind name bound)).2.release name (s.context.get? name)) = _
    rw [hsame]
    refine ihnext _ (hrule.2 _) fun hcovered => ?_
    rw [hkeeps.released name bound s]
    exact hs hcovered
  | record event next ih => exact ih hrule hs
  | askAngle next ih => exact ih angle (hrule angle) hs

/-! ### The steps that most rules are made of -/

theorem inSight_value (v : Float) : (Rule.value v).InSight x changed covered := trivial

theorem inSight_fail (failure : Failure) : (fail failure).InSight x changed covered := trivial

theorem inSight_onValue {next : Float → Rule} (h : ∀ v, (next v).InSight x changed covered)
    (outcome : Outcome) : (onValue next outcome).InSight x changed covered := by
  cases outcome with
  | ok v => exact h v
  | error failure => exact inSight_fail failure

theorem inSight_argument {index : Nat} (hindex : changed index → ¬covered) {next : Float → Rule}
    (h : ∀ v, (next v).InSight x changed covered) :
    (argument index next).InSight x changed covered :=
  ⟨⟨index, rfl, hindex⟩, fun outcome => inSight_onValue h outcome⟩

theorem inSight_foldArguments {combine : Float → Float → Float} {next : Float → Rule}
    (hcovered : ¬covered) (h : ∀ v, (next v).InSight x changed covered) (count index : Nat)
    (v : Float) : (foldArguments combine next count index v).InSight x changed covered := by
  induction count generalizing index v with
  | zero => exact h v
  | succ count ih =>
    exact inSight_argument (fun _ => hcovered) fun w => ih (index + 1) (combine v w)

end Rule

open Rule

variable {x : String} {changed : Nat → Prop} {covered : Prop}

/-! ## 2. Builtin functions -/

namespace Sum

/-- The body is evaluated where the index has been bound anew. -/
theorem inSight_addBodies (hcovered : ¬covered) (hbody : changed 2 → index ≠ x) (first : Float)
    (remaining k : Nat) (total : Float) :
    (addBodies first remaining k total).InSight x changed covered := by
  induction remaining generalizing k total with
  | zero => exact inSight_value total
  | succ remaining ih =>
    have hpart : changed 2 → ¬(index = x ∨ covered) :=
      fun hchanged => not_or.2 ⟨hbody hchanged, hcovered⟩
    exact ⟨inSight_argument hpart inSight_value, inSight_onValue fun v => ih (k + 1) (total + v)⟩

theorem inSight_bounded (hcovered : ¬covered) {next : Float → Float → Rule}
    (h : ∀ first last, (next first last).InSight x changed covered) (last : Expr) :
    (bounded last next).InSight x changed covered := by
  unfold bounded
  split
  · exact inSight_fail _
  · split
    · refine inSight_argument (fun _ => hcovered) fun first => ?_
      split
      · exact h first _
      · exact inSight_fail _
    · exact inSight_fail _

theorem inSight_rule (hcovered : ¬covered) {arguments : List Expr}
    (hbody : arguments.length = 3 → changed 2 → index ≠ x) :
    (rule arguments).InSight x changed covered := by
  unfold rule
  split
  · exact inSight_bounded hcovered (fun first last => inSight_value (range first last)) _
  · exact inSight_bounded hcovered
      (fun first last => inSight_addBodies hcovered (hbody rfl) _ _ 0 0.0) _
  · exact inSight_fail _

/-- The rule of a sum looks at the number of its arguments and at the end of its range. -/
theorem rule_congr {arguments others : List Expr} (hlength : arguments.length = others.length)
    (hlast : Expr.endOf arguments = Expr.endOf others) : rule arguments = rule others := by
  match arguments, others with
  | [_, last], [_, last'] | [_, last, _], [_, last', _] =>
    obtain rfl : last = last' := List.singleton_inj.1 hlast
    rfl
  | [], [] | [_], [_] => rfl
  | _ :: _ :: _ :: _ :: rest, _ :: _ :: _ :: _ :: rest' =>
    show refuse (.sumArguments _) = refuse (.sumArguments _)
    rw [hlength]

end Sum

namespace Builtin

theorem inSight_single (hcovered : ¬covered) {next : Float → Rule}
    (h : ∀ v, (next v).InSight x changed covered) (name : String) (arguments : List Expr) :
    (single name next arguments).InSight x changed covered := by
  unfold single
  split
  · exact inSight_argument (fun _ => hcovered) h
  · exact inSight_fail _

theorem inSight_noerr (hcovered : ¬covered) (arguments : List Expr) :
    (noerr arguments).InSight x changed covered := by
  unfold noerr
  split
  · refine ⟨⟨0, rfl, fun _ => hcovered⟩, fun outcome => ?_⟩
    cases outcome with
    | ok v => exact inSight_value v
    | error failure =>
      show (Rule.value 0.0).InSight x changed covered
      exact inSight_value 0.0
  · exact inSight_fail _

theorem inSight_choice (hcovered : ¬covered) (name : String) (choose : Float → Float → Float)
    (arguments : List Expr) : (choice name choose arguments).InSight x changed covered := by
  unfold choice
  split
  · exact inSight_fail _
  · refine inSight_argument (fun _ => hcovered) fun v => ?_
    exact inSight_foldArguments hcovered inSight_value _ 1 v

theorem inSight_logarithm (hcovered : ¬covered) (arguments : List Expr) :
    (logarithm arguments).InSight x changed covered := by
  unfold logarithm
  split
  · refine inSight_argument (fun _ => hcovered) fun base => ?_
    exact inSight_argument (fun _ => hcovered) fun v => inSight_value _
  · exact inSight_fail _

/-- **Every builtin function keeps a variable in sight**, a sum of three arguments the index in all
    arguments but its body. -/
theorem inSight {name : String} {function : Function} (h : (name, function) ∈ table)
    (hcovered : ¬covered) {arguments : List Expr}
    (hbody : name = "sum" → arguments.length = 3 → changed 2 → Sum.index ≠ x) :
    (function.rule arguments).InSight x changed covered := by
  cases family h with
  | trigonometric name command f =>
    have hnext (v : Float) :
        (Rule.askAngle fun angle => .value (f (angle.toRadians v))).InSight x changed covered :=
      fun angle => inSight_value (f (angle.toRadians v))
    exact inSight_single hcovered hnext name arguments
  | numeric name f row => exact inSight_single hcovered (fun v => inSight_value (f v)) name arguments
  | noerr => exact inSight_noerr hcovered arguments
  | choosing name command choose _ => exact inSight_choice hcovered name choose arguments
  | sum => exact Sum.inSight_rule hcovered (hbody rfl)
  | logarithm => exact inSight_logarithm hcovered arguments

section Congruence

variable {arguments others : List Expr} (hlength : arguments.length = others.length)

include hlength

theorem single_congr (name : String) (next : Float → Rule) :
    single name next arguments = single name next others := by
  match arguments, others with
  | [], [] | [_], [_] => rfl
  | _ :: _ :: rest, _ :: _ :: rest' =>
    show Rule.fail (.wrongArgumentCount name _ _) = Rule.fail (.wrongArgumentCount name _ _)
    rw [hlength]

theorem noerr_congr : noerr arguments = noerr others := by
  match arguments, others with
  | [], [] | [_], [_] => rfl
  | _ :: _ :: rest, _ :: _ :: rest' =>
    show Rule.fail (.wrongArgumentCount _ _ _) = Rule.fail (.wrongArgumentCount _ _ _)
    rw [hlength]

theorem choice_congr (name : String) (choose : Float → Float → Float) :
    choice name choose arguments = choice name choose others := by
  match arguments, others with
  | [], [] => rfl
  | _ :: rest, _ :: rest' =>
    have hrest : rest.length = rest'.length := Nat.succ.inj hlength
    rw [choice, choice, hrest]

theorem logarithm_congr : logarithm arguments = logarithm others := by
  match arguments, others with
  | [], [] | [_], [_] | [_, _], [_, _] => rfl
  | _ :: _ :: _ :: rest, _ :: _ :: _ :: rest' =>
    show Rule.fail (.wrongArgumentCount _ _ _) = Rule.fail (.wrongArgumentCount _ _ _)
    rw [hlength]

/-- **A builtin function looks at nothing of its arguments but their number**, a sum at the end of its
    range as well. -/
theorem rule_congr {name : String} {function : Function} (h : (name, function) ∈ table)
    (hlast : name = "sum" → Expr.endOf arguments = Expr.endOf others) :
    function.rule arguments = function.rule others := by
  cases family h with
  | trigonometric name command f => exact single_congr hlength name _
  | numeric name f row => exact single_congr hlength name _
  | noerr => exact noerr_congr hlength
  | choosing name command choose _ => exact choice_congr hlength name choose
  | sum => exact Sum.rule_congr hlength (hlast rfl)
  | logarithm => exact logarithm_congr hlength

end Congruence

end Builtin

/-! ## 3. Trees -/

namespace Expr

variable {registry : Registry} {value : Float} {text : String}

/-- Where the ends of ranges do not hold the variable, the substitution leaves them. -/
theorem endOf_substituteFrom {bound : Nat → Bool} {index : Nat} {arguments : List Expr}
    (h : ∀ last ∈ endOf arguments, x ∉ last.variableNames) :
    endOf (substituteFrom x value text bound index arguments) = endOf arguments := by
  match arguments, h with
  | [], _ | [_], _ => rfl
  | [_, last], h | [_, last, _], h =>
    have hlast : last.substitute x value text = last :=
      substitute_of_notMem (h last (List.mem_singleton_self last))
    simp only [substituteFrom, endOf, hlast, ite_self]
  | _ :: _ :: _ :: _ :: _, _ => rfl

/-- Arguments with a number in place of a variable are as good as before where the variable reads that
    number. -/
theorem interchangeable_evalAll (hregistry : registry.Reachable) (angle : Angle)
    {arguments : List Expr} (hcallees : ∀ a ∈ arguments, ∀ name ∈ a.callees, name ∈ Builtin.names)
    (h : ∀ a ∈ arguments, ∀ s : Scope, s.context.value x = value →
      (a.substitute x value text).eval registry angle s = a.eval registry angle s)
    (bound : Nat → Bool) :
    Rule.Interchangeable x value (fun i => bound i = false)
      (evalAll registry angle (substituteFrom x value text bound 0 arguments))
      (evalAll registry angle arguments) where
  keeps := keptBy_of_builtin hregistry angle hcallees
  same index s hs := by
    rw [Rule.supplied, Rule.supplied, at?_evalAll, at?_evalAll, at?, at?, getElem?_substituteFrom,
      Nat.zero_add]
    cases ha : arguments[index]? with
    | none => rfl
    | some a =>
      dsimp only [Option.map_some]
      split
      · rfl
      · rename_i hbound
        exact h a (List.mem_of_getElem? ha) s (hs (Bool.eq_false_iff.2 hbound))

/-- **Where the variable reads the value already, writing the value in its place changes nothing**,
    neither the outcome nor what is left. -/
theorem eval_substitute_bound (hregistry : registry.Reachable) (angle : Angle) {e : Expr}
    (hcallees : ∀ name ∈ e.callees, name ∈ Builtin.names)
    (hends : ∀ last ∈ e.ends, x ∉ last.variableNames) {s : Scope}
    (hs : s.context.value x = value) :
    (e.substitute x value text).eval registry angle s = e.eval registry angle s := by
  induction e generalizing s with
  | number _ _ => rw [substitute]
  | constant _ _ => rw [substitute]
  | var name =>
    rw [substitute]
    split
    · rename_i hname
      rw [eval, eval, hname, hs]
    · rfl
  | binary symbol left right ihleft ihright =>
    obtain ⟨hl, hr⟩ := forall_callees_binary.1 hcallees
    obtain ⟨hlends, hrends⟩ := forall_ends_binary.1 hends
    rw [substitute]
    cases hop : Operator.find? symbol with
    | none => rw [eval_unknown hop, eval_unknown hop]
    | some op =>
      have hleft := ihleft hl hlends hs
      have hkeeps := keeps_of_builtin hregistry angle hl s
      generalize hvalue : left.eval registry angle s = r at hleft hkeeps
      obtain ⟨outcome, t⟩ := r
      have ht : t.context.value x = value := by rw [← hs, ← hkeeps]
      have hright := ihright hr hrends ht
      rw [eval, eval, hop, hleft, hvalue]
      cases outcome with
      | error failure => rfl
      | ok v =>
        dsimp only
        rw [hright]
  | call name arguments ih =>
    obtain ⟨hname, harguments⟩ := forall_callees_call.1 hcallees
    obtain ⟨hlast, hargumentEnds⟩ := forall_ends_call.1 hends
    obtain ⟨function, hfunction, hmem⟩ := hregistry.builtin hname
    have hlength := @length_substituteFrom x value text (binds name arguments.length · x) 0 arguments
    have hrule := Builtin.rule_congr hlength hmem fun hsum => endOf_substituteFrom (hlast hsum)
    -- A sum binds the index in its third argument only, which the substitution leaves alone then.
    have hsight : (function.rule arguments).InSight x
        (fun i => binds name arguments.length i x = false) False := by
      refine Builtin.inSight hmem id ?_
      rintro rfl hthree hbound rfl
      rw [hthree] at hbound
      cases hbound
    have hinterchangeable := interchangeable_evalAll hregistry angle harguments
      (fun a ha s hs => ih a ha (harguments a ha) (hargumentEnds a ha) hs)
      (binds name arguments.length · x)
    rw [substitute]
    by_cases harity : function.arity.accepts arguments.length = true
    · rw [eval_call hfunction (by rw [hlength]; exact harity), eval_call hfunction harity, hrule]
      exact Rule.run_inSight hinterchangeable hsight fun _ => hs
    · rw [eval, eval, hfunction, hlength]
      dsimp only
      rw [if_neg harity, if_neg harity]

/-- **Binding a variable to a number and writing the number in its place come to the same**, for any
    text of the number. The variable may be bound by sums in the tree, but it must not stand in the
    end of a range. -/
theorem eval_substitute (hregistry : registry.Reachable) (angle : Angle) {e : Expr}
    (hcallees : ∀ name ∈ e.callees, name ∈ Builtin.names)
    (hends : ∀ last ∈ e.ends, x ∉ last.variableNames) (value : Float) (text : String) (s : Scope) :
    (e.eval registry angle { s with context := s.context.set x value }).1 =
      ((e.substitute x value text).eval registry angle s).1 := by
  have hreads : (s.context.set x value).value x = value := by
    rw [Context.value_set, if_pos rfl]
  have hbound : (e.substitute x value text).eval registry angle
      { s with context := s.context.set x value } = _ :=
    eval_substitute_bound hregistry angle hcallees hends hreads
  have hbuiltin : (e.substitute x value text).CallsBuiltin angle angle := by
    intro name hname
    rw [callees_substitute] at hname
    exact ⟨hcallees name hname, fun _ => rfl⟩
  -- With the number written in, the tree does not read the variable: the binding may be left out.
  rw [← hbound]
  refine eval_agree hregistry hbuiltin fun v hv => ?_
  have hne : x ≠ v := by
    rintro rfl
    exact notMem_freeVariables_substitute e hv
  show (s.context.set x value).value v = s.context.value v
  rw [Context.value_set, if_neg hne]

/-- The tree of `sum(#i,2,1/#i)+#i`. The index is free in the start of the sum and behind the sum. -/
def shadowing : Expr :=
  .binary '+' (.call "sum" [.var "#i", .number 2.0 "2", .binary '/' (.number 1.0 "1") (.var "#i")])
    (.var "#i")

/-- With the index bound to one the tree comes to the same as `sum(1,2,1/#i)+1` without. -/
theorem eval_substitute_shadowing :
    let s : Scope := ⟨.ofList [("#i", 1.0)], []⟩
    let written : Expr :=
      .binary '+' (.call "sum" [.number 1.0 "1", .number 2.0 "2",
        .binary '/' (.number 1.0 "1") (.var "#i")]) (.number 1.0 "1")
    (∀ name ∈ shadowing.callees, name ∈ Builtin.names) ∧
      (∀ last ∈ shadowing.ends, "#i" ∉ last.variableNames) ∧
      (shadowing.eval .standard .degrees s).1 = (written.eval .standard .degrees ⟨.empty, []⟩).1 := by
  have hcallees : ∀ name ∈ shadowing.callees, name ∈ Builtin.names := by decide
  have hends : ∀ last ∈ shadowing.ends, "#i" ∉ last.variableNames := by
    intro last hlast
    obtain rfl := List.mem_singleton.1 hlast
    decide
  exact ⟨hcallees, hends,
    eval_substitute Registry.reachable_standard .degrees hcallees hends 1.0 "1" ⟨.empty, []⟩⟩

end Expr

end Formula
