import Formula.Proofs.Evaluation.Execution
import Formula.Proofs.Nesting
import Formula.Proofs.Sum.Loop

/-!
# Bindings and releases come in pairs

An evaluation records each binding for a while and each release of one. A failure may leave any number
of bindings at once, also those of loops in loops, and a `noerr` may go on after that; still the records
are those of brackets that were opened and closed.

* `Bracketed`: each release is that of the innermost binding, and in the end all are released.
* `Growth` is what a relation between an earlier and a later record has to satisfy. It then holds of a
  plain rule if it does of the nodes that it evaluates (`Rule.run_growth`), and so of a tree (`Expr.eval_growth`).
* `Expr.events_bracketed`, `Expr.suppressed_origin` and `Expr.events_sum_body` are about all records, the
  record of a failure that was suppressed, and the records of a sum.
* `Expr.events_trace` is the main statement.
-/

namespace Formula

/-! ## 1. Brackets -/

/-- What an event does to the names that are bound for a while, the innermost first. Only the innermost
    can be released. -/
def Event.rebind : Event → List String → Option (List String)
  | bound name _, names => some (name :: names)
  | released _, [] => none
  | released name, innermost :: names => if name = innermost then some names else none
  | _, names => some names

/-- The names that are bound for a while after some events. -/
def stillBound (events : List Event) (names : List String) : Option (List String) :=
  events.foldlM (fun names event => event.rebind names) names

/-- Each release is that of the innermost binding, and in the end all are released. -/
def Bracketed (events : List Event) : Prop := stillBound events [] = some []

instance (events : List Event) : Decidable (Bracketed events) :=
  inferInstanceAs (Decidable (stillBound events [] = some []))

theorem stillBound_append (front back : List Event) (names : List String) :
    stillBound (front ++ back) names = (stillBound front names).bind (stillBound back) :=
  List.foldlM_append

/-- An event does nothing to the names further out than those it needs. -/
theorem Event.rebind_inner : Nesting.Inner Event.rebind := by
  intro event names left h outer
  cases event with
  | released name =>
    cases names with
    | nil => cases h
    | cons innermost names =>
      rw [rebind] at h
      obtain ⟨rfl, hnames⟩ := Option.ite_none_right_eq_some.1 h
      cases hnames
      exact if_pos rfl
  | _ =>
    cases h
    rfl

namespace Bracketed

variable {front back inside : List Event}

/-- Bracketed events leave the names that are bound around them. -/
theorem around (h : Bracketed inside) (names : List String) :
    stillBound inside names = some names :=
  Nesting.run_outer Event.rebind_inner h names

theorem nil : Bracketed [] := rfl

theorem suppressed (failure : Failure) : Bracketed [.suppressed failure] := rfl

theorem append (hfront : Bracketed front) (hback : Bracketed back) : Bracketed (front ++ back) := by
  rw [Bracketed, stillBound_append, hfront]
  exact hback

/-- **A binding and its release around bracketed events.** -/
theorem pair (h : Bracketed inside) (name : String) (value : Float) :
    Bracketed (.bound name value :: (inside ++ [.released name])) := by
  show stillBound (inside ++ [.released name]) [name] = some []
  rw [stillBound_append, h.around]
  simp [stillBound, Event.rebind]

end Bracketed

/-! ## 2. How a record grows -/

/-- A relation between an earlier and a later record that goes on from one part to the next and around a
    scope. -/
structure Growth (R : Log → Log → Prop) : Prop where
  refl : ∀ log, R log log
  trans : ∀ {log middle later}, R log middle → R middle later → R log later
  scope : ∀ {log later name value}, R (.bound name value :: log) later →
    R log (.released name :: later)

section Growth

variable {R : Log → Log → Prop} (hR : Growth R) {angle : Angle}

include hR

/-- **A plain rule lets a record grow as the nodes do that it evaluates.** -/
theorem Rule.run_growth {nodes : List (Rose Node)} {rule : Rule} (hrule : rule.Plain) {s : Scope}
    (h : ∀ path t, Asks angle nodes rule s path t → R t.log (supplied nodes path t).2.log) :
    R s.log (run angle nodes rule s).2.log := by
  induction rule generalizing s with
  | answer outcome => exact hR.refl s.log
  | evaluate path next ih =>
    have hnode := h path s .here
    exact hR.trans hnode (ih _ (hrule _) fun asked t hasks => h asked t (.evaluate hasks))
  | typeset | replace => exact hrule.elim
  | read next ih => exact ih _ (hrule _) fun asked t hasks => h asked t (.read hasks)
  | within name value part next ihpart ihnext =>
    have hpart := ihpart hrule.1 fun asked t hasks => h asked t (.part hasks)
    exact hR.trans (hR.scope hpart)
      (ihnext _ (hrule.2 _) fun asked t hasks => h asked t (.after hasks))
  | record event next ih => exact hrule.elim
  | askAngle next ih => exact ih angle (hrule angle) fun asked t hasks => h asked t (.askAngle hasks)

namespace Expr

variable {registry : Registry}

theorem supplied_growth {arguments : List Expr} {path : List Nat} {s : Scope}
    (h : ∀ a, at? arguments path = some a → R s.log (a.eval registry angle s).2.log) :
    R s.log (Rule.supplied (evalAll registry angle arguments) path s).2.log := by
  rw [Rule.supplied, at?_evalAll]
  cases ha : at? arguments path with
  | none => exact hR.refl s.log
  | some a => exact h a ha

variable (hregistry : registry.Reachable)

include hregistry

/-- A `noerr` lets a record grow as its argument does, and then by the failure that it suppresses. -/
theorem eval_noerr_growth {a : Expr} {s : Scope} (ha : R s.log (a.eval registry angle s).2.log)
    (h : ∀ failure t, a.eval registry angle s = (.error failure, t) →
      R t.log (.suppressed failure :: t.log)) :
    R s.log ((call "noerr" [a]).eval registry angle s).2.log := by
  rw [eval_call hregistry.noerr rfl]
  show R s.log (Rule.run angle _ (Builtin.suppress (a.eval registry angle s).1)
    (a.eval registry angle s).2).2.log
  generalize hr : a.eval registry angle s = r at ha ⊢
  obtain ⟨outcome, t⟩ := r
  cases outcome with
  | ok x => exact ha
  | error failure => exact hR.trans ha (h failure t hr)

/-- **The evaluation of a tree lets a record grow**, if each failure that it suppresses does. -/
theorem eval_growth {e : Expr} (he : ∀ name ∈ e.callees, name ∈ Builtin.names) {s : Scope}
    (h : ∀ a t failure u, Executes registry angle e s (call "noerr" [a]) t →
      a.eval registry angle t = (.error failure, u) → R u.log (.suppressed failure :: u.log)) :
    R s.log (e.eval registry angle s).2.log := by
  induction e using inductNodes generalizing s with
  | number value text => rw [eval]; exact hR.refl s.log
  | constant name value => rw [eval]; exact hR.refl s.log
  | var name => rw [eval]; exact hR.refl s.log
  | binary symbol left right ihleft ihright =>
    obtain ⟨hl, hr⟩ := forall_callees_binary.1 he
    cases hop : Operator.find? symbol with
    | none => rw [eval_unknown hop]; exact hR.refl s.log
    | some op =>
      have hleft := ihleft hl fun a t failure u hexecutes => h a t failure u (.left hop hexecutes)
      generalize hr' : (binary symbol left right).eval registry angle s = r
      cases eval_binary hop hr' with
      | left hevaluation =>
        rw [hevaluation] at hleft
        exact hleft
      | @right x failure t u hevaluation hevaluation' | @values x y t u hevaluation hevaluation' =>
        have hright := ihright hr fun a v failure w hexecutes =>
          h a v failure w (.right hop hevaluation hexecutes)
        rw [hevaluation] at hleft
        rw [hevaluation'] at hright
        exact hR.trans hleft hright
  | call name arguments ih =>
    obtain ⟨hname, harguments⟩ := forall_callees_call.1 he
    obtain ⟨function, hfunction, hmem⟩ := hregistry.builtin hname
    by_cases harity : function.arity.accepts arguments.length = true
    · have hasked (path : List Nat) (t : Scope)
          (hasks : Rule.Asks angle (evalAll registry angle arguments) (function.rule arguments) s
            path t) :
          R t.log (Rule.supplied (evalAll registry angle arguments) path t).2.log := by
        refine supplied_growth hR fun a ha => ?_
        exact ih path a ha (forall_callees_at? harguments ha) fun b v failure w hexecutes =>
          h b v failure w (.node hfunction harity hasks ha hexecutes)
      rcases Builtin.plain_or_noerr hmem with ⟨rfl, rfl⟩ | hplain
      · obtain ⟨a, rfl⟩ := List.length_eq_one_iff.1 (eq_of_beq harity)
        have ha := hasked [0] s .here
        rw [supplied_evalAll Nat.one_pos] at ha
        exact eval_noerr_growth hR hregistry ha fun failure t => h a s failure t .self
      · rw [eval_call hfunction harity]
        exact Rule.run_growth hR (hplain arguments) hasked
    · rw [eval, hfunction]
      dsimp only
      rw [if_neg harity]
      exact hR.refl s.log

end Expr

end Growth

/-! ## 3. All records -/

/-- A record that has grown by bracketed events. -/
def Bracketed.Grown (log later : Log) : Prop :=
  ∃ events, Bracketed events ∧ Log.inOrder later = Log.inOrder log ++ events

theorem Bracketed.growth : Growth Bracketed.Grown where
  refl log := ⟨[], .nil, (List.append_nil _).symm⟩
  trans := by
    rintro log middle later ⟨front, hfront, hmiddle⟩ ⟨back, hback, hlater⟩
    refine ⟨front ++ back, hfront.append hback, ?_⟩
    rw [hlater, hmiddle, List.append_assoc]
  scope := by
    rintro log later name value ⟨inside, hinside, hlater⟩
    refine ⟨_, hinside.pair name value, ?_⟩
    change later.reverse = (.bound name value :: log).reverse ++ inside at hlater
    show (Event.released name :: later).reverse = log.reverse ++ _
    rw [List.reverse_cons, hlater]
    simp

/-- A record in which a failure is found to be suppressed only where that is known. -/
def Suppressed.Grown (known : Failure → Log → Prop) (log later : Log) : Prop :=
  ∀ failure before, (.suppressed failure :: before) <:+ later →
    (.suppressed failure :: before) <:+ log ∨ known failure before

theorem Suppressed.growth (known : Failure → Log → Prop) : Growth (Suppressed.Grown known) where
  refl log failure before h := .inl h
  trans := by
    intro log middle later hmiddle hlater failure before h
    exact (hlater failure before h).elim (hmiddle failure before) .inr
  scope := by
    intro log later name value hlater failure before h
    have hbehind {event : Event} (hevent : event ≠ .suppressed failure) {rest : Log}
        (h : (.suppressed failure :: before) <:+ event :: rest) :
        (.suppressed failure :: before) <:+ rest := by
      rcases List.suffix_cons_iff.1 h with heq | hsuffix
      · exact absurd (List.cons.inj heq).1.symm hevent
      · exact hsuffix
    have hinside := hlater failure before (hbehind Event.noConfusion h)
    exact hinside.imp_left (hbehind Event.noConfusion)

namespace Expr

variable {registry : Registry} (hregistry : registry.Reachable) {angle : Angle} {e : Expr}

section Records

variable (he : ∀ name ∈ e.callees, name ∈ Builtin.names) (context : Context)

include hregistry he

/-- **What an evaluation records is bracketed**, on success and on failure. -/
theorem events_bracketed : Bracketed (e.events registry angle context) := by
  have hgrown : Bracketed.Grown [] (e.eval registry angle ⟨context, []⟩).2.log :=
    eval_growth Bracketed.growth hregistry he fun a t failure u _ _ =>
      ⟨[.suppressed failure], .suppressed failure, List.reverse_cons⟩
  obtain ⟨events, hevents, hlog⟩ := hgrown
  rw [Expr.events, hlog]
  exact hevents

/-- **A failure is suppressed right after the evaluation of the argument of a `noerr`.** -/
theorem suppressed_origin {before after : List Event} {failure : Failure}
    (h : e.events registry angle context = before ++ .suppressed failure :: after) :
    ∃ a t, Executes registry angle e ⟨context, []⟩ (call "noerr" [a]) t ∧
      (a.eval registry angle t).1 = .error failure ∧
      before = Log.inOrder t.log ++ a.events registry angle t.context := by
  let known (failure : Failure) (log : Log) : Prop :=
    ∃ a t u, Executes registry angle e ⟨context, []⟩ (call "noerr" [a]) t ∧
      a.eval registry angle t = (.error failure, u) ∧ u.log = log
  have hgrown : Suppressed.Grown known [] (e.eval registry angle ⟨context, []⟩).2.log := by
    refine eval_growth (Suppressed.growth known) hregistry he ?_
    intro a t failure u hexecutes hfailure other log hsuffix
    rcases List.suffix_cons_iff.1 hsuffix with heq | hsuffix
    · cases heq
      exact .inr ⟨a, t, u, hexecutes, hfailure, rfl⟩
    · exact .inl hsuffix
  have hsuffix : (.suppressed failure :: before.reverse) <:+
      (e.eval registry angle ⟨context, []⟩).2.log := by
    rw [← List.reverse_reverse (e.eval registry angle ⟨context, []⟩).2.log]
    change (.suppressed failure :: before.reverse) <:+ (e.events registry angle context).reverse
    rw [h]
    exact ⟨after.reverse, by simp⟩
  rcases hgrown failure before.reverse hsuffix with hnil | ⟨a, t, u, hexecutes, hfailure, hlog⟩
  · exact absurd (List.suffix_nil.1 hnil) (List.cons_ne_nil _ _)
  · refine ⟨a, t, hexecutes, by rw [hfailure], ?_⟩
    rw [← inOrder_eval, hfailure]
    show before = u.log.reverse
    rw [hlog, List.reverse_reverse]

end Records

end Expr

/-! ## 4. The records of a sum -/

namespace Sum

/-- The numbers at which a sum between two bounds evaluates its body. -/
def numbers (first bound : Float) : List Float :=
  terms (Double.truncate first) (count (Double.truncate first) (Double.truncate bound)) 0

/-- **The numbers never go down.** -/
theorem pairwise_numbers {first : Float} (hfirst : Double.isFinite first = true) (bound : Float) :
    (numbers first bound).Pairwise (Double.order · ≤ Double.order ·) ∧
      ∀ x ∈ numbers first bound, Double.isNaN x = false :=
  pairwise_terms (Double.isWhole_truncate hfirst).finite (count_le _ _)

/-- The numbers that a loop passes, and what it comes to: it passes all of them if there is a value at
    each, and otherwise ends with the first at which there is none. -/
inductive Passed (value : Float → Outcome) : List Float → List Float → Outcome → Prop
  | all {numbers : List Float} {total : Float} (h : ∀ x ∈ numbers, ∃ y, value x = .ok y) :
      Passed value numbers numbers (.ok total)
  | failed {before after : List Float} {x : Float} {failure : Failure}
      (hbefore : ∀ y ∈ before, ∃ z, value y = .ok z) (hx : value x = .error failure) :
      Passed value (before ++ x :: after) (before ++ [x]) (.error failure)

theorem Passed.sublist {value : Float → Outcome} {numbers passed : List Float} {outcome : Outcome}
    (h : Passed value numbers passed outcome) : passed.Sublist numbers := by
  cases h with
  | all h => exact List.Sublist.refl _
  | @failed before after x failure hbefore hx =>
    exact (List.Sublist.refl before).append ((List.nil_sublist after).cons_cons x)

theorem Passed.cons {value : Float → Outcome} {numbers passed : List Float} {outcome : Outcome}
    (h : Passed value numbers passed outcome) {x y : Float} (hx : value x = .ok y) :
    Passed value (x :: numbers) (x :: passed) outcome := by
  cases h with
  | all h => exact .all (List.forall_mem_cons.2 ⟨⟨y, hx⟩, h⟩)
  | @failed before after z failure hbefore hz =>
    exact .failed (List.forall_mem_cons.2 ⟨⟨y, hx⟩, hbefore⟩) hz

/-- **A loop visits the numbers that it passes.** -/
theorem passed_visited (value : Float → Outcome) (numbers : List Float) (total : Float) :
    Passed value numbers (visited value numbers) (accumulate value numbers total) := by
  induction numbers generalizing total with
  | nil => exact .all (List.forall_mem_nil _)
  | cons x rest ih =>
    rw [accumulate_cons, visited]
    cases hx : value x with
    | error failure => exact .failed (List.forall_mem_nil _) hx
    | ok y => exact (ih (total + y)).cons hx

end Sum

namespace Expr

variable {registry : Registry}

/-- What the passes of a sum record: each binds the index, evaluates the body, and releases the index. -/
def passEvents (registry : Registry) (angle : Angle) (body : Expr) (context : Context)
    (passed : List Float) : List Event :=
  passed.flatMap fun x => .bound Sum.index x ::
    (body.events registry angle (context.set Sum.index x) ++ [.released Sum.index])

/-- **A sum records what its start does, and then one pair for each number that it passes.** -/
theorem events_sum_body (hregistry : registry.Reachable) {angle : Angle} {start last body : Expr}
    (hcallees : ∀ name ∈ (call "sum" [start, last, body]).callees, name ∈ Builtin.names)
    {s t : Scope} {first bound : Float}
    (h : Sum.bounds (start.eval registry angle) last s = (.ok (first, bound), t)) :
    ∃ passed, (call "sum" [start, last, body]).events registry angle s.context =
        start.events registry angle s.context ++
          passEvents registry angle body s.context passed ∧
      Sum.Passed (Sum.valueAt (body.eval registry angle) s.context) (Sum.numbers first bound) passed
        ((call "sum" [start, last, body]).eval registry angle s).1 := by
  obtain ⟨hlast, hbound, hstart, hfirst⟩ := Sum.bounds_inv h
  have hbuiltin := (forall_callees_call.1 hcallees).2
  have hcontext : t.context = s.context := by
    have hkeeps := keeps_of_builtin hregistry angle (hbuiltin start (by simp)) s
    rw [hstart] at hkeeps
    exact hkeeps
  have hbefore := inOrder_eval registry angle start s
  have hafter := inOrder_eval registry angle (call "sum" [start, last, body]) s
  obtain ⟨houtcome, hlog, -⟩ :=
    eval_sum_body hregistry (hbuiltin body (by simp)) hstart hfirst hlast hbound
  rw [hstart] at hbefore
  rw [hcontext] at hlog houtcome
  refine ⟨_, ?_, houtcome ▸ Sum.passed_visited _ _ _⟩
  rw [hlog, hbefore, List.append_assoc] at hafter
  exact (List.append_cancel_left hafter).symm

/-! ## 5. The trace of an evaluation -/

/-- **The trace of an evaluation is well bracketed.** Bindings and releases come in pairs. A sum that is
    executed anywhere on the way and finds its bounds has, behind the records of its start, one pair of
    its own for each number that it passes, and these numbers never go down. A failure is suppressed
    only when all that was bound in the argument of that `noerr` is released. -/
theorem events_trace (hregistry : registry.Reachable) (angle : Angle) {e : Expr}
    (he : ∀ name ∈ e.callees, name ∈ Builtin.names) (context : Context) :
    let events := e.events registry angle context
    Bracketed events ∧
      (∀ start last body t u first bound,
        Executes registry angle e ⟨context, []⟩ (call "sum" [start, last, body]) t →
        Sum.bounds (start.eval registry angle) last t = (.ok (first, bound), u) →
        ∃ passed after,
          events = Log.inOrder t.log ++ (start.events registry angle t.context ++
            passEvents registry angle body t.context passed) ++ after ∧
          Bracketed (start.events registry angle t.context) ∧
          (∀ x, Bracketed (body.events registry angle (t.context.set Sum.index x))) ∧
          Sum.Passed (Sum.valueAt (body.eval registry angle) t.context) (Sum.numbers first bound)
            passed ((call "sum" [start, last, body]).eval registry angle t).1 ∧
          passed.Pairwise (Double.order · ≤ Double.order ·) ∧
          ∀ x ∈ passed, Double.isNaN x = false) ∧
      ∀ before failure after, events = before ++ .suppressed failure :: after →
        ∃ a t, Executes registry angle e ⟨context, []⟩ (call "noerr" [a]) t ∧
          (a.eval registry angle t).1 = .error failure ∧
          before = Log.inOrder t.log ++ a.events registry angle t.context ∧
          Bracketed (a.events registry angle t.context) := by
  intro events
  refine ⟨events_bracketed hregistry he context, ?_, ?_⟩
  · intro start last body t u first bound hexecutes hbounds
    have hcallees : ∀ name ∈ (call "sum" [start, last, body]).callees, name ∈ Builtin.names :=
      fun name hname => he name (hexecutes.callees hname)
    have hbuiltin := (forall_callees_call.1 hcallees).2
    obtain ⟨passed, hevents, hpassed⟩ := events_sum_body hregistry hcallees hbounds
    obtain ⟨after, hsegment⟩ := hexecutes.segment
    obtain ⟨-, -, -, hfirst⟩ := Sum.bounds_inv hbounds
    obtain ⟨horder, hnumbers⟩ := Sum.pairwise_numbers hfirst bound
    rw [hevents] at hsegment
    refine ⟨passed, after, hsegment, ?_, ?_, hpassed, horder.sublist hpassed.sublist, ?_⟩
    · exact events_bracketed hregistry (hbuiltin start (by simp)) t.context
    · exact fun x => events_bracketed hregistry (hbuiltin body (by simp)) _
    · exact fun x hx => hnumbers x (hpassed.sublist.subset hx)
  · intro before failure after hevents
    obtain ⟨a, t, hexecutes, hfailure, hbefore⟩ := suppressed_origin hregistry he context hevents
    have hcallees : ∀ name ∈ (call "noerr" [a]).callees, name ∈ Builtin.names :=
      fun name hname => he name (hexecutes.callees hname)
    have ha := (forall_callees_call.1 hcallees).2 a (by simp)
    exact ⟨a, t, hexecutes, hfailure, hbefore, events_bracketed hregistry ha t.context⟩

/-- The tree of `1/(2-#i)`, which divides by zero at two. -/
def gap : Expr :=
  .binary '/' (.number 1.0 "1") (.binary '-' (.number 2.0 "2") (.var "#i"))

/-- The tree of `noerr(sum(1,2,1/(2-#i)))+1/(2-#i)`. -/
def guardedGap : Expr :=
  .binary '+' (.call "noerr" [.call "sum" [.number 1.0 "1", .number 2.0 "2", gap]]) gap

/-- The tree of `sum(1,3,noerr(sum(1,2,1/(2-#i)))+1/(2-#i))`. -/
def guardedGaps : Expr := .call "sum" [.number 1.0 "1", .number 3.0 "3", guardedGap]

theorem events_guardedGaps :
    guardedGaps.events .standard .radians .empty =
      [.bound "#i" 1.0, .bound "#i" 1.0, .released "#i", .bound "#i" 2.0, .released "#i",
        .suppressed (.divisionByZero 1.0), .released "#i",
        .bound "#i" 2.0, .bound "#i" 1.0, .released "#i", .bound "#i" 2.0, .released "#i",
        .suppressed (.divisionByZero 1.0), .released "#i"] := by
  decide +kernel

/-- The outer sum fails at its second number, each inner one before it at its own second number. -/
theorem events_trace_guardedGaps :
    (∀ name ∈ guardedGaps.callees, name ∈ Builtin.names) ∧
      let s : Scope := ⟨.empty, []⟩
      let events := guardedGaps.events .standard .radians .empty
      Bracketed events ∧
        (∃ passed after, events = passEvents .standard .radians guardedGap .empty passed ++ after ∧
          Sum.Passed (Sum.valueAt (guardedGap.eval .standard .radians) .empty)
            (Sum.numbers 1.0 3.0) passed (guardedGaps.eval .standard .radians s).1) ∧
        ∃ a t, Executes .standard .radians guardedGaps s (.call "noerr" [a]) t ∧
          Log.inOrder t.log ++ a.events .standard .radians t.context =
            [.bound "#i" 1.0, .bound "#i" 1.0, .released "#i", .bound "#i" 2.0, .released "#i"] := by
  have he : ∀ name ∈ guardedGaps.callees, name ∈ Builtin.names := by decide
  have hbounds : Sum.bounds ((number 1.0 "1").eval .standard .radians) (.number 3.0 "3")
      ⟨.empty, []⟩ = (.ok (1.0, 3.0), ⟨.empty, []⟩) :=
    Sum.bounds_ok rfl (by decide +kernel) rfl (by decide +kernel)
  obtain ⟨hbracketed, hsums, hsuppressed⟩ :=
    events_trace Registry.reachable_standard .radians he .empty
  obtain ⟨passed, after, hevents, -, -, hpassed, -⟩ := hsums _ _ _ _ _ _ _ .self hbounds
  obtain ⟨a, t, hexecutes, -, hbefore, -⟩ := hsuppressed
    [.bound "#i" 1.0, .bound "#i" 1.0, .released "#i", .bound "#i" 2.0, .released "#i"] _ _
    events_guardedGaps
  exact ⟨he, hbracketed, ⟨passed, after, hevents, hpassed⟩, a, t, hexecutes, hbefore.symm⟩

end Expr

end Formula
