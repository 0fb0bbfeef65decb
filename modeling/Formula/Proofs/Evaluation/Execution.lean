import Formula.Proofs.Evaluation.Record

/-!
# What is evaluated on the way

A function evaluates the nodes of its arguments as often as it likes, so the evaluation of a tree is made of
any number of evaluations of its parts.

* `Rule.Asks`: a rule evaluates a node in some scope on the way.
* `Expr.Executes`: the evaluation of a tree evaluates a part of it in some scope on the way.
* `Expr.events` lists what the evaluation of a tree records.
* `Executes.suffix` is the step: what was recorded when a part begins is still there when it ends, and
  what is there when it ends is there in the end. `Executes.segment` says so of the events in order.
-/

namespace Formula

/-! ## 1. Evaluations of nodes -/

namespace Rule

variable {angle : Angle} {nodes : List (Rose Node)}

/-- The rule, carried out in a scope, evaluates the node at a path in another. -/
inductive Asks (angle : Angle) (nodes : List (Rose Node)) :
    Rule → Scope → List Nat → Scope → Prop
  | here {path : List Nat} {next : Outcome → Rule} {s : Scope} :
      Asks angle nodes (evaluate path next) s path s
  | evaluate {path asked : List Nat} {next : Outcome → Rule} {s u : Scope} :
      Asks angle nodes (next (supplied nodes path s).1) (supplied nodes path s).2 asked u →
      Asks angle nodes (evaluate path next) s asked u
  | typeset {path asked : List Nat} {next : String → Rule} {s u : Scope} :
      Asks angle nodes (next (shown nodes path s).1) (shown nodes path s).2 asked u →
      Asks angle nodes (typeset path next) s asked u
  | read {next : Context → Rule} {s u : Scope} {asked : List Nat} :
      Asks angle nodes (next s.context) s asked u → Asks angle nodes (read next) s asked u
  | replace {context : Context} {next : Rule} {s u : Scope} {asked : List Nat} :
      Asks angle nodes next { s with context } asked u →
      Asks angle nodes (replace context next) s asked u
  | part {name : String} {value : Float} {part : Rule} {next : Outcome → Rule} {s u : Scope}
      {asked : List Nat} :
      Asks angle nodes part (s.bind name value) asked u →
      Asks angle nodes (within name value part next) s asked u
  | after {name : String} {value : Float} {part : Rule} {next : Outcome → Rule} {s u : Scope}
      {asked : List Nat} :
      Asks angle nodes (next (run angle nodes part (s.bind name value)).1)
        ((run angle nodes part (s.bind name value)).2.release name (s.context.get? name)) asked u →
      Asks angle nodes (within name value part next) s asked u
  | record {event : Event} {next : Rule} {s u : Scope} {asked : List Nat} :
      Asks angle nodes next (s.record event) asked u →
      Asks angle nodes (record event next) s asked u
  | askAngle {next : Angle → Rule} {s u : Scope} {asked : List Nat} :
      Asks angle nodes (next angle) s asked u → Asks angle nodes (askAngle next) s asked u

/-- What only adds to the record keeps what is there. -/
theorem Records.suffix {α : Type} {action : Scope → α × Scope} (h : Records action) (s : Scope) :
    s.log <:+ (action s).2.log := by
  have hrecords := h ⟨s.context, []⟩ s.log
  change action s = _ at hrecords
  rw [hrecords]
  exact List.suffix_append _ _

/-- **What is recorded around the evaluation of a node.** -/
theorem Asks.suffix (h : Rose.All RecordedBy nodes) {rule : Rule} {s u : Scope} {asked : List Nat}
    (hasks : Asks angle nodes rule s asked u) :
    s.log <:+ u.log ∧ (supplied nodes asked u).2.log <:+ (run angle nodes rule s).2.log := by
  have hrun (rule : Rule) (s : Scope) : s.log <:+ (run angle nodes rule s).2.log :=
    (run_records h rule).suffix s
  induction hasks with
  | here => exact ⟨List.suffix_rfl, hrun _ _⟩
  | @evaluate path asked next s u _ ih =>
    exact ⟨((supplied_records h path).suffix s).trans ih.1, ih.2⟩
  | @typeset path asked next s u _ ih =>
    exact ⟨((shown_records h path).suffix s).trans ih.1, ih.2⟩
  | read _ ih => exact ih
  | replace _ ih => exact ih
  | @part name value part next s u asked _ ih =>
    let r := run angle nodes part (s.bind name value)
    have hnext := hrun (next r.1) (r.2.release name (s.context.get? name))
    exact ⟨(List.suffix_cons _ _).trans ih.1, ih.2.trans ((List.suffix_cons _ _).trans hnext)⟩
  | @after name value part next s u asked _ ih =>
    refine ⟨((List.suffix_cons _ _).trans (hrun part (s.bind name value))).trans ?_, ih.2⟩
    exact (List.suffix_cons _ _).trans ih.1
  | record _ ih => exact ⟨(List.suffix_cons _ _).trans ih.1, ih.2⟩
  | askAngle _ ih => exact ih

end Rule

/-! ## 2. Evaluations of parts -/

namespace Expr

variable {registry : Registry} {angle : Angle} {e f : Expr} {s t : Scope}

/-- The evaluation of a tree in a scope evaluates another tree in another scope. -/
inductive Executes (registry : Registry) (angle : Angle) : Expr → Scope → Expr → Scope → Prop
  | self {e : Expr} {s : Scope} : Executes registry angle e s e s
  | left {symbol : Char} {op : Operator} {left right f : Expr} {s t : Scope}
      (hop : Operator.find? symbol = some op) :
      Executes registry angle left s f t →
      Executes registry angle (binary symbol left right) s f t
  | right {symbol : Char} {op : Operator} {left right f : Expr} {s t u : Scope} {x : Float}
      (hop : Operator.find? symbol = some op) (hleft : left.eval registry angle s = (.ok x, u)) :
      Executes registry angle right u f t →
      Executes registry angle (binary symbol left right) s f t
  | node {name : String} {function : Function} {arguments : List Expr} {a f : Expr}
      {s t u : Scope} {path : List Nat} (hfunction : registry.function? name = some function)
      (harity : function.arity.accepts arguments.length = true)
      (hasks : Rule.Asks angle (evalAll registry angle arguments) (function.rule arguments) s path u)
      (ha : at? arguments path = some a) :
      Executes registry angle a u f t → Executes registry angle (call name arguments) s f t

/-- A part calls what the whole calls. -/
theorem Executes.callees (h : Executes registry angle e s f t) : f.callees ⊆ e.callees := by
  induction h with
  | self => exact List.Subset.refl _
  | left _ _ ih => exact List.subset_append_of_subset_left _ ih
  | right _ _ _ ih => exact List.subset_append_of_subset_right _ ih
  | @node name function arguments a f s t u path _ _ _ ha _ ih =>
    intro called hcalled
    have hnode : ∀ other ∈ a.callees, other ∈ (call name arguments).callees :=
      forall_callees_at? (forall_callees_call.1 fun _ hother => hother).2 ha
    exact hnode called (ih hcalled)

theorem all_evalAll_records (registry : Registry) (angle : Angle) (arguments : List Expr) :
    Rose.All Rule.RecordedBy (evalAll registry angle arguments) :=
  all_evalAll fun _ a _ => ⟨eval_records registry angle a, Latex.typeset_records registry a⟩

/-- **What is recorded around the evaluation of a part.** -/
theorem Executes.suffix (h : Executes registry angle e s f t) :
    s.log <:+ t.log ∧ (f.eval registry angle t).2.log <:+ (e.eval registry angle s).2.log := by
  have hadds (e : Expr) (s : Scope) : s.log <:+ (e.eval registry angle s).2.log :=
    (eval_records registry angle e).suffix s
  induction h with
  | self => exact ⟨List.suffix_rfl, List.suffix_rfl⟩
  | @left symbol op left right f s t hop _ ih =>
    refine ⟨ih.1, ih.2.trans ?_⟩
    generalize hr : (binary symbol left right).eval registry angle s = r
    cases eval_binary hop hr with
    | left hleft => exact hleft ▸ List.suffix_rfl
    | @right x failure u v hleft hright | @values x y u v hleft hright =>
      have hafter := hadds right u
      rw [hright] at hafter
      rw [hleft]
      exact hafter
  | @right symbol op left right f s t u x hop hleft _ ih =>
    have hbefore := hadds left s
    rw [hleft] at hbefore
    refine ⟨hbefore.trans ih.1, ih.2.trans ?_⟩
    generalize hr : (binary symbol left right).eval registry angle s = r
    cases eval_binary hop hr with
    | left hfailure => rw [hleft] at hfailure; cases hfailure
    | right hvalue hright | values hvalue hright =>
      rw [hleft] at hvalue
      cases hvalue
      exact hright ▸ List.suffix_rfl
  | @node name function arguments a f s t u path hfunction harity hasks ha _ ih =>
    obtain ⟨hbefore, hafter⟩ := hasks.suffix (all_evalAll_records registry angle arguments)
    rw [supplied_at? ha] at hafter
    rw [eval_call hfunction harity]
    exact ⟨hbefore.trans ih.1, ih.2.trans hafter⟩

/-! ## 3. Events in order -/

/-- What the evaluation of a tree with some variables records, in order. -/
def events (registry : Registry) (angle : Angle) (e : Expr) (context : Context) : List Event :=
  Log.inOrder (e.eval registry angle ⟨context, []⟩).2.log

/-- **What is there after an evaluation is what was there before it, and then its events.** -/
theorem inOrder_eval (registry : Registry) (angle : Angle) (e : Expr) (s : Scope) :
    Log.inOrder (e.eval registry angle s).2.log =
      Log.inOrder s.log ++ e.events registry angle s.context := by
  have hrecords := eval_records registry angle e ⟨s.context, []⟩ s.log
  change e.eval registry angle s = _ at hrecords
  rw [hrecords, events]
  exact List.reverse_append

/-- **The events of a part are an uninterrupted piece of the events of the whole.** -/
theorem Executes.segment {context : Context} (h : Executes registry angle e ⟨context, []⟩ f t) :
    ∃ after, e.events registry angle context =
      Log.inOrder t.log ++ f.events registry angle t.context ++ after := by
  obtain ⟨after, hafter⟩ := h.suffix.2
  refine ⟨Log.inOrder after, ?_⟩
  rw [← inOrder_eval, events, ← hafter]
  exact List.reverse_append

end Expr

end Formula
