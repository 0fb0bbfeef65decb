import Formula.Proofs.Tree.Basic

/-!
# What an evaluation records

An evaluation adds events to the record it finds. It never looks at that record, so an earlier record
changes neither the outcome nor the variables nor the events that are added.

* `Scope.onto`: a scope with an earlier record behind its own.
* `Rule.Records`: what only adds to the record.
* `Rule.run_records` is the step, for one rule on any nodes; `Expr.eval_records` is the induction
  on the tree. Functions that were registered are no exception.
-/

namespace Formula

/-- A scope with an earlier record behind its own. -/
def Scope.onto (s : Scope) (earlier : Log) : Scope := { s with log := s.log ++ earlier }

namespace Rule

/-- What only adds to the record, an evaluation or a typesetting. -/
def Records {α : Type} (action : Scope → α × Scope) : Prop :=
  ∀ s earlier, action (s.onto earlier) = ((action s).1, (action s).2.onto earlier)

/-- A node that only adds to the record. -/
structure RecordedBy (node : Node) : Prop where
  evaluate : Records node.evaluate
  typeset : Records node.typeset

variable {nodes : List (Rose Node)}

theorem supplied_records (h : Rose.All RecordedBy nodes) (path : List Nat) :
    Records (supplied nodes path) :=
  supplied_of_all (fun path node hnode => (h path node hnode).evaluate) (fun _ _ _ => rfl) path

theorem shown_records (h : Rose.All RecordedBy nodes) (path : List Nat) :
    Records (shown nodes path) :=
  shown_of_all (fun path node hnode => (h path node hnode).typeset) (fun _ _ _ => rfl) path

/-- **A rule only adds to the record if the nodes do.** -/
theorem run_records {angle : Angle} (h : Rose.All RecordedBy nodes) (rule : Rule) :
    Records (run angle nodes rule) := by
  induction rule with
  | answer outcome => exact fun s earlier => rfl
  | evaluate path next ih =>
    intro s earlier
    show run angle nodes (next (supplied nodes path (s.onto earlier)).1) _ = _
    rw [supplied_records h path s earlier]
    exact ih _ _ earlier
  | typeset path next ih =>
    intro s earlier
    show run angle nodes (next (shown nodes path (s.onto earlier)).1) _ = _
    rw [shown_records h path s earlier]
    exact ih _ _ earlier
  | read next ih => exact fun s earlier => ih s.context s earlier
  | replace context next ih => exact fun s earlier => ih { s with context } earlier
  | within name value part next ihpart ihnext =>
    intro s earlier
    let r := run angle nodes part (s.bind name value)
    have hpart := ihpart (s.bind name value) earlier
    show run angle nodes (next (run angle nodes part ((s.bind name value).onto earlier)).1)
      ((run angle nodes part ((s.bind name value).onto earlier)).2.release _ _) = _
    rw [hpart]
    exact ihnext r.1 (r.2.release name (s.context.get? name)) earlier
  | record event next ih => exact fun s earlier => ih (s.record event) earlier
  | askAngle next ih => exact fun s earlier => ih angle s earlier

end Rule

theorem Latex.typeset_records (registry : Registry) (e : Expr) :
    Rule.Records (typeset registry e) := by
  have hnames (names : List String) (s : Scope) (earlier : Log) :
      (s.onto earlier).recordUntypeset names = (s.recordUntypeset names).onto earlier := by
    unfold Scope.recordUntypeset
    induction names generalizing s with
    | nil => rfl
    | cons name names ih => exact ih (s.record (.untypeset name))
  exact fun s earlier => congrArg (Prod.mk _) (hnames _ s earlier)

/-- **Evaluation only adds to the record**, whatever functions are called. -/
theorem Expr.eval_records (registry : Registry) (angle : Angle) (e : Expr) :
    Rule.Records (e.eval registry angle) := by
  induction e using inductNodes with
  | number value text => intro s earlier; rw [eval, eval]
  | constant name value => intro s earlier; rw [eval, eval]
  | var name => intro s earlier; rw [eval, eval]; rfl
  | binary symbol left right ihleft ihright =>
    intro s earlier
    cases hop : Operator.find? symbol with
    | none => rw [eval_unknown hop, eval_unknown hop]
    | some op =>
      have hleft := ihleft s earlier
      generalize h : (binary symbol left right).eval registry angle s = r
      cases eval_binary hop h with
      | left hevaluation =>
        rw [hevaluation] at hleft
        simp only [eval, hop, hleft]
      | @right x failure t u hevaluation hevaluation' | @values x y t u hevaluation hevaluation' =>
        have hright := ihright t earlier
        rw [hevaluation] at hleft
        rw [hevaluation'] at hright
        simp only [eval, hop, hleft, hright]
  | call name arguments ih =>
    have hnodes : Rose.All Rule.RecordedBy (evalAll registry angle arguments) :=
      all_evalAll fun path a ha => ⟨ih path a ha, Latex.typeset_records registry a⟩
    intro s earlier
    rw [eval, eval]
    split
    · rfl
    · rename_i function _
      split
      · exact Rule.run_records hnodes (function.rule arguments) s earlier
      · rfl

end Formula
