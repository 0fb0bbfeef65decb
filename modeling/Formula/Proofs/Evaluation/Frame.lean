import Formula.Proofs.Function.Plain
import Formula.Proofs.Registry.Growth
import Formula.Proofs.Tree.Basic

/-!
# Evaluation leaves the variables alone

A rule that never replaces the variables is tidy (`Rule.Tidy`): it may look at them, and it changes them only
by evaluating nodes of its arguments and by binding a name for a while. Where the nodes leave the variables
alone, so does a tidy rule, on success and on failure, because a scope gives back what its binding
covered.

* `Rule.run_context` is the step: one rule, on any nodes that keep the variables.
* `Builtin.tidy`: every builtin function is tidy, whatever its arguments.
* `Expr.eval_context` is the main statement, by induction on the tree.
-/

namespace Formula

/-! ## 1. Tidy rules -/

namespace Rule

/-- A rule that binds names only for a while. -/
def Tidy : Rule → Prop
  | answer _ => True
  | evaluate _ next => ∀ outcome, (next outcome).Tidy
  | typeset _ next => ∀ text, (next text).Tidy
  | read next => ∀ context, (next context).Tidy
  | replace _ _ => False
  | within _ _ part next => part.Tidy ∧ ∀ outcome, (next outcome).Tidy
  | record _ next => next.Tidy
  | askAngle next => ∀ angle, (next angle).Tidy

/-- What leaves the variables as it finds them, an evaluation or a typesetting. -/
def Keeps {α : Type} (action : Scope → α × Scope) : Prop := ∀ s, (action s).2.context = s.context

/-- A node that leaves the variables alone. -/
structure KeptBy (node : Node) : Prop where
  evaluate : Keeps node.evaluate
  typeset : Keeps node.typeset

variable {nodes : List (Rose Node)}

theorem supplied_keeps (h : Rose.All KeptBy nodes) (path : List Nat) : Keeps (supplied nodes path) :=
  supplied_of_all (fun path node hnode => (h path node hnode).evaluate) (fun _ _ => rfl) path

theorem shown_keeps (h : Rose.All KeptBy nodes) (path : List Nat) : Keeps (shown nodes path) :=
  shown_of_all (fun path node hnode => (h path node hnode).typeset) (fun _ _ => rfl) path

/-- A part of a rule that leaves the variables alone does so under a binding that is released after it:
    what the part leaves is the binding itself, and releasing it gives back the covered value. -/
theorem Keeps.released {part : Evaluation} (h : Keeps part) (name : String) (value : Float)
    (s : Scope) :
    ((part (s.bind name value)).2.release name (s.context.get? name)).context = s.context := by
  rw [Scope.context_release, h (s.bind name value), Scope.context_bind, Context.restore_set]

/-- **A tidy rule leaves the variables alone if the nodes do.** -/
theorem run_context {angle : Angle} (h : Rose.All KeptBy nodes) {rule : Rule} (hrule : rule.Tidy) :
    Keeps (run angle nodes rule) := by
  induction rule with
  | answer outcome => exact fun s => rfl
  | evaluate path next ih =>
    intro s
    exact (ih _ (hrule _) _).trans (supplied_keeps h path s)
  | typeset path next ih =>
    intro s
    exact (ih _ (hrule _) _).trans (shown_keeps h path s)
  | read next ih => exact fun s => ih s.context (hrule s.context) s
  | replace context next ih => exact hrule.elim
  | within name value part next ihpart ihnext =>
    intro s
    have hpart : Keeps (run angle nodes part) := ihpart hrule.1
    exact (ihnext _ (hrule.2 _) _).trans (hpart.released name value s)
  | record event next ih => exact fun s => ih hrule (s.record event)
  | askAngle next ih => exact fun s => ih angle (hrule angle) s

/-- A plain rule is tidy. -/
theorem Plain.tidy {rule : Rule} (h : rule.Plain) : rule.Tidy := by
  induction rule with
  | answer outcome => trivial
  | evaluate path next ih => exact fun outcome => ih outcome (h outcome)
  | typeset path next ih => exact h.elim
  | read next ih => exact fun context => ih context (h context)
  | replace context next ih => exact h.elim
  | within name value part next ihpart ihnext =>
    exact ⟨ihpart h.1, fun outcome => ihnext outcome (h.2 outcome)⟩
  | record event next ih => exact h.elim
  | askAngle next ih => exact fun angle => ih angle (h angle)

end Rule

/-- A function whose rule is tidy for all arguments. -/
def Function.Tidy (function : Function) : Prop := ∀ arguments, (function.rule arguments).Tidy

/-! ## 2. Builtin functions -/

namespace Builtin

theorem tidy_suppress (outcome : Outcome) : (suppress outcome).Tidy := by
  cases outcome with
  | ok x => trivial
  | error failure => trivial

theorem tidy_noerr (arguments : List Expr) : (noerr arguments).Tidy := by
  unfold noerr
  split
  · exact tidy_suppress
  · trivial

/-- **Every builtin function is tidy.** -/
theorem tidy {name : String} {function : Function} (h : (name, function) ∈ table) :
    function.Tidy := by
  intro arguments
  rcases plain_or_noerr h with ⟨-, rfl⟩ | hplain
  · exact tidy_noerr arguments
  · exact (hplain arguments).tidy

end Builtin

/-! ## 3. Trees -/

theorem Latex.typeset_keeps (registry : Registry) (e : Expr) : Rule.Keeps (typeset registry e) :=
  fun s => s.context_recordUntypeset _

namespace Expr

/-- A tree that calls builtin functions, names without a function, and functions with tidy rules. -/
def CallsTidy (registry : Registry) (e : Expr) : Prop :=
  ∀ name ∈ e.callees, name ∈ Builtin.names ∨
    ∀ function, registry.function? name = some function → function.Tidy

theorem tidy_callee {registry : Registry} (hregistry : registry.Reachable) {name : String}
    (h : name ∈ Builtin.names ∨ ∀ function, registry.function? name = some function →
      function.Tidy) {function : Function} (hfunction : registry.function? name = some function) :
    function.Tidy := by
  rcases h with hbuiltin | htidy
  · obtain ⟨builtin, hlookup, hmem⟩ := hregistry.builtin hbuiltin
    rw [hfunction] at hlookup
    cases hlookup
    exact Builtin.tidy hmem
  · exact htidy function hfunction

theorem eval_keeps {registry : Registry} (hregistry : registry.Reachable) (angle : Angle) (e : Expr)
    (he : e.CallsTidy registry) : Rule.Keeps (e.eval registry angle) := by
  induction e using inductNodes with
  | number value text => intro s; rw [eval]
  | constant name value => intro s; rw [eval]
  | var name => intro s; rw [eval]
  | binary symbol left right ihleft ihright =>
    obtain ⟨hl, hr⟩ := forall_callees_binary.1 he
    intro s
    cases hop : Operator.find? symbol with
    | none => rw [eval_unknown hop]
    | some op =>
      have hleft := ihleft hl s
      generalize h : (binary symbol left right).eval registry angle s = r
      cases eval_binary hop h with
      | left hevaluation =>
        rw [hevaluation] at hleft
        exact hleft
      | @right x failure t u hevaluation hevaluation' | @values x y t u hevaluation hevaluation' =>
        have hright := ihright hr t
        rw [hevaluation] at hleft
        rw [hevaluation'] at hright
        exact hright.trans hleft
  | call name arguments ih =>
    obtain ⟨hname, harguments⟩ := forall_callees_call.1 he
    have hkeeps : Rose.All Rule.KeptBy (evalAll registry angle arguments) :=
      all_evalAll fun path a ha =>
        ⟨ih path a ha (forall_callees_at? harguments ha), Latex.typeset_keeps registry a⟩
    intro s
    rw [eval]
    split
    · rfl
    · rename_i function hfunction
      split
      · exact Rule.run_context hkeeps (tidy_callee hregistry hname hfunction arguments) s
      · rfl

/-- A tree that calls builtin functions leaves the variables alone. -/
theorem keeps_of_builtin {registry : Registry} (hregistry : registry.Reachable) (angle : Angle)
    {e : Expr} (he : ∀ name ∈ e.callees, name ∈ Builtin.names) :
    Rule.Keeps (e.eval registry angle) :=
  eval_keeps hregistry angle e fun name hname => .inl (he name hname)

/-- So do all nodes of arguments that call builtin functions. -/
theorem keptBy_of_builtin {registry : Registry} (hregistry : registry.Reachable) (angle : Angle)
    {arguments : List Expr} (h : ∀ a ∈ arguments, ∀ name ∈ a.callees, name ∈ Builtin.names) :
    Rose.All Rule.KeptBy (evalAll registry angle arguments) :=
  all_evalAll fun _ a ha =>
    ⟨keeps_of_builtin hregistry angle (forall_callees_at? h ha), Latex.typeset_keeps registry a⟩

/-- **Evaluation ends with the variables that it began with**, whatever its outcome, and so does an
    evaluation under `noerr`, which goes on after a failure. -/
theorem eval_context {registry : Registry} (hregistry : registry.Reachable) (angle : Angle)
    {e : Expr} (he : e.CallsTidy registry) (s : Scope) :
    (e.eval registry angle s).2.context = s.context ∧
      ((Expr.call "noerr" [e]).eval registry angle s).2.context = s.context := by
  refine ⟨eval_keeps hregistry angle e he s, eval_keeps hregistry angle _ ?_ s⟩
  refine forall_callees_call.2 ⟨.inl (by decide), fun a ha => ?_⟩
  rw [List.mem_singleton.1 ha]
  exact he

/-- A sum whose body divides by zero at its second index. -/
def failingSum : Expr :=
  .call "sum" [.number 1.0 "1", .number 3.0 "3",
    .binary '/' (.number 1.0 "1") (.binary '-' (.var "#i") (.number 2.0 "2"))]

/-- A sum that fails gives the index back to the one who had bound it. -/
theorem eval_context_failingSum :
    Expr.CallsTidy .standard failingSum ∧
      let s : Scope := ⟨.ofList [("#i", 9.0)], []⟩
      (failingSum.eval .standard .radians s).2.context = s.context ∧
        ((Expr.call "noerr" [failingSum]).eval .standard .radians s).2.context = s.context := by
  have he : Expr.CallsTidy .standard failingSum := by
    intro name hname
    rw [List.mem_singleton.1 hname]
    exact .inl (by decide)
  exact ⟨he, eval_context Registry.reachable_standard .radians he _⟩

end Expr

end Formula
