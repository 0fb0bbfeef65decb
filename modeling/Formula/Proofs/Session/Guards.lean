import Formula.Proofs.Tree.Basic
import Formula.Session.Request

/-!
# Bindings for a while

A name can be bound for as long as some requests run, and a rule can bind a name while a part of it runs.
Both are guards: they are opened and closed, and whatever happens in between, to their name too, the
name has its earlier binding again in the end, while all other names stay as they were left.

* `Moment` is the opening or the closing of a guard, with the binding of its name that is observed on
  the outside. `Request.moments` lists the moments of a request as it runs, with those of the trees
  that it evaluates and of the rules that these call.
* `Unwinds`: each closing is that of the guard opened last, and gives back what this guard covered.
* `Rule.run_within` and `Rule.get?_run_within` are about one guard in a rule, as `Rule.run` carries it out.
* `Rule.moments_nested` is one rule on any nodes, `Expr.moments_nested` a tree, and
  `Request.moments_nested` the induction on requests in requests.
* `Request.answer_bind_restores` is the main statement.
-/

namespace Formula

/-! ## 1. Moments -/

/-- The opening of a guard, with the binding of its name right before it, or the closing of one, with
    the binding of its name right after it. -/
inductive Moment
  | opened (name : String) (before : Option Float)
  | closed (name : String) (after : Option Float)

/-- What moments do to the guards that are open. The innermost is the first, and each has with it what
    its name was bound to outside of it. -/
inductive Unwinds : List (String × Option Float) → List Moment → List (String × Option Float) → Prop
  | done {guards : List (String × Option Float)} : Unwinds guards [] guards
  | opened {guards left : List (String × Option Float)} {name : String} {before : Option Float}
      {rest : List Moment} :
      Unwinds ((name, before) :: guards) rest left →
      Unwinds guards (.opened name before :: rest) left
  | closed {guards left : List (String × Option Float)} {name : String} {before : Option Float}
      {rest : List Moment} :
      Unwinds guards rest left →
      Unwinds ((name, before) :: guards) (.closed name before :: rest) left

theorem Unwinds.append {guards middle left : List (String × Option Float)}
    {front back : List Moment} (hfront : Unwinds guards front middle)
    (hback : Unwinds middle back left) : Unwinds guards (front ++ back) left := by
  induction hfront with
  | done => exact hback
  | opened _ ih => exact .opened (ih hback)
  | closed _ ih => exact .closed (ih hback)

/-- All guards that are opened are closed again, inside of those that are open before. -/
def Nested (moments : List Moment) : Prop := ∀ guards, Unwinds guards moments guards

namespace Nested

theorem nil : Nested [] := fun _ => .done

theorem append {front back : List Moment} (hfront : Nested front) (hback : Nested back) :
    Nested (front ++ back) :=
  fun guards => (hfront guards).append (hback guards)

/-- **A guard around nested moments**, which gives back what it covered. -/
theorem guard {inner : List Moment} (hinner : Nested inner) {name : String}
    {before after : Option Float} (h : after = before) :
    Nested (.opened name before :: (inner ++ [.closed name after])) := by
  intro guards
  subst h
  exact .opened ((hinner _).append (.closed .done))

end Nested

/-! ## 2. Guards of rules -/

/-- **The context after a guard is what was left inside**, but for the name of the guard. -/
theorem Scope.get?_release (s : Scope) (name other : String) (earlier : Option Float) :
    (s.release name earlier).context.get? other =
      if other = name then earlier else s.context.get? other := by
  simp only [context_release, Context.get?_restore, eq_comm]

/-- What is watched of a node: the moments of its evaluation. -/
abbrev Watch := Scope → List Moment

namespace Rule

variable {angle : Angle} {nodes : List (Rose Node)}

/-- **A rule goes on from where its guard left off**: what comes behind a guard is run as if the guard had
    been a rule of its own. -/
theorem run_within (name : String) (value : Float) (part : Rule) (next : Outcome → Rule) (s : Scope) :
    run angle nodes (within name value part next) s =
      run angle nodes (next (run angle nodes (within name value part .answer) s).1)
        (run angle nodes (within name value part .answer) s).2 :=
  rfl

/-- **A guard in a rule restores its own name**, and leaves all other names as its part did. -/
theorem get?_run_within (name : String) (value : Float) (part : Rule) (s : Scope) (other : String) :
    (run angle nodes (within name value part .answer) s).2.context.get? other =
      if other = name then s.context.get? name
      else (run angle nodes part (s.bind name value)).2.context.get? other :=
  Scope.get?_release _ name other _

/-- The moments of a rule, from those of the nodes that it evaluates. What is observed of a guard is what
    `run` finds before it and leaves behind it. -/
def moments (angle : Angle) (nodes : List (Rose Node)) (watched : List (Rose Watch)) :
    Rule → Scope → List Moment
  | answer _, _ => []
  | evaluate path next, s =>
    let r := supplied nodes path s
    (Rose.at? watched path).elim [] (· s) ++ moments angle nodes watched (next r.1) r.2
  | typeset path next, s =>
    let r := shown nodes path s
    moments angle nodes watched (next r.1) r.2
  | read next, s => moments angle nodes watched (next s.context) s
  | replace context next, s => moments angle nodes watched next { s with context }
  | within name value part next, s =>
    let r := run angle nodes (within name value part .answer) s
    .opened name (s.context.get? name) ::
        (moments angle nodes watched part (s.bind name value) ++
          [.closed name (r.2.context.get? name)]) ++
      moments angle nodes watched (next r.1) r.2
  | record event next, s => moments angle nodes watched next (s.record event)
  | askAngle next, s => moments angle nodes watched (next angle) s

/-- **The guards of a rule are nested if those of the nodes are.** -/
theorem moments_nested {watched : List (Rose Watch)}
    (h : Rose.All (fun watch => ∀ s, Nested (watch s)) watched) (rule : Rule) (s : Scope) :
    Nested (moments angle nodes watched rule s) := by
  induction rule generalizing s with
  | answer outcome => exact .nil
  | evaluate path next ih =>
    refine Nested.append ?_ (ih _ _)
    cases hwatch : Rose.at? watched path with
    | none => exact .nil
    | some watch => exact h path watch hwatch s
  | typeset path next ih => exact ih _ _
  | read next ih => exact ih _ _
  | replace context next ih => exact ih _
  | within name value part next ihpart ihnext =>
    have hpart := ihpart (s.bind name value)
    exact (hpart.guard (by rw [get?_run_within, if_pos rfl])).append (ihnext _ _)
  | record event next ih => exact ih _
  | askAngle next ih => exact ih _ _

end Rule

/-! ## 3. Guards in trees -/

namespace Expr

mutual

/-- The moments of the evaluation of a tree. -/
def moments (registry : Registry) (angle : Angle) : Expr → Scope → List Moment
  | number _ _, _ | constant _ _, _ | var _, _ => []
  | binary symbol left right, s =>
    match Operator.find? symbol with
    | none => []
    | some _ =>
      left.moments registry angle s ++
        match left.eval registry angle s with
        | (.error _, _) => []
        | (.ok _, t) => right.moments registry angle t
  | call name arguments, s =>
    match registry.function? name with
    | none => []
    | some function =>
      if function.arity.accepts arguments.length then
        Rule.moments angle (evalAll registry angle arguments) (momentsAll registry angle arguments)
          (function.rule arguments) s
      else []

/-- What is watched of arguments. -/
def momentsAll (registry : Registry) (angle : Angle) : List Expr → List (Rose Watch)
  | [] => []
  | e :: rest =>
    ⟨e.moments registry angle, e.momentsParts registry angle⟩ :: momentsAll registry angle rest

/-- What is watched of the parts of a tree. -/
def momentsParts (registry : Registry) (angle : Angle) : Expr → List (Rose Watch)
  | number _ _ | constant _ _ | var _ => []
  | binary _ left right =>
    [⟨left.moments registry angle, left.momentsParts registry angle⟩,
      ⟨right.moments registry angle, right.momentsParts registry angle⟩]
  | call _ arguments => momentsAll registry angle arguments

end

/-- What is watched of a tree and of its parts. -/
def watch (registry : Registry) (angle : Angle) (e : Expr) : Rose Watch :=
  ⟨e.moments registry angle, e.momentsParts registry angle⟩

theorem momentsAll_eq_map (registry : Registry) (angle : Angle) (arguments : List Expr) :
    momentsAll registry angle arguments = arguments.map (watch registry angle) := by
  induction arguments with
  | nil => rw [momentsAll, List.map_nil]
  | cons e rest ih => rw [momentsAll, ih, List.map_cons, watch]

theorem momentsParts_eq_map (registry : Registry) (angle : Angle) (e : Expr) :
    e.momentsParts registry angle = e.parts.map (watch registry angle) := by
  cases e with
  | number | constant | var | binary => rfl
  | call name arguments => rw [momentsParts, momentsAll_eq_map, parts]

theorem all_momentsAll {registry : Registry} {angle : Angle} {arguments : List Expr}
    (h : ∀ path a, at? arguments path = some a → ∀ s, Nested (a.moments registry angle s)) :
    Rose.All (fun watch => ∀ s, Nested (watch s)) (momentsAll registry angle arguments) := by
  rw [momentsAll_eq_map]
  exact Rose.all_map (momentsParts_eq_map registry angle) h

/-- **The guards in a tree are nested**, whatever functions it calls. -/
theorem moments_nested (registry : Registry) (angle : Angle) (e : Expr) (s : Scope) :
    Nested (e.moments registry angle s) := by
  induction e using inductNodes generalizing s with
  | number value text => rw [moments]; exact .nil
  | constant name value => rw [moments]; exact .nil
  | var name => rw [moments]; exact .nil
  | binary symbol left right ihleft ihright =>
    rw [moments]
    split
    · exact .nil
    · refine (ihleft s).append ?_
      split
      · exact .nil
      · exact ihright _
  | call name arguments ih =>
    rw [moments]
    split
    · exact .nil
    · split
      · exact Rule.moments_nested (all_momentsAll ih) _ s
      · exact .nil

end Expr

/-! ## 4. Guards of requests -/

namespace Session

/-- The moments of the evaluation of a tree in a session. -/
def moments (s : Session) (e : Expr) : List Moment := e.moments s.registry s.angle s.scope

/-- The moments of the evaluation of a source in a session. -/
def momentsOfSource (s : Session) (source : String) : List Moment :=
  match s.parse source with
  | .error _ => []
  | .ok e => (s.record (.parsed source e.depth)).moments e

theorem momentsOfSource_nested (s : Session) (source : String) : Nested (s.momentsOfSource source) := by
  unfold momentsOfSource
  split
  · exact .nil
  · exact Expr.moments_nested _ _ _ _

end Session

namespace Request

mutual

/-- The moments of a request. -/
def moments : Request → Session → List Moment
  | evaluate source, s | diagnose source, s => s.momentsOfSource source
  | examine tree, s => (s.typesetTree tree).2.moments tree
  | call function arguments, s =>
    Rule.moments s.angle (Expr.evalAll s.registry s.angle arguments)
      (Expr.momentsAll s.registry s.angle arguments) (function.rule arguments) s.scope
  | bind name value requests, s =>
    .opened name (s.context.get? name) ::
      (momentsAll requests (s.bind name value) ++
        [.closed name ((answer (bind name value requests) s).2.context.get? name)])
  | _, _ => []

/-- The moments of requests, one after the other. -/
def momentsAll : List Request → Session → List Moment
  | [], _ => []
  | request :: requests, s => moments request s ++ momentsAll requests (answer request s).2

end

/-- A request with a name bound while it runs leaves the context as its requests do, but for the name. -/
theorem get?_bind (name : String) (value : Float) (requests : List Request) (s : Session)
    (other : String) :
    (answer (bind name value requests) s).2.context.get? other =
      if other = name then s.context.get? name
      else (answerAll requests (s.bind name value)).2.context.get? other := by
  rw [answer]
  exact Scope.get?_release _ name other _

mutual

/-- **The guards in a request are nested**, also in the requests inside of it. -/
theorem moments_nested : ∀ (request : Request) (s : Session), Nested (request.moments s)
  | evaluate source, s | diagnose source, s => by
    rw [moments]
    exact s.momentsOfSource_nested source
  | examine tree, s => by
    rw [moments]
    exact Expr.moments_nested _ _ _ _
  | call function arguments, s => by
    rw [moments]
    exact Rule.moments_nested (Expr.all_momentsAll fun _ a _ => Expr.moments_nested _ _ a) _ _
  | bind name value requests, s => by
    rw [moments]
    exact (momentsAll_nested requests _).guard (by rw [get?_bind, if_pos rfl])
  | tokenize _ _, _ | parse _, _ | parseTokens _ _, _ | depth _, _ | typeset _, _
  | operator _ _ _ _ _, _ | write _, _ | toRadians _, _ | pointer _ _, _ | arity _ _, _
  | lookUp _, _ | tables, _ | set _ _, _ | get _, _ | size, _ | clear, _ | angle _, _
  | registerConstant _ _ _, _ | registerFunction _ _ _ _, _ => .nil

theorem momentsAll_nested : ∀ (requests : List Request) (s : Session),
    Nested (momentsAll requests s)
  | [], _ => .nil
  | request :: requests, s => by
    rw [momentsAll]
    exact (moments_nested request s).append (momentsAll_nested requests _)

end

end Request

/-! ## 5. Another context -/

/-- **A context is what it lists.** -/
theorem Context.ofList_toList (c : Context) : ofList c.toList = c := by
  have hinsert (bindings : List (String × Float)) (map : Std.ExtTreeMap String Float) :
      bindings.foldl (fun c b => c.set b.1 b.2) (Context.mk map) = ⟨map.insertMany bindings⟩ := by
    induction bindings generalizing map with
    | nil => rfl
    | cons binding rest ih => rw [List.foldl_cons, set, ih, Std.ExtTreeMap.insertMany_cons]
  have hof : ofList c.toList = ⟨.ofList c.bindings.toList⟩ := by
    rw [ofList, empty, hinsert, Std.ExtTreeMap.ofList_eq_insertMany_empty, toList]
  ext name : 1
  rw [hof]
  cases hfound : c.bindings[name]? with
  | some value =>
    have hmem := Std.ExtTreeMap.mem_toList_iff_getElem?_eq_some.2 hfound
    rw [get?, get?, hfound]
    exact Std.ExtTreeMap.getElem?_ofList_of_mem Std.ReflCmp.compare_self
      Std.ExtTreeMap.distinct_keys_toList hmem
  | none =>
    have hkeys : (c.bindings.toList.map Prod.fst).contains name = false := by
      rw [Std.ExtTreeMap.map_fst_toList_eq_keys, Std.ExtTreeMap.contains_keys]
      rw [Std.ExtTreeMap.contains_eq_isSome_getElem?, hfound]
      rfl
    rw [get?, get?, hfound]
    exact Std.ExtTreeMap.getElem?_ofList_of_contains_eq_false hkeys

namespace Request

/-- The requests that put another context in the place of the one there is. -/
def replace (context : Context) : List Request :=
  .clear :: context.toList.map fun binding => .set binding.1 binding.2

theorem context_answerAll_set (bindings : List (String × Float)) (s : Session) :
    (answerAll (bindings.map fun binding => .set binding.1 binding.2) s).2.context =
      bindings.foldl (fun c b => c.set b.1 b.2) s.context := by
  induction bindings generalizing s with
  | nil => rfl
  | cons binding rest ih =>
    rw [List.map_cons, answerAll, List.foldl_cons]
    exact ih _

/-- **After the replacement there is the other context.** -/
theorem context_replace (context : Context) (s : Session) :
    (answerAll (replace context) s).2.context = context := by
  have hset := context_answerAll_set context.toList (s.withContext .empty)
  rw [replace, answerAll]
  exact hset.trans context.ofList_toList

/-! ## 6. Requests under a guard -/

/-- **A guard restores its own name and nothing else, whatever happens inside.** Any requests may run
    while a name is bound: they may bind it or other names, for good or for a while, forget it, put
    another context in place of the whole, and evaluate trees that have a value or fail. In the end
    the name has the binding that it had in the beginning, or none, and every other name has the
    binding that the requests left. Of all guards that were opened on the way, in requests, trees
    and rules, the one opened last was closed first, and each gave back what it had covered. -/
theorem answer_bind_restores (name : String) (value : Float) (requests : List Request)
    (s : Session) :
    let inside := s.bind name value
    let left := (answerAll requests inside).2
    let after := (answer (.bind name value requests) s).2
    inside.context = s.context.set name value ∧
      (∀ context, (answerAll (replace context) inside).2.context = context) ∧
      (∀ other, after.context.get? other =
        if other = name then s.context.get? name else left.context.get? other) ∧
      ∀ guards, Unwinds guards (moments (.bind name value requests) s) guards :=
  ⟨rfl, fun context => context_replace context _, get?_bind name value requests s,
    moments_nested _ s⟩

end Request

end Formula
