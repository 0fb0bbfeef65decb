import Formula.Proofs.Evaluation.Frame
import Formula.Proofs.Tree.Free

/-!
# Evaluation depends on the free variables

Two evaluations of one tree are compared: in two scopes, and under two units of angles. They come to the
same outcome if the free variables of the tree read the same in both scopes, and if the units are the
same or no function of an angle is called.

* `Scope.Agree known s t`: the known names read the same in two scopes.
* `Rule.Confined reads asks rule known`: a judgement on rules. The rule evaluates an argument only where all
  that the argument reads is known, a binding makes its name known for a while, the unit of angles is
  looked at only if `asks` holds, and nothing else is looked at.
* `Rule.run_outcome` is the step: two runs of a confined rule stay in agreement through every binding.
  It rests on the frame of evaluation, by which an argument leaves the variables as it found them.
* `Builtin.confined`: every builtin function is confined to what is free in a call of it.
* `Expr.eval_agree` is the induction on the tree, and `Expr.eval_dependence` the main statement.
-/

namespace Formula

/-! ## 1. Agreement -/

theorem Context.value_set (c : Context) (name other : String) (value : Float) :
    (c.set name value).value other = if name = other then value else c.value other := by
  rw [Context.value, get?_set]
  split
  · rfl
  · rfl

theorem Context.value_erase (c : Context) (name other : String) :
    (c.erase name).value other = if name = other then 0.0 else c.value other := by
  rw [Context.value, get?_erase]
  split
  · rfl
  · rfl

namespace Scope

/-- The known names read the same in two scopes. -/
def Agree (known : String → Prop) (s t : Scope) : Prop :=
  ∀ v, known v → s.context.value v = t.context.value v

variable {known : String → Prop} {s t s' t' : Scope}

/-- Agreement is about the variables only. -/
theorem Agree.of_context (h : Agree known s t) (hs : s'.context = s.context)
    (ht : t'.context = t.context) : Agree known s' t' := by
  intro v hv
  rw [hs, ht]
  exact h v hv

/-- **A binding makes its name known.** -/
theorem Agree.bind (h : Agree known s t) (name : String) (value : Float) :
    Agree (fun v => v = name ∨ known v) (s.bind name value) (t.bind name value) := by
  intro v hv
  rw [context_bind, context_bind, Context.value_set, Context.value_set]
  by_cases hname : name = v
  · rw [if_pos hname, if_pos hname]
  · rw [if_neg hname, if_neg hname]
    rcases hv with rfl | hknown
    · exact absurd rfl hname
    · exact h v hknown

end Scope

/-! ## 2. Confined rules -/

namespace Rule

/-- A rule that depends on known names only. Argument number `i` reads the names that `reads i` says,
    and `asks` says whether the rule may ask for the unit of angles. -/
def Confined (reads : Nat → String → Prop) (asks : Prop) : Rule → (String → Prop) → Prop
  | answer _, _ => True
  | evaluate path next, known =>
    (∃ index, path = [index] ∧ ∀ v, reads index v → known v) ∧
      ∀ outcome, (next outcome).Confined reads asks known
  | typeset _ _, _ | read _, _ | replace _ _, _ => False
  | within name _ part next, known =>
    part.Confined reads asks (fun v => v = name ∨ known v) ∧
      ∀ outcome, (next outcome).Confined reads asks known
  | record _ next, known => next.Confined reads asks known
  | askAngle next, known => asks ∧ ∀ angle, (next angle).Confined reads asks known

variable {reads : Nat → String → Prop} {asks : Prop} {known : String → Prop}

/-- A confined rule never replaces the variables. -/
theorem Confined.tidy {rule : Rule} (h : rule.Confined reads asks known) : rule.Tidy := by
  induction rule generalizing known with
  | answer outcome => trivial
  | evaluate path next ih => exact fun outcome => ih outcome (h.2 outcome)
  | typeset | read | replace => exact h.elim
  | within name value part next ihpart ihnext =>
    exact ⟨ihpart h.1, fun outcome => ihnext outcome (h.2 outcome)⟩
  | record event next ih => exact ih h
  | askAngle next ih => exact fun angle => ih angle (h.2 angle)

/-- Two rows of arguments that leave the variables alone, and of which each argument comes to the same
    outcome where all that it reads is the same. -/
structure Alike (reads : Nat → String → Prop) (left right : List (Rose Node)) : Prop where
  left_keeps : Rose.All KeptBy left
  right_keeps : Rose.All KeptBy right
  outcome : ∀ index s t, Scope.Agree (reads index) s t →
    (supplied left [index] s).1 = (supplied right [index] t).1

/-- **Two runs of a confined rule come to the same outcome**, if the known names read the same. -/
theorem run_outcome {left right : List (Rose Node)} (h : Alike reads left right) {one other : Angle}
    (hangle : asks → one = other) {rule : Rule} (hrule : rule.Confined reads asks known)
    {s t : Scope} (hst : Scope.Agree known s t) :
    (run one left rule s).1 = (run other right rule t).1 := by
  induction rule generalizing known s t with
  | answer outcome => rfl
  | evaluate path next ih =>
    obtain ⟨⟨index, rfl, hreads⟩, hnext⟩ := hrule
    have hsame := h.outcome index s t fun v hv => hst v (hreads v hv)
    have hafter := hst.of_context (supplied_keeps h.left_keeps [index] s)
      (supplied_keeps h.right_keeps [index] t)
    show (run one left (next (supplied left [index] s).1) _).1 = _
    rw [hsame]
    exact ih _ (hnext _) hafter
  | typeset | read | replace => exact hrule.elim
  | within name value part next ihpart ihnext =>
    have hsame := ihpart hrule.1 (hst.bind name value)
    have hleft : Keeps (run one left part) := run_context h.left_keeps hrule.1.tidy
    have hright : Keeps (run other right part) := run_context h.right_keeps hrule.1.tidy
    have hafter := hst.of_context (hleft.released name value s) (hright.released name value t)
    show (run one left (next (run one left part (s.bind name value)).1) _).1 = _
    rw [hsame]
    exact ihnext _ (hrule.2 _) hafter
  | record event next ih => exact ih hrule hst
  | askAngle next ih =>
    obtain rfl := hangle hrule.1
    exact ih one (hrule.2 one) hst

/-! ### The steps that most rules are made of -/

theorem confined_value (x : Float) : (value x).Confined reads asks known := trivial

theorem confined_fail (failure : Failure) : (fail failure).Confined reads asks known := trivial

theorem confined_onValue {next : Float → Rule} (h : ∀ x, (next x).Confined reads asks known)
    (outcome : Outcome) : (onValue next outcome).Confined reads asks known := by
  cases outcome with
  | ok x => exact h x
  | error failure => exact confined_fail failure

theorem confined_argument {index : Nat} (hreads : ∀ v, reads index v → known v)
    {next : Float → Rule} (h : ∀ x, (next x).Confined reads asks known) :
    (argument index next).Confined reads asks known :=
  ⟨⟨index, rfl, hreads⟩, fun outcome => confined_onValue h outcome⟩

theorem confined_foldArguments (hreads : ∀ index v, reads index v → known v)
    {combine : Float → Float → Float} {next : Float → Rule}
    (h : ∀ x, (next x).Confined reads asks known) (count index : Nat) (x : Float) :
    (foldArguments combine next count index x).Confined reads asks known := by
  induction count generalizing index x with
  | zero => exact h x
  | succ count ih =>
    exact confined_argument (hreads index) fun y => ih (index + 1) (combine x y)

end Rule

open Rule

variable {reads : Nat → String → Prop} {asks : Prop} {known : String → Prop}

/-! ## 3. Builtin functions -/

namespace Sum

/-- The body is evaluated under a binding of the index. -/
theorem confined_addBodies (hbody : ∀ v, reads 2 v → v = index ∨ known v) (first : Float)
    (remaining k : Nat) (total : Float) :
    (addBodies first remaining k total).Confined reads asks known := by
  induction remaining generalizing k total with
  | zero => exact confined_value total
  | succ remaining ih =>
    refine ⟨confined_argument hbody confined_value, fun outcome => ?_⟩
    exact confined_onValue (fun x => ih (k + 1) (total + x)) outcome

theorem confined_bounded (hfirst : ∀ v, reads 0 v → known v) {next : Float → Float → Rule}
    (h : ∀ first last, (next first last).Confined reads asks known) (last : Expr) :
    (bounded last next).Confined reads asks known := by
  unfold bounded
  split
  · exact confined_fail _
  · split
    · refine confined_argument hfirst fun first => ?_
      split
      · exact h first _
      · exact confined_fail _
    · exact confined_fail _

theorem confined_rule (hfirst : ∀ v, reads 0 v → known v)
    (hbody : ∀ v, reads 2 v → v = index ∨ known v) (arguments : List Expr) :
    (rule arguments).Confined reads asks known := by
  unfold rule
  split
  · exact confined_bounded hfirst (fun first last => confined_value (range first last)) _
  · exact confined_bounded hfirst (fun first last => confined_addBodies hbody _ _ 0 0.0) _
  · exact confined_fail _

end Sum

namespace Builtin

theorem confined_single (hfirst : ∀ v, reads 0 v → known v) {next : Float → Rule}
    (h : ∀ x, (next x).Confined reads asks known) (name : String) (arguments : List Expr) :
    (single name next arguments).Confined reads asks known := by
  unfold single
  split
  · exact confined_argument hfirst h
  · exact confined_fail _

theorem confined_noerr (hfirst : ∀ v, reads 0 v → known v) (arguments : List Expr) :
    (noerr arguments).Confined reads asks known := by
  unfold noerr
  split
  · refine ⟨⟨0, rfl, hfirst⟩, fun outcome => ?_⟩
    cases outcome with
    | ok x => exact confined_value x
    | error failure =>
      show (value 0.0).Confined reads asks known
      exact confined_value 0.0
  · exact confined_fail _

theorem confined_choice (hreads : ∀ index v, reads index v → known v) (name : String)
    (choose : Float → Float → Float) (arguments : List Expr) :
    (choice name choose arguments).Confined reads asks known := by
  unfold choice
  split
  · exact confined_fail _
  · refine confined_argument (hreads 0) fun x => ?_
    exact confined_foldArguments hreads confined_value _ 1 x

theorem confined_logarithm (hreads : ∀ index v, reads index v → known v) (arguments : List Expr) :
    (logarithm arguments).Confined reads asks known := by
  unfold logarithm
  split
  · refine confined_argument (hreads 0) fun base => ?_
    exact confined_argument (hreads 1) fun x => confined_value _
  · exact confined_fail _

/-- **Every builtin function is confined to what its arguments read**, a sum to what its body reads
    besides the index. Only a function of an angle asks for the unit. -/
theorem confined {name : String} {function : Function} (h : (name, function) ∈ table)
    (hfirst : ∀ v, reads 0 v → known v)
    (hreads : name ≠ "sum" → ∀ index v, reads index v → known v)
    (hbody : name = "sum" → ∀ v, reads 2 v → v = Sum.index ∨ known v)
    (hasks : name ∈ angleNames → asks) (arguments : List Expr) :
    (function.rule arguments).Confined reads asks known := by
  cases family h with
  | trigonometric name command f hname =>
    have hnext (x : Float) :
        (Rule.askAngle fun angle => .value (f (angle.toRadians x))).Confined reads asks known :=
      ⟨hasks hname, fun angle => confined_value (f (angle.toRadians x))⟩
    exact confined_single hfirst hnext name arguments
  | numeric name f row => exact confined_single hfirst (fun x => confined_value (f x)) name arguments
  | noerr => exact confined_noerr hfirst arguments
  | choosing name command choose hname =>
    have hne : name ≠ "sum" := by
      rintro rfl
      simp at hname
    exact confined_choice (hreads hne) name choose arguments
  | sum => exact Sum.confined_rule hfirst (hbody rfl) arguments
  | logarithm => exact confined_logarithm (hreads (by decide)) arguments

end Builtin

/-! ## 4. Trees -/

namespace Expr

variable {registry : Registry} {one other : Angle}

/-- The tree calls builtin functions only, and functions of an angle only if the units are the same. -/
def CallsBuiltin (one other : Angle) (e : Expr) : Prop :=
  ∀ name ∈ e.callees, name ∈ Builtin.names ∧ (name ∈ Builtin.angleNames → one = other)

theorem CallsBuiltin.callsTidy {e : Expr} (h : e.CallsBuiltin one other) :
    e.CallsTidy registry := fun name hname => .inl (h name hname).1

/-- The outcome of an operator. -/
theorem eval_binary_outcome {symbol : Char} {op : Operator}
    (hop : Operator.find? symbol = some op) (left right : Expr) (angle : Angle) (s : Scope) :
    ((binary symbol left right).eval registry angle s).1 =
      (left.eval registry angle s).1.bind fun x =>
        (right.eval registry angle (left.eval registry angle s).2).1.bind fun y => op.apply x y := by
  generalize h : (binary symbol left right).eval registry angle s = r
  cases eval_binary hop h with
  | left hleft =>
    rw [hleft]
    rfl
  | right hleft hright | values hleft hright =>
    rw [hleft]
    simp only [Except.bind]
    rw [hright]

/-- What argument number `index` reads. -/
def ReadsFree (arguments : List Expr) (index : Nat) (v : String) : Prop :=
  ∃ a, arguments[index]? = some a ∧ v ∈ a.freeVariables

/-- Arguments that are evaluated alike in agreeing scopes are alike for every rule. -/
theorem alike_evalAll (hregistry : registry.Reachable) {arguments : List Expr}
    (harguments : ∀ a ∈ arguments, a.CallsBuiltin one other)
    (h : ∀ a ∈ arguments, ∀ s t, Scope.Agree (· ∈ a.freeVariables) s t →
      (a.eval registry one s).1 = (a.eval registry other t).1) :
    Rule.Alike (ReadsFree arguments) (evalAll registry one arguments)
      (evalAll registry other arguments) where
  left_keeps :=
    keptBy_of_builtin hregistry one fun a ha name hname => (harguments a ha name hname).1
  right_keeps :=
    keptBy_of_builtin hregistry other fun a ha name hname => (harguments a ha name hname).1
  outcome index s t hst := by
    by_cases hindex : index < arguments.length
    · rw [supplied_evalAll hindex, supplied_evalAll hindex]
      have hfree : ∀ v ∈ arguments[index].freeVariables, ReadsFree arguments index v :=
        fun v hv => ⟨_, List.getElem?_eq_getElem hindex, hv⟩
      exact h _ (List.getElem_mem hindex) s t fun v hv => hst v (hfree v hv)
    · have hnone : at? arguments [index] = none := List.getElem?_eq_none (Nat.not_lt.1 hindex)
      rw [Rule.supplied, Rule.supplied, at?_evalAll, at?_evalAll, hnone]
      rfl

/-- **A builtin function is confined to the free variables of a call of it.** -/
theorem confined_call {name : String} {function : Function}
    (h : (name, function) ∈ Builtin.table) {asks : Prop} (hasks : name ∈ Builtin.angleNames → asks)
    (arguments : List Expr) :
    (function.rule arguments).Confined (ReadsFree arguments) asks
      (· ∈ (call name arguments).freeVariables) := by
  refine Builtin.confined h ?_ ?_ ?_ hasks arguments
  · rintro v ⟨a, ha, hv⟩
    cases arguments with
    | nil => cases ha
    | cons first rest =>
      cases ha
      exact mem_freeVariables_first hv
  · rintro hname index v ⟨a, ha, hv⟩
    exact mem_freeVariables_argument hname (List.mem_of_getElem? ha) hv
  · rintro rfl v ⟨a, ha, hv⟩
    by_cases hindex : v = Sum.index
    · exact .inl hindex
    · match arguments with
      | start :: last :: body :: rest =>
        cases ha
        exact .inr (mem_freeVariables_body hv hindex)
      | [] | [_] | [_, _] => cases ha

/-- **Evaluations in agreeing scopes come to the same outcome.** -/
theorem eval_agree (hregistry : registry.Reachable) {e : Expr} (he : e.CallsBuiltin one other)
    {s t : Scope} (hst : Scope.Agree (· ∈ e.freeVariables) s t) :
    (e.eval registry one s).1 = (e.eval registry other t).1 := by
  induction e generalizing s t with
  | number value text => rw [eval, eval]
  | constant name value => rw [eval, eval]
  | var name =>
    have hvalue : s.context.value name = t.context.value name := by
      refine hst name ?_
      simp [freeVariables]
    rw [eval, eval, hvalue]
  | binary symbol left right ihleft ihright =>
    obtain ⟨hl, hr⟩ : left.CallsBuiltin one other ∧ right.CallsBuiltin one other :=
      forall_callees_binary.1 he
    cases hop : Operator.find? symbol with
    | none => rw [eval_unknown hop, eval_unknown hop]
    | some op =>
      have hleft := ihleft hl fun v hv => hst v (by simp [freeVariables, hv])
      have hafter := hst.of_context (eval_keeps hregistry one left hl.callsTidy s)
        (eval_keeps hregistry other left hl.callsTidy t)
      have hright := ihright hr fun v hv => hafter v (by simp [freeVariables, hv])
      rw [eval_binary_outcome hop, eval_binary_outcome hop, hleft, hright]
  | call name arguments ih =>
    obtain ⟨hname, harguments⟩ := forall_callees_call.1 he
    obtain ⟨function, hfunction, hmem⟩ := hregistry.builtin hname.1
    have halike := alike_evalAll hregistry harguments fun a ha s t h => ih a ha (harguments a ha) h
    by_cases harity : function.arity.accepts arguments.length = true
    · rw [eval_call hfunction harity, eval_call hfunction harity]
      exact Rule.run_outcome halike id (confined_call hmem hname.2 arguments) hst
    · rw [eval, eval, hfunction]
      dsimp only
      rw [if_neg harity, if_neg harity]

/-- A sum does not read the index from outside, unless its start does. -/
theorem index_notMem_sum {start last body : Expr} (h : Sum.index ∉ start.freeVariables) :
    Sum.index ∉ (call "sum" [start, last, body]).freeVariables := by
  rw [freeVariables, if_pos rfl, freeInEach_eq_map]
  intro hmem
  rcases List.mem_append.1 hmem with hstart | hbody
  · exact h hstart
  · exact absurd rfl (of_decide_eq_true (List.mem_filter.1 hbody).2)

/-- **Evaluation depends on nothing but the free variables.** A tree that calls builtin functions comes to
    the same value or the same failure in all scopes in which its free variables read the same. So
    zero is as good as no binding, a sum does not see an index from outside, and without a function
    of an angle the unit does not matter either. -/
theorem eval_dependence {registry : Registry} (hregistry : registry.Reachable) {e : Expr}
    (he : ∀ name ∈ e.callees, name ∈ Builtin.names) :
    (∀ angle s t, (∀ v ∈ e.freeVariables, s.context.value v = t.context.value v) →
      (e.eval registry angle s).1 = (e.eval registry angle t).1) ∧
    (∀ angle (s : Scope) name,
      (e.eval registry angle { s with context := s.context.set name 0.0 }).1 =
        (e.eval registry angle { s with context := s.context.erase name }).1) ∧
    (∀ start last body, e = call "sum" [start, last, body] → Sum.index ∉ start.freeVariables →
      ∀ angle (s : Scope) value,
        (e.eval registry angle { s with context := s.context.set Sum.index value }).1 =
          (e.eval registry angle s).1) ∧
    ((∀ name ∈ e.callees, name ∉ Builtin.angleNames) → ∀ one other s t,
      (∀ v ∈ e.freeVariables, s.context.value v = t.context.value v) →
        (e.eval registry one s).1 = (e.eval registry other t).1) := by
  have hsame (angle : Angle) : e.CallsBuiltin angle angle :=
    fun name hname => ⟨he name hname, fun _ => rfl⟩
  refine ⟨fun angle s t hst => eval_agree hregistry (hsame angle) hst, ?_, ?_, ?_⟩
  · intro angle s name
    refine eval_agree hregistry (hsame angle) fun v _ => ?_
    show (s.context.set name 0.0).value v = (s.context.erase name).value v
    rw [Context.value_set, Context.value_erase]
  · rintro start last body rfl hstart angle s value
    refine eval_agree hregistry (hsame angle) fun v hv => ?_
    show (s.context.set Sum.index value).value v = s.context.value v
    have hne : Sum.index ≠ v := by
      rintro rfl
      exact index_notMem_sum hstart hv
    rw [Context.value_set, if_neg hne]
  · intro hangle one other s t hst
    have hbuiltin : e.CallsBuiltin one other :=
      fun name hname => ⟨he name hname, fun hmem => absurd hmem (hangle name hname)⟩
    exact eval_agree hregistry hbuiltin hst

/-- The tree of `sum($x,2,sum(#i,2,#i/$x))`. The start of the inner sum reads the index of the outer one. -/
def nestedSum : Expr :=
  .call "sum" [.var "x", .number 2.0 "2",
    .call "sum" [.var "#i", .number 2.0 "2", .binary '/' (.var "#i") (.var "x")]]

/-- The nested sum reads `x` only. It comes to the same in a scope that binds the index and does not bind
    `x` as in one that binds `x` to zero and nothing else, and under the other unit of angles. -/
theorem eval_dependence_nestedSum :
    (∀ name ∈ nestedSum.callees, name ∈ Builtin.names) ∧ nestedSum.freeVariables = ["x", "x"] ∧
      let s : Scope := ⟨.ofList [("#i", 7.0)], []⟩
      let t : Scope := ⟨.ofList [("x", 0.0)], []⟩
      (nestedSum.eval .standard .radians s).1 = (nestedSum.eval .standard .radians t).1 ∧
        (nestedSum.eval .standard .radians s).1 = (nestedSum.eval .standard .degrees t).1 := by
  have hcallees : nestedSum.callees = ["sum", "sum"] := rfl
  have hfree : nestedSum.freeVariables = ["x", "x"] := by decide
  have hbuiltin : ∀ name ∈ nestedSum.callees, name ∈ Builtin.names := by
    rw [hcallees]
    decide
  have hangle : ∀ name ∈ nestedSum.callees, name ∉ Builtin.angleNames := by
    rw [hcallees]
    decide
  have hreads : ∀ v ∈ nestedSum.freeVariables,
      (Context.ofList [("#i", 7.0)]).value v = (Context.ofList [("x", 0.0)]).value v := by
    rw [hfree]
    intro v hv
    obtain rfl : v = "x" := by simpa using hv
    simp [Context.ofList, Context.value, Context.get?_set]
  obtain ⟨hscopes, -, -, hunits⟩ := eval_dependence Registry.reachable_standard hbuiltin
  exact ⟨hbuiltin, hfree, hscopes .radians _ _ hreads,
    hunits hangle .radians .degrees _ _ hreads⟩

end Expr

end Formula
