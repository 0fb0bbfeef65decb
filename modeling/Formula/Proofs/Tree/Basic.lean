import Formula.Expr.Eval

/-!
# Trees

* `Expr.induct` is induction on trees: a call may assume the claim for each of its arguments, and in
  `Expr.inductNodes` for every node of them.
* `Rose.All`: what holds of all that a rule or a form can meet, and so of all that a rule is supplied with
  and shown (`Rule.supplied_of_all`, `Rule.shown_of_all`). `Expr.forall_at?` is how it is shown, from the
  arguments down.
* `Expr.callees` lists the names that a tree calls, `Expr.variableNames` the names of its variables.
* `Expr.eval_binary` takes the evaluation of an operator apart (`Operated`): one of the operands failed,
  or both have a value. `Expr.eval_call` is the evaluation of a call that is accepted.
-/

namespace Formula

/-- A fact about what stands at any path. -/
def Rose.All {α : Type} (P : α → Prop) (row : List (Rose α)) : Prop :=
  ∀ path label, at? row path = some label → P label

/-- What is known of all nodes of a row of formulas stands at all paths. -/
theorem Rose.all_map {α : Type} {P : α → Prop} {known : Expr → Rose α}
    (hknown : ∀ e, (known e).parts = e.parts.map known) {row : List Expr}
    (h : ∀ path e, Expr.at? row path = some e → P (known e).label) : All P (row.map known) := by
  intro path label hlabel
  rw [at?_map hknown] at hlabel
  obtain ⟨e, he, rfl⟩ := Option.map_eq_some_iff.1 hlabel
  exact h path e he

/-- What all nodes do, and a failure too, is done wherever a path leads. -/
theorem Rule.supplied_of_all {P : Evaluation → Prop} {nodes : List (Rose Node)}
    (h : Rose.All (fun node => P node.evaluate) nodes)
    (hfails : ∀ failure, P fun s => (.error failure, s)) (path : List Nat) :
    P (supplied nodes path) := by
  unfold supplied
  cases hnode : Rose.at? nodes path with
  | none => exact hfails _
  | some node => exact h path node hnode

/-- What all nodes do when they are typeset, and a text too, is done wherever a path leads. -/
theorem Rule.shown_of_all {P : Typesetting → Prop} {nodes : List (Rose Node)}
    (h : Rose.All (fun node => P node.typeset) nodes) (htexts : ∀ text, P fun s => (text, s))
    (path : List Nat) : P (shown nodes path) := by
  unfold shown
  cases hnode : Rose.at? nodes path with
  | none => exact htexts _
  | some node => exact h path node hnode

namespace Expr

/-! ## 1. Induction -/

section Induction

variable {motive : Expr → Prop}
  (number : ∀ value text, motive (.number value text))
  (constant : ∀ name value, motive (.constant name value))
  (var : ∀ name, motive (.var name))
  (binary : ∀ symbol left right, motive left → motive right → motive (.binary symbol left right))
  (call : ∀ name arguments, (∀ a ∈ arguments, motive a) → motive (.call name arguments))

include number constant var binary call

/-- **Induction on trees.** -/
@[elab_as_elim, induction_eliminator]
theorem induct : ∀ e, motive e := by
  intro e
  refine @Expr.rec motive (fun arguments => ∀ a ∈ arguments, motive a)
    number constant var binary call ?_ ?_ e
  · intro a ha
    cases ha
  · intro head tail hhead htail a ha
    rcases List.mem_cons.1 ha with rfl | ha
    · exact hhead
    · exact htail a ha

end Induction

/-- Induction on trees, with the claim for the parts of a tree. -/
@[elab_as_elim]
theorem inductParts {motive : Expr → Prop}
    (h : ∀ e, (∀ part ∈ e.parts, motive part) → motive e) (e : Expr) : motive e := by
  induction e with
  | number | constant | var => exact h _ (List.forall_mem_nil _)
  | binary symbol left right ihleft ihright =>
    exact h _ (List.forall_mem_cons.2 ⟨ihleft, List.forall_mem_singleton.2 ihright⟩)
  | call name arguments ih => exact h _ ih

/-- **What holds of all arguments and passes on to parts holds of all nodes.** -/
theorem forall_at? {P : Expr → Prop} (hparts : ∀ e, P e → ∀ part ∈ e.parts, P part)
    {arguments : List Expr} (h : ∀ a ∈ arguments, P a) {path : List Nat} {a : Expr}
    (ha : at? arguments path = some a) : P a := by
  fun_induction at? arguments path with
  | case1 => cases ha
  | case2 row index => exact h a (List.mem_of_getElem? ha)
  | case3 row index next path ih =>
    obtain ⟨e, he, hnode⟩ := Option.bind_eq_some_iff.1 ha
    exact ih e (hparts e (h e (List.mem_of_getElem? he))) hnode

section Induction

variable {motive : Expr → Prop}
  (number : ∀ value text, motive (.number value text))
  (constant : ∀ name value, motive (.constant name value))
  (var : ∀ name, motive (.var name))
  (binary : ∀ symbol left right, motive left → motive right → motive (.binary symbol left right))
  (call : ∀ name arguments, (∀ path a, at? arguments path = some a → motive a) →
    motive (.call name arguments))

include number constant var binary call

/-- **Induction on trees, with the claim for all nodes of the arguments of a call.** -/
@[elab_as_elim]
theorem inductNodes : ∀ e, motive e := by
  -- what is carried from the parts to the whole is the claim for a tree and for all nodes in it
  let all (e : Expr) : Prop := motive e ∧ ∀ path a, at? e.parts path = some a → motive a
  have hrow {row : List Expr} (h : ∀ e ∈ row, all e) :
      ∀ path a, at? row path = some a → motive a
    | [], _, ha => by cases ha
    | [_], a, ha => (h a (List.mem_of_getElem? ha)).1
    | _ :: next :: path, a, ha => by
      obtain ⟨e, he, hnode⟩ := Option.bind_eq_some_iff.1 ha
      exact (h e (List.mem_of_getElem? he)).2 (next :: path) a hnode
  have hall (e : Expr) : all e := by
    induction e using inductParts with
    | h e ih =>
      refine ⟨?_, hrow ih⟩
      cases e with
      | number value text => exact number value text
      | constant name value => exact constant name value
      | var name => exact var name
      | binary symbol left right =>
        exact binary symbol left right (ih left (by simp [parts])).1 (ih right (by simp [parts])).1
      | call name arguments => exact call name arguments (hrow ih)
  exact fun e => (hall e).1

end Induction

/-! ## 2. Called names -/

mutual

/-- The names that are called anywhere in a tree. -/
def callees : Expr → List String
  | number _ _ | constant _ _ | var _ => []
  | binary _ left right => left.callees ++ right.callees
  | call name arguments => name :: calleesAll arguments

/-- The names that are called anywhere in arguments. -/
def calleesAll : List Expr → List String
  | [] => []
  | e :: rest => e.callees ++ calleesAll rest

end

theorem mem_calleesAll {arguments : List Expr} {name : String} :
    name ∈ calleesAll arguments ↔ ∃ a ∈ arguments, name ∈ a.callees := by
  induction arguments with
  | nil => simp [calleesAll]
  | cons a rest ih => simp [calleesAll, ih]

theorem forall_callees_binary {P : String → Prop} {symbol : Char} {left right : Expr} :
    (∀ name ∈ (binary symbol left right).callees, P name) ↔
      (∀ name ∈ left.callees, P name) ∧ ∀ name ∈ right.callees, P name := by
  simp only [callees, List.forall_mem_append]

theorem forall_callees_call {P : String → Prop} {name : String} {arguments : List Expr} :
    (∀ other ∈ (call name arguments).callees, P other) ↔
      P name ∧ ∀ a ∈ arguments, ∀ other ∈ a.callees, P other := by
  simp only [callees, List.forall_mem_cons, mem_calleesAll]
  constructor
  · rintro ⟨hname, h⟩
    exact ⟨hname, fun a ha other hother => h other ⟨a, ha, hother⟩⟩
  · rintro ⟨hname, h⟩
    exact ⟨hname, fun other ⟨a, ha, hother⟩ => h a ha other hother⟩

/-- A node calls what the arguments call. -/
theorem forall_callees_at? {P : String → Prop} {arguments : List Expr}
    (h : ∀ a ∈ arguments, ∀ name ∈ a.callees, P name) {path : List Nat} {a : Expr}
    (ha : at? arguments path = some a) : ∀ name ∈ a.callees, P name := by
  refine forall_at? (P := fun e => ∀ name ∈ e.callees, P name) (fun e he part hpart => ?_) h ha
  cases e with
  | number | constant | var => cases hpart
  | binary symbol left right =>
    obtain ⟨hleft, hright⟩ := forall_callees_binary.1 he
    rcases List.mem_cons.1 hpart with rfl | hpart
    · exact hleft
    · rwa [List.mem_singleton.1 hpart]
  | call other arguments => exact (forall_callees_call.1 he).2 part hpart

/-! ## 3. Names of variables -/

mutual

/-- The names of the variables anywhere in a tree. -/
def variableNames : Expr → List String
  | number _ _ | constant _ _ => []
  | var name => [name]
  | binary _ left right => left.variableNames ++ right.variableNames
  | call _ arguments => variableNamesAll arguments

/-- The names of the variables anywhere in arguments. -/
def variableNamesAll : List Expr → List String
  | [] => []
  | e :: rest => e.variableNames ++ variableNamesAll rest

end

theorem forall_variableNames_binary {P : String → Prop} {symbol : Char} {left right : Expr} :
    (∀ name ∈ (binary symbol left right).variableNames, P name) ↔
      (∀ name ∈ left.variableNames, P name) ∧ ∀ name ∈ right.variableNames, P name := by
  simp only [variableNames, List.forall_mem_append]

theorem forall_variableNames_call {P : String → Prop} {name : String} {arguments : List Expr} :
    (∀ other ∈ (call name arguments).variableNames, P other) ↔
      ∀ a ∈ arguments, ∀ other ∈ a.variableNames, P other := by
  rw [variableNames]
  induction arguments with
  | nil => simp [variableNamesAll]
  | cons a rest ih => rw [variableNamesAll, List.forall_mem_append, List.forall_mem_cons, ih]

/-! ## 4. Evaluation of operators and calls -/

/-- How an operator and its operands are evaluated, and what comes out. -/
inductive Operated (registry : Registry) (angle : Angle) (op : Operator) (left right : Expr)
    (s : Scope) : Outcome × Scope → Prop
  | left {failure : Failure} {t : Scope}
      (hleft : left.eval registry angle s = (.error failure, t)) :
      Operated registry angle op left right s (.error failure, t)
  | right {x : Float} {failure : Failure} {t u : Scope}
      (hleft : left.eval registry angle s = (.ok x, t))
      (hright : right.eval registry angle t = (.error failure, u)) :
      Operated registry angle op left right s (.error failure, u)
  | values {x y : Float} {t u : Scope} (hleft : left.eval registry angle s = (.ok x, t))
      (hright : right.eval registry angle t = (.ok y, u)) :
      Operated registry angle op left right s (op.apply x y, u)

section Evaluation

variable {registry : Registry} {angle : Angle} {s : Scope}

theorem eval_binary {symbol : Char} {op : Operator} (hop : Operator.find? symbol = some op)
    {left right : Expr} {r : Outcome × Scope}
    (h : (binary symbol left right).eval registry angle s = r) :
    Operated registry angle op left right s r := by
  rw [eval, hop] at h
  subst h
  dsimp only
  split
  · rename_i failure t hleft
    exact .left hleft
  · rename_i x t hleft
    split
    · rename_i failure u hright
      exact .right hleft hright
    · rename_i y u hright
      exact .values hleft hright

theorem eval_unknown {symbol : Char} (hop : Operator.find? symbol = none) (left right : Expr) :
    (binary symbol left right).eval registry angle s = (.error (.unknownOperator symbol), s) := by
  rw [eval, hop]

theorem eval_call {name : String} {function : Function} {arguments : List Expr}
    (hfunction : registry.function? name = some function)
    (harity : function.arity.accepts arguments.length = true) :
    (call name arguments).eval registry angle s =
      Rule.run angle (evalAll registry angle arguments) (function.rule arguments) s := by
  rw [eval, hfunction]
  exact if_pos harity

/-! ### What a call supplies -/

/-- The node at a path is supplied by its evaluation. -/
theorem supplied_at? {arguments : List Expr} {path : List Nat} {a : Expr}
    (ha : at? arguments path = some a) :
    Rule.supplied (evalAll registry angle arguments) path = a.eval registry angle := by
  funext s
  rw [Rule.supplied, at?_evalAll, ha]
  rfl

/-- An argument that is there is supplied by its evaluation. -/
theorem supplied_evalAll {arguments : List Expr} {index : Nat} (h : index < arguments.length) :
    Rule.supplied (evalAll registry angle arguments) [index] =
      arguments[index].eval registry angle :=
  supplied_at? (List.getElem?_eq_getElem h)

/-- What holds of the nodes holds of all that a call supplies. -/
theorem all_evalAll {P : Node → Prop} {arguments : List Expr}
    (h : ∀ path a, at? arguments path = some a →
      P ⟨a.eval registry angle, Latex.typeset registry a⟩) :
    Rose.All P (evalAll registry angle arguments) := by
  rw [evalAll_eq_map]
  exact Rose.all_map (evalParts_eq_map registry angle) h

end Evaluation

end Expr

end Formula
