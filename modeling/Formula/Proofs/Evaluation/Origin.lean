import Formula.Proofs.Evaluation.Safety

/-!
# Where a failure comes from

Every failure of an evaluation comes from a node of the tree: an operator that refused its operands, a
name that stands for nothing, or a call that was refused. A `noerr` lets no failure of its argument
through, so the node stands outside of all arguments of `noerr`.

* `Expr.unguarded` lists the nodes outside of the arguments of `noerr`.
* `Failure.AccountedBy`: a node accounts for a failure, one constructor for each kind of failure.
* `Operator.apply_accounted` and `Expr.eval_call_accounted` are the steps, for an operator and for a
  call; `Expr.eval_accounted` is the induction on the tree.
* `Expr.eval_origin` is the main statement, with what follows for formulas that were read: without an
  unguarded node that can fail they have a value.
-/

namespace Formula

/-! ## 1. Nodes that account for a failure -/

namespace Expr

mutual

/-- The nodes of a tree that are not inside of the argument of a `noerr`. -/
def unguarded : Expr → List Expr
  | e@(number _ _) | e@(constant _ _) | e@(var _) => [e]
  | e@(binary _ left right) => e :: (left.unguarded ++ right.unguarded)
  | e@(call name arguments) =>
    e :: if name = "noerr" ∧ arguments.length = 1 then [] else unguardedAll arguments

/-- The nodes of arguments that are not inside of the argument of a `noerr`. -/
def unguardedAll : List Expr → List Expr
  | [] => []
  | e :: rest => e.unguarded ++ unguardedAll rest

end

theorem mem_unguardedAll {arguments : List Expr} {node : Expr} :
    node ∈ unguardedAll arguments ↔ ∃ a ∈ arguments, node ∈ a.unguarded := by
  induction arguments with
  | nil => simp [unguardedAll]
  | cons a rest ih => simp [unguardedAll, ih]

theorem mem_unguarded_self (e : Expr) : e ∈ e.unguarded := by
  cases e <;> simp [unguarded]

/-- The nodes of an argument are nodes of the call, unless that is a `noerr`. -/
theorem mem_unguarded_argument {name : String} {arguments : List Expr} (hname : name ≠ "noerr")
    {a node : Expr} (ha : a ∈ arguments) (h : node ∈ a.unguarded) :
    node ∈ (call name arguments).unguarded := by
  rw [unguarded, if_neg fun hguard => hname hguard.1]
  exact List.mem_cons_of_mem _ (mem_unguardedAll.2 ⟨a, ha, h⟩)

end Expr

/-- A node accounts for a failure. -/
inductive Failure.AccountedBy (registry : Registry) : Failure → Expr → Prop
  | divisionByZero (dividend : Float) (left right : Expr) :
      AccountedBy registry (.divisionByZero dividend) (.binary '/' left right)
  | remainderByZero (dividend : Float) (left right : Expr) :
      AccountedBy registry (.remainderByZero dividend) (.binary '%' left right)
  | unknownOperator {symbol : Char} (hsymbol : Operator.find? symbol = none) (left right : Expr) :
      AccountedBy registry (.unknownOperator symbol) (.binary symbol left right)
  | unknownFunction {name : String} (hname : registry.function? name = none)
      (arguments : List Expr) :
      AccountedBy registry (.unknownFunction name) (.call name arguments)
  | wrongArgumentCount {name : String} {function : Function} {arguments : List Expr}
      (hfunction : registry.function? name = some function)
      (harity : function.arity.accepts arguments.length = false) :
      AccountedBy registry (.wrongArgumentCount name function.arity arguments.length)
        (.call name arguments)
  | refused {name : String} (hname : name ∈ ["sum", "max", "min"]) (reason : Refusal)
      (arguments : List Expr) :
      AccountedBy registry (.refused name reason) (.call name arguments)

/-- A value, or a failure that one of some nodes accounts for. -/
def Outcome.Accounted (registry : Registry) (nodes : List Expr) : Outcome → Prop
  | .ok _ => True
  | .error failure => ∃ node ∈ nodes, failure.AccountedBy registry node

theorem Outcome.Accounted.mono {registry : Registry} {nodes more : List Expr} {outcome : Outcome}
    (h : outcome.Accounted registry nodes) (hmore : ∀ node ∈ nodes, node ∈ more) :
    outcome.Accounted registry more := by
  cases outcome with
  | ok x => trivial
  | error failure =>
    obtain ⟨node, hnode, haccounts⟩ := h
    exact ⟨node, hmore node hnode, haccounts⟩

/-! ## 2. Operators and calls -/

/-- **An operator accounts for its own refusal.** -/
theorem Operator.apply_accounted {registry : Registry} {symbol : Char} {op : Operator}
    (hop : Operator.find? symbol = some op) (left right : Expr) (x y : Float) :
    Outcome.Accounted registry [.binary symbol left right] (op.apply x y) := by
  have hmem := Operator.find?_mem hop
  obtain rfl := Operator.find?_symbol hop
  have hdivide : Outcome.Accounted registry [.binary '/' left right] (Operator.divide x y) := by
    unfold Operator.divide
    split
    · exact ⟨_, List.mem_singleton_self _, .divisionByZero x left right⟩
    · trivial
  have hmodulo : Outcome.Accounted registry [.binary '%' left right] (Operator.modulo x y) := by
    unfold Operator.modulo
    split
    · exact ⟨_, List.mem_singleton_self _, .remainderByZero x left right⟩
    · trivial
  simp only [Operator.table, List.mem_cons, List.not_mem_nil, or_false] at hmem
  rcases hmem with rfl | rfl | rfl | rfl | rfl | rfl
  · trivial
  · trivial
  · trivial
  · exact hdivide
  · exact hmodulo
  · trivial

namespace Expr

variable {registry : Registry}

/-- A `noerr` has a value. -/
theorem run_noerr {angle : Angle} {arguments : List Expr} (hlength : arguments.length = 1)
    (nodes : List (Rose Node)) (s : Scope) :
    ∃ x, (Rule.run angle nodes (Builtin.noerr arguments) s).1 = .ok x := by
  obtain ⟨e, rfl⟩ := List.length_eq_one_iff.1 hlength
  show ∃ x, (Rule.run angle nodes (Builtin.suppress (Rule.supplied nodes [0] s).1)
    (Rule.supplied nodes [0] s).2).1 = .ok x
  cases (Rule.supplied nodes [0] s).1 with
  | ok x => exact ⟨x, rfl⟩
  | error failure => exact ⟨0.0, rfl⟩

/-- **A call accounts for a failure of its own**, and its arguments for theirs. -/
theorem eval_call_accounted (hregistry : registry.Reachable) (angle : Angle) {name : String}
    {arguments : List Expr} (hname : name ∈ Builtin.names ∨ registry.function? name = none)
    (h : ∀ a ∈ arguments, ∀ s, Outcome.Accounted registry a.unguarded (a.eval registry angle s).1)
    (s : Scope) :
    Outcome.Accounted registry (call name arguments).unguarded
      ((call name arguments).eval registry angle s).1 := by
  have hself := mem_unguarded_self (call name arguments)
  cases hfunction : registry.function? name with
  | none =>
    rw [eval, hfunction]
    exact ⟨_, hself, .unknownFunction hfunction arguments⟩
  | some function =>
    cases harity : function.arity.accepts arguments.length with
    | false =>
      rw [eval, hfunction]
      dsimp only
      rw [harity, if_neg Bool.false_ne_true]
      exact ⟨_, hself, .wrongArgumentCount hfunction harity⟩
    | true =>
      obtain ⟨builtin, hlookup, hmem⟩ := hregistry.builtin (hname.resolve_right (by simp [hfunction]))
      rw [hfunction] at hlookup
      cases hlookup
      rw [eval_call hfunction harity]
      -- A `noerr` does not hand its argument on, so the nodes of that are not needed; any other builtin
      -- function hands the failures of its arguments on, and the nodes of these are its own.
      by_cases hnoerr : name = "noerr"
      · subst hnoerr
        have hstandard := hregistry.noerr
        rw [hfunction] at hstandard
        cases hstandard
        obtain ⟨x, hx⟩ := run_noerr (eq_of_beq harity) (evalAll registry angle arguments) s
        show Outcome.Accounted registry _
          (Rule.run angle (evalAll registry angle arguments) (Builtin.noerr arguments) s).1
        rw [hx]
        trivial
      · have hpasses : Rule.Passes
            (fun index outcome => index < arguments.length →
              outcome.Accounted registry (call name arguments).unguarded)
            (Outcome.Accounted registry (call name arguments).unguarded) arguments.length :=
          ⟨fun _ => trivial, fun _ hindex _ houtcome => houtcome hindex⟩
        have hyields := Builtin.yields hmem harity hpasses
          fun hname reason => ⟨_, hself, .refused hname reason arguments⟩
        refine Rule.run_yields (fun index t hindex => ?_) hyields s
        rw [supplied_evalAll hindex]
        have hargument := List.getElem_mem hindex
        exact (h _ hargument t).mono fun node hnode => mem_unguarded_argument hnoerr hargument hnode

/-- **Every failure is accounted for by an unguarded node.** -/
theorem eval_accounted (hregistry : registry.Reachable) (angle : Angle) {e : Expr}
    (hcallees : ∀ name ∈ e.callees, name ∈ Builtin.names ∨ registry.function? name = none)
    (s : Scope) : Outcome.Accounted registry e.unguarded (e.eval registry angle s).1 := by
  induction e generalizing s with
  | number value text => rw [eval]; trivial
  | constant name value => rw [eval]; trivial
  | var name => rw [eval]; trivial
  | binary symbol left right ihleft ihright =>
    obtain ⟨hl, hr⟩ := forall_callees_binary.1 hcallees
    cases hop : Operator.find? symbol with
    | none =>
      rw [eval_unknown hop]
      exact ⟨_, mem_unguarded_self _, .unknownOperator hop left right⟩
    | some op =>
      have hleft := ihleft hl s
      generalize h : (binary symbol left right).eval registry angle s = r
      rw [unguarded]
      cases eval_binary hop h with
      | left hevaluation =>
        rw [hevaluation] at hleft
        exact hleft.mono fun node hnode => List.mem_cons_of_mem _ (List.mem_append_left _ hnode)
      | @right x failure t u _ hevaluation =>
        have hright := ihright hr t
        rw [hevaluation] at hright
        exact hright.mono fun node hnode => List.mem_cons_of_mem _ (List.mem_append_right _ hnode)
      | values _ _ =>
        refine (Operator.apply_accounted hop left right _ _).mono fun node hnode => ?_
        rw [List.mem_singleton.1 hnode]
        exact List.mem_cons_self
  | call name arguments ih =>
    obtain ⟨hname, harguments⟩ := forall_callees_call.1 hcallees
    exact eval_call_accounted hregistry angle hname (fun a ha => ih a ha (harguments a ha)) s

/-! ## 3. Formulas that were read -/

/-- The nodes that can fail in a formula that was read. -/
def CanFail : Expr → Prop
  | binary symbol _ _ => symbol = '/' ∨ symbol = '%'
  | call name _ => name ∈ ["sum", "max", "min"]
  | _ => False

/-- What was read consists of nodes that pass the checks of the reader. -/
theorem Checked.of_unguarded {e node : Expr} (h : Checked registry e) (hnode : node ∈ e.unguarded) :
    Checked registry node := by
  induction h with
  | number value text =>
    obtain rfl := List.mem_singleton.1 hnode
    exact .number value text
  | constant hfound =>
    obtain rfl := List.mem_singleton.1 hnode
    exact .constant hfound
  | var name =>
    obtain rfl := List.mem_singleton.1 hnode
    exact .var name
  | binary hsymbol hleft hright ihleft ihright =>
    rcases List.mem_cons.1 hnode with rfl | hnode
    · exact .binary hsymbol hleft hright
    · rcases List.mem_append.1 hnode with hnode | hnode
      · exact ihleft hnode
      · exact ihright hnode
  | call hfunction harity harguments ih =>
    rw [unguarded] at hnode
    rcases List.mem_cons.1 hnode with rfl | hnode
    · exact .call hfunction harity harguments
    · split at hnode
      · cases hnode
      · obtain ⟨a, ha, hnode⟩ := mem_unguardedAll.1 hnode
        exact ih a ha hnode

/-- A checked node that accounts for a failure is one that can fail. -/
theorem canFail_of_accountedBy {failure : Failure} {node : Expr} (hnode : Checked registry node)
    (h : failure.AccountedBy registry node) : node.CanFail := by
  cases h with
  | divisionByZero => exact .inl rfl
  | remainderByZero => exact .inr rfl
  | unknownOperator hsymbol =>
    cases hnode with
    | binary hfound =>
      obtain ⟨op, hop⟩ := hfound
      rw [hsymbol] at hop
      cases hop
  | unknownFunction hname =>
    cases hnode with
    | call hfunction =>
      rw [hname] at hfunction
      cases hfunction
  | wrongArgumentCount hfunction harity =>
    cases hnode with
    | call hfound hcount =>
      rw [hfunction] at hfound
      cases hfound
      rw [harity] at hcount
      cases hcount
  | refused hname => exact hname

/-- **Every failure comes from a node outside of all arguments of `noerr`**, an operator or a call that
    accounts for it. So a formula that was read and whose divisions, remainders, sums, maxima and
    minima all stand inside of such arguments has a value, whatever has been registered since. -/
theorem eval_origin (hregistry : registry.Reachable) (angle : Angle) (e : Expr) (s : Scope) :
    ((∀ name ∈ e.callees, name ∈ Builtin.names ∨ registry.function? name = none) →
      ∀ failure, (e.eval registry angle s).1 = .error failure →
        ∃ node ∈ e.unguarded, failure.AccountedBy registry node) ∧
    (∀ stop tokens registrations, ofTokens registry stop tokens = .ok e →
      (∀ name ∈ e.callees, name ∈ Builtin.names) → (∀ node ∈ e.unguarded, ¬node.CanFail) →
        ∃ x, (e.eval (registry.after registrations) angle s).1 = .ok x) := by
  constructor
  · intro hcallees failure h
    have haccounted := eval_accounted hregistry angle hcallees s
    rw [h] at haccounted
    exact haccounted
  · intro stop tokens registrations hread hcallees hsafe
    have hchecked := (Checked.of_tokens hread).mono (registry.after_extends registrations)
    have haccounted := eval_accounted (hregistry.after registrations) angle
      (fun name hname => .inl (hcallees name hname)) s
    cases houtcome : (e.eval (registry.after registrations) angle s).1 with
    | ok x => exact ⟨x, rfl⟩
    | error failure =>
      rw [houtcome] at haccounted
      obtain ⟨node, hnode, haccounts⟩ := haccounted
      exact absurd (canFail_of_accountedBy (hchecked.of_unguarded hnode) haccounts)
        (hsafe node hnode)

/-- The tree of `noerr($x/$y)+$x`. -/
def guardedDivision : Expr :=
  .binary '+' (.call "noerr" [.binary '/' (.var "x") (.var "y")]) (.var "x")

/-- The tree of `noerr($x/$y)+$x%$y`. -/
def unguardedRemainder : Expr :=
  .binary '+' (.call "noerr" [.binary '/' (.var "x") (.var "y")])
    (.binary '%' (.var "x") (.var "y"))

def guardedDivisionTokens : List Token :=
  [⟨"noerr", .identifier, 0⟩, ⟨"(", .operator, 5⟩, ⟨"$x", .var, 6⟩, ⟨"/", .operator, 8⟩,
    ⟨"$y", .var, 9⟩, ⟨")", .operator, 11⟩, ⟨"+", .operator, 12⟩, ⟨"$x", .var, 13⟩]

theorem ofTokens_guardedDivision :
    ofTokens .standard 15 guardedDivisionTokens = .ok guardedDivision := by
  refine Grammar.ofTokens_of_derives ?_
  have hsum : '+' ∈ ['+', '-'] := by simp
  have hproduct : '/' ∈ ['*', '/', '%'] := by simp
  exact .add hsum rfl
    (.product (.power (.signed (.primary (.call rfl rfl rfl rfl (.last rfl (.product
      (.multiply hproduct rfl (.power (.signed (.primary (.var rfl))))
        (.signed (.primary (.var rfl)))))))))))
    (.power (.signed (.primary (.var rfl))))

/-- Without bindings the remainder fails, and a remainder outside of `noerr` accounts for it; the guarded
    division does not fail. -/
theorem eval_origin_noerr :
    let s : Scope := ⟨.empty, []⟩
    let failure : Failure := .remainderByZero 0.0
    (unguardedRemainder.eval .standard .radians s).1 = .error failure ∧
      (∃ node ∈ unguardedRemainder.unguarded, failure.AccountedBy .standard node) ∧
      ofTokens .standard 15 guardedDivisionTokens = .ok guardedDivision ∧
      ∃ x, (guardedDivision.eval (Registry.standard.after []) .radians s).1 = .ok x := by
  intro s failure
  have hcallees : ∀ name ∈ guardedDivision.callees, name ∈ Builtin.names := by decide
  have hcallees' : ∀ name ∈ unguardedRemainder.callees,
      name ∈ Builtin.names ∨ Registry.standard.function? name = none := by
    intro name hname
    exact .inl (hcallees name hname)
  have hfailure : (unguardedRemainder.eval .standard .radians s).1 = .error failure := rfl
  have hsafe : ∀ node ∈ guardedDivision.unguarded, ¬node.CanFail := by
    simp [guardedDivision, unguarded, CanFail]
  exact ⟨hfailure,
    (eval_origin Registry.reachable_standard .radians unguardedRemainder s).1 hcallees' _ hfailure,
    ofTokens_guardedDivision,
    (eval_origin Registry.reachable_standard .radians guardedDivision s).2 15 _ []
      ofTokens_guardedDivision hcallees hsafe⟩

end Expr

end Formula
