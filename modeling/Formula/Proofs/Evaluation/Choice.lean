import Formula.Proofs.Double.Order
import Formula.Proofs.Evaluation.Frame
import Formula.Proofs.Evaluation.Record

/-!
# The largest and the smallest argument

`max` and `min` go through the values of their arguments from left to right and keep one of two at a time.
What they keep at the end does not depend on that order.

* `Extreme.Chosen values x`: one of the values is `x` and no other one is further out. A value that is not a
  number never counts. Such an `x` is the same for all rows of values with the same members (`Chosen.same`).
* `Extreme.chosen_foldl`: what is kept at the end is chosen. The induction is on the values that remain, and
  what is kept so far stands for the values before them.
* `Rule.Settles`: an evaluation with one outcome wherever the variables are the same. The evaluation of
  arguments goes on behind each of them as if it were the first (`Rule.run_foldArguments`).

`Expr.eval_extreme` puts them together.
-/

namespace Formula

open Double (isNaN order Same)

/-! ## 1. Choosing between two values -/

/-- The two ways to choose. -/
inductive Extreme
  | largest
  | smallest
  deriving DecidableEq, Repr

namespace Extreme

/-- The function that chooses so. -/
def name : Extreme → String
  | largest => "max"
  | smallest => "min"

/-- The choice between two values. -/
def choose : Extreme → Float → Float → Float
  | largest => Double.larger
  | smallest => Double.smaller

/-- A value is as far out as another. -/
def Reaches : Extreme → Float → Float → Prop
  | largest, x, y => y ≤ x
  | smallest, x, y => x ≤ y

/-- How far out a value is. -/
def place : Extreme → Float → Int
  | largest, x => order x
  | smallest, x => -order x

theorem reaches_iff (extreme : Extreme) {x y : Float} (hx : isNaN x = false) (hy : isNaN y = false) :
    extreme.Reaches x y ↔ extreme.place y ≤ extreme.place x := by
  cases extreme with
  | largest => exact Double.le_iff hy hx
  | smallest => exact (Double.le_iff hx hy).trans Int.neg_le_neg_iff.symm

theorem place_eq_iff (extreme : Extreme) {x y : Float} :
    extreme.place x = extreme.place y ↔ order x = order y := by
  cases extreme with
  | largest => exact Iff.rfl
  | smallest => exact Int.neg_inj

/-- A choice keeps the value that is further out, or the one of two that is a number. Of two values with one
    place it may keep either. -/
structure Lawful (extreme : Extreme) (choose : Float → Float → Float) : Prop where
  kept : ∀ x y, Same (choose x y) x ∨ Same (choose x y) y
  left : ∀ x y, isNaN x = false →
    isNaN (choose x y) = false ∧ extreme.place x ≤ extreme.place (choose x y)
  right : ∀ x y, isNaN y = false →
    isNaN (choose x y) = false ∧ extreme.place y ≤ extreme.place (choose x y)

/-- Both ways to choose are one, seen from the two ends of the order. -/
theorem choose_eq (extreme : Extreme) (x y : Float) :
    extreme.choose x y =
      if isNaN x then y
      else if isNaN y then x
      else if extreme.place x < extreme.place y then y else x := by
  cases extreme with
  | largest => rfl
  | smallest =>
    simp only [choose, place, Double.smaller, Int.neg_lt_neg_iff]

/-- **`max` and `min` choose lawfully.** -/
theorem lawful (extreme : Extreme) : extreme.Lawful extreme.choose where
  kept x y := by
    rw [choose_eq]
    split
    · exact .inr (.refl y)
    · split
      · exact .inl (.refl x)
      · split
        · exact .inr (.refl y)
        · exact .inl (.refl x)
  left x y hx := by
    rw [choose_eq, hx, if_neg Bool.false_ne_true]
    cases hy : isNaN y with
    | true => exact ⟨hx, Int.le_refl _⟩
    | false =>
      rw [if_neg Bool.false_ne_true]
      split
      · exact ⟨hy, Int.le_of_lt ‹_›⟩
      · exact ⟨hx, Int.le_refl _⟩
  right x y hy := by
    rw [choose_eq, hy, if_neg Bool.false_ne_true]
    cases hx : isNaN x with
    | true => exact ⟨hy, Int.le_refl _⟩
    | false =>
      rw [if_neg Bool.false_ne_true]
      split
      · exact ⟨hy, Int.le_refl _⟩
      · exact ⟨hx, Int.not_lt.1 ‹_›⟩

/-! ## 2. Choosing among many values -/

/-- One of the values is chosen, and it is as far out as each of them that is a number. -/
structure Chosen (extreme : Extreme) (values : List Float) (x : Float) : Prop where
  source : ∃ v ∈ values, Same x v
  reach : ∀ v ∈ values, isNaN v = false → isNaN x = false ∧ extreme.place v ≤ extreme.place x

namespace Chosen

variable {extreme : Extreme} {values others : List Float} {x y : Float}

/-- What is chosen is no number only if there is none among the values. -/
theorem isNaN_of_isNaN (h : extreme.Chosen values x) (hx : isNaN x = true) :
    ∀ v ∈ values, isNaN v = true := by
  intro v hv
  cases hnan : isNaN v with
  | true => rfl
  | false =>
    rw [(h.reach v hv hnan).1] at hx
    cases hx

/-- What is chosen among some values is reached by what is chosen among more of them. -/
theorem place_le (h : extreme.Chosen values x) (h' : extreme.Chosen others y)
    (hsub : ∀ v ∈ values, v ∈ others) (hx : isNaN x = false) :
    isNaN y = false ∧ extreme.place x ≤ extreme.place y := by
  obtain ⟨v, hv, hsame⟩ := h.source
  have hplace : extreme.place x = extreme.place v := extreme.place_eq_iff.2 (hsame.2 hx)
  rw [hplace]
  exact h'.reach v (hsub v hv) (hsame.1.symm.trans hx)

/-- **What is chosen depends on the members only**, not on their order. -/
theorem same (h : extreme.Chosen values x) (h' : extreme.Chosen others y)
    (hmem : ∀ v, v ∈ values ↔ v ∈ others) : Same x y := by
  have hforth := h.place_le h' fun v => (hmem v).1
  have hback := h'.place_le h fun v => (hmem v).2
  cases hx : isNaN x with
  | true =>
    cases hy : isNaN y with
    | true => exact ⟨hx.trans hy.symm, fun hx' => absurd (hx.symm.trans hx') (by decide)⟩
    | false => exact absurd (hx.symm.trans (hback hy).1) (by decide)
  | false =>
    obtain ⟨hy, hle⟩ := hforth hx
    have hplace : extreme.place x = extreme.place y := Int.le_antisymm hle (hback hy).2
    exact ⟨hx.trans hy.symm, fun _ => extreme.place_eq_iff.1 hplace⟩

end Chosen

/-- **What is kept of many values is chosen among them.** -/
theorem chosen_foldl {extreme : Extreme} {choose : Float → Float → Float}
    (hchoose : extreme.Lawful choose) (x : Float) (rest : List Float) :
    extreme.Chosen (x :: rest) (rest.foldl choose x) := by
  induction rest generalizing x with
  | nil => exact ⟨⟨x, List.mem_singleton.2 rfl, .refl x⟩, fun v hv hnan => by
      rw [List.mem_singleton.1 hv] at hnan ⊢
      exact ⟨hnan, Int.le_refl _⟩⟩
  | cons y rest ih =>
    obtain ⟨hsource, hreach⟩ := ih (choose x y)
    obtain ⟨hkept, hrest⟩ := List.forall_mem_cons.1 hreach
    -- what the first two values come to stands for both of them
    have hstep {v : Float} (h : isNaN (choose x y) = false ∧
        extreme.place v ≤ extreme.place (choose x y)) :
        isNaN (rest.foldl choose (choose x y)) = false ∧
          extreme.place v ≤ extreme.place (rest.foldl choose (choose x y)) :=
      ⟨(hkept h.1).1, Int.le_trans h.2 (hkept h.1).2⟩
    refine ⟨?_, ?_⟩
    · obtain ⟨v, hv, hsame⟩ := hsource
      rcases List.mem_cons.1 hv with rfl | hv
      · rcases hchoose.kept x y with hx | hy
        · exact ⟨x, by simp, hsame.trans hx⟩
        · exact ⟨y, by simp, hsame.trans hy⟩
      · exact ⟨v, by simp [hv], hsame⟩
    · intro v hv hnan
      rcases List.mem_cons.1 hv with rfl | hv
      · exact hstep (hchoose.left v y hnan)
      · rcases List.mem_cons.1 hv with rfl | hv
        · exact hstep (hchoose.right x v hnan)
        · exact hrest v hv hnan

end Extreme

/-! ## 3. Arguments from left to right -/

namespace Rule

/-- The evaluation has one outcome wherever the variables are these, and it leaves them. -/
def Settles (context : Context) (evaluation : Evaluation) (outcome : Outcome) : Prop :=
  ∀ s, s.context = context → (evaluation s).1 = outcome ∧ (evaluation s).2.context = context

/-- Outcomes from left to right, each value combined with what came out so far. The first failure is the
    failure of all. -/
def combined (combine : Float → Float → Float) (outcomes : List Outcome) (x : Float) : Outcome :=
  outcomes.foldlM (fun x outcome => outcome.map (combine x)) x

variable {angle : Angle} {context : Context} {combine : Float → Float → Float}

theorem combined_cons (outcome : Outcome) (outcomes : List Outcome) (x : Float) :
    combined combine (outcome :: outcomes) x =
      outcome.bind fun y => combined combine outcomes (combine x y) := by
  rw [combined, List.foldlM_cons]
  cases outcome <;> rfl

theorem combined_values (values : List Float) (x : Float) :
    combined combine (values.map .ok) x = .ok (values.foldl combine x) := by
  induction values generalizing x with
  | nil => rfl
  | cons y rest ih =>
    rw [List.map_cons, combined_cons]
    exact ih (combine x y)

theorem combined_failure {before : List Outcome} (hbefore : ∀ outcome ∈ before, ∃ y, outcome = .ok y)
    (failure : Failure) (after : List Outcome) (x : Float) :
    combined combine (before ++ .error failure :: after) x = .error failure := by
  induction before generalizing x with
  | nil => rfl
  | cons outcome before ih =>
    obtain ⟨⟨y, rfl⟩, hrest⟩ := List.forall_mem_cons.1 hbefore
    rw [List.cons_append, combined_cons]
    exact ih hrest (combine x y)

/-- **Arguments that settle are combined from left to right.** The arguments that were evaluated before are
    in front of those that remain. -/
theorem run_foldArguments {remaining : List (Rose Node)} {outcomes : List Outcome}
    (h : List.Forall₂ (fun node => Settles context node.label.evaluate) remaining outcomes)
    (front : List (Rose Node)) (x : Float) {s : Scope} (hs : s.context = context) :
    (run angle (front ++ remaining)
      (foldArguments combine value remaining.length front.length x) s).1 =
      combined combine outcomes x := by
  induction h generalizing front x s with
  | nil => rfl
  | @cons node outcome remaining outcomes hfirst _ ih =>
    obtain ⟨houtcome, hcontext⟩ := hfirst s hs
    have hsupplied : supplied (front ++ node :: remaining) [front.length] s =
        node.label.evaluate s := by
      rw [supplied, Rose.at?, List.getElem?_append_right (Nat.le_refl _), Nat.sub_self]
      rfl
    show (run angle _ (onValue _ (supplied _ [front.length] s).1)
      (supplied _ [front.length] s).2).1 = _
    rw [hsupplied, houtcome, combined_cons]
    cases outcome with
    | error failure => rfl
    | ok y =>
      have hrest := ih (front ++ [node]) (combine x y) hcontext
      rw [List.append_assoc, List.length_append] at hrest
      exact hrest

end Rule

/-! ## 4. Calls -/

namespace Expr

variable {registry : Registry} (hregistry : registry.Reachable)
include hregistry

/-- A tree that calls builtin functions settles, in the variables of any state. -/
theorem settles_of_builtin (angle : Angle) {e : Expr} (he : ∀ name ∈ e.callees, name ∈ Builtin.names)
    (s : Scope) :
    Rule.Settles s.context (e.eval registry angle) (e.eval registry angle s).1 := by
  intro t ht
  refine ⟨?_, (keeps_of_builtin hregistry angle he t).trans ht⟩
  -- the record is all in which the two states differ, and it is not looked at
  have hrecords (u : Scope) : (e.eval registry angle u).1 = (e.eval registry angle ⟨u.context, []⟩).1 := by
    show (e.eval registry angle (Scope.onto ⟨u.context, []⟩ u.log)).1 = _
    rw [eval_records registry angle e ⟨u.context, []⟩ u.log]
  rw [hrecords t, hrecords s, ht]

theorem function?_extreme (extreme : Extreme) :
    ∃ function, registry.function? extreme.name = some function ∧ function.arity = .variadic ∧
      function.rule = Builtin.choice extreme.name extreme.choose := by
  cases extreme with
  | largest => exact ⟨_, hregistry.extends_standard.function rfl, rfl, rfl⟩
  | smallest => exact ⟨_, hregistry.extends_standard.function rfl, rfl, rfl⟩

/-- **A call of `max` or `min` combines the outcomes of its arguments**, each of them as it is in the state
    before the call. -/
theorem eval_extreme_cons (angle : Angle) (s : Scope) (extreme : Extreme) {a : Expr} {rest : List Expr}
    (hcallees : ∀ b ∈ a :: rest, ∀ name ∈ b.callees, name ∈ Builtin.names) :
    ((call extreme.name (a :: rest)).eval registry angle s).1 =
      (a.eval registry angle s).1.bind
        (Rule.combined extreme.choose (rest.map fun b => (b.eval registry angle s).1)) := by
  obtain ⟨function, hfunction, harity, hrule⟩ := function?_extreme hregistry extreme
  obtain ⟨ha, hrest⟩ := List.forall_mem_cons.1 hcallees
  have hsettles : List.Forall₂ (fun node => Rule.Settles s.context node.label.evaluate)
      (rest.map (node registry angle)) (rest.map fun b => (b.eval registry angle s).1) := by
    rw [List.forall₂_map_left_iff, List.forall₂_map_right_iff, List.forall₂_same]
    exact fun b hb => settles_of_builtin hregistry angle (hrest b hb) s
  have hafter := (settles_of_builtin hregistry angle ha s s rfl).2
  rw [eval_call hfunction (by rw [harity]; rfl), hrule, evalAll_eq_map, List.map_cons]
  show (Rule.run angle _ (Rule.onValue _ (a.eval registry angle s).1) (a.eval registry angle s).2).1 = _
  cases (a.eval registry angle s).1 with
  | error failure => rfl
  | ok x =>
    have hfold := @Rule.run_foldArguments angle s.context extreme.choose _ _ hsettles
      [a.node registry angle] x _ hafter
    rw [List.length_map] at hfold
    exact hfold

/-- The arguments are chosen among if all of them have a value. -/
theorem eval_extreme_values {angle : Angle} {s : Scope} (extreme : Extreme) {arguments : List Expr}
    (hne : arguments ≠ []) (hcallees : ∀ a ∈ arguments, ∀ name ∈ a.callees, name ∈ Builtin.names)
    {value : Expr → Float} (hvalue : ∀ a ∈ arguments, (a.eval registry angle s).1 = .ok (value a)) :
    ∃ x, ((call extreme.name arguments).eval registry angle s).1 = .ok x ∧
      extreme.Chosen (arguments.map value) x := by
  obtain ⟨a, rest, rfl⟩ := List.exists_cons_of_ne_nil hne
  obtain ⟨ha, hrest⟩ := List.forall_mem_cons.1 hvalue
  have houtcomes : (rest.map fun b => (b.eval registry angle s).1) = (rest.map value).map .ok := by
    rw [List.map_map]
    exact List.map_congr_left hrest
  have hchosen := Extreme.chosen_foldl extreme.lawful (value a) (rest.map value)
  refine ⟨_, ?_, hchosen⟩
  rw [eval_extreme_cons hregistry angle s extreme hcallees, ha, houtcomes]
  exact Rule.combined_values _ _

/-- **`max` and `min` select one of their arguments, in whatever order they stand.** The arguments call
    builtin functions. Where all of them have a value, so has the call: it is one of these values, as far out
    as each of them that is a number, and it is no number only if none of them is one. Arguments in another
    order give the same number, or none as well. Where an argument fails, the first failure is the outcome. -/
theorem eval_extreme (angle : Angle) (s : Scope) (extreme : Extreme) {arguments : List Expr}
    (hne : arguments ≠ []) (hcallees : ∀ a ∈ arguments, ∀ name ∈ a.callees, name ∈ Builtin.names) :
    (∀ value : Expr → Float, (∀ a ∈ arguments, (a.eval registry angle s).1 = .ok (value a)) →
      ∃ x, ((call extreme.name arguments).eval registry angle s).1 = .ok x ∧
        (∃ a ∈ arguments, Same x (value a)) ∧
        (∀ a ∈ arguments, isNaN (value a) = false → extreme.Reaches x (value a)) ∧
        (isNaN x = true → ∀ a ∈ arguments, isNaN (value a) = true) ∧
        ∀ others, others.Perm arguments →
          ∃ y, ((call extreme.name others).eval registry angle s).1 = .ok y ∧ Same y x) ∧
    ∀ before a after failure, arguments = before ++ a :: after →
      (∀ b ∈ before, ∃ x, (b.eval registry angle s).1 = .ok x) →
      (a.eval registry angle s).1 = .error failure →
      ((call extreme.name arguments).eval registry angle s).1 = .error failure := by
  refine ⟨fun value hvalue => ?_, ?_⟩
  · obtain ⟨x, hx, hchosen⟩ := eval_extreme_values hregistry extreme hne hcallees hvalue
    refine ⟨x, hx, ?_, ?_, ?_, fun others hperm => ?_⟩
    · obtain ⟨v, hv, hsame⟩ := hchosen.source
      obtain ⟨a, ha, rfl⟩ := List.mem_map.1 hv
      exact ⟨a, ha, hsame⟩
    · intro a ha hnan
      obtain ⟨hnumber, hplace⟩ := hchosen.reach (value a) (List.mem_map_of_mem ha) hnan
      exact (extreme.reaches_iff hnumber hnan).2 hplace
    · exact fun hnan => List.forall_mem_map.1 (hchosen.isNaN_of_isNaN hnan)
    · have hmem (b : Expr) : b ∈ others ↔ b ∈ arguments := hperm.mem_iff
      have hne' : others ≠ [] := fun h => hne (List.nil_perm.1 (h ▸ hperm))
      obtain ⟨y, hy, hother⟩ := eval_extreme_values hregistry extreme hne'
        (fun b hb => hcallees b ((hmem b).1 hb)) fun b hb => hvalue b ((hmem b).1 hb)
      exact ⟨y, hy, hother.same hchosen fun v => (hperm.map value).mem_iff⟩
  · rintro before a after failure rfl hbefore ha
    cases before with
    | nil =>
      rw [List.nil_append, eval_extreme_cons hregistry angle s extreme hcallees, ha]
      rfl
    | cons b before =>
      obtain ⟨⟨x, hx⟩, hrest⟩ := List.forall_mem_cons.1 hbefore
      rw [List.cons_append] at hcallees ⊢
      rw [eval_extreme_cons hregistry angle s extreme hcallees, hx, List.map_append, List.map_cons, ha]
      exact Rule.combined_failure (List.forall_mem_map.2 hrest) failure _ x

omit hregistry

/-- Infinity times zero, which is no number, and two numbers behind it. -/
def mixed : List Expr :=
  [.binary '*' (.number Double.infinity "1e999") (.number 0.0 "0"), .number 2.0 "2", .number 3.0 "3"]

/-- A number and two failures behind it. -/
def failing : List Expr :=
  [.number 2.0 "2", .binary '/' (.number 1.0 "1") (.number 0.0 "0"),
    .binary '%' (.number 1.0 "1") (.number 0.0 "0")]

/-- The value that is no number does not hide the three, wherever it stands, and the division is the failure
    that is seen. -/
theorem eval_extreme_mixed :
    let s : Scope := ⟨.empty, []⟩
    (∃ x y, ((call "max" mixed).eval .standard .radians s).1 = .ok x ∧
      ((call "max" mixed.reverse).eval .standard .radians s).1 = .ok y ∧
      Extreme.largest.Reaches x 3.0 ∧ isNaN x = false ∧ Same y x) ∧
    ((call "min" failing).eval .standard .radians s).1 = .error (.divisionByZero 1.0) := by
  intro s
  have hmixed : ∀ a ∈ mixed, ∀ name ∈ a.callees, name ∈ Builtin.names := by decide
  have hfailing : ∀ a ∈ failing, ∀ name ∈ a.callees, name ∈ Builtin.names := by decide
  let value (a : Expr) : Float := (a.eval .standard .radians s).1.toOption.getD 0.0
  have hvalue : ∀ a ∈ mixed, (a.eval .standard .radians s).1 = .ok (value a) := by
    intro a ha
    simp only [mixed, List.mem_cons, List.not_mem_nil, or_false] at ha
    rcases ha with rfl | rfl | rfl <;> rfl
  have hthree : Expr.number 3.0 "3" ∈ mixed := by simp [mixed]
  have hnumber : isNaN 3.0 = false := by decide +kernel
  obtain ⟨hvalues, -⟩ :=
    eval_extreme Registry.reachable_standard .radians s .largest (List.cons_ne_nil _ _) hmixed
  obtain ⟨-, hfailure⟩ :=
    eval_extreme Registry.reachable_standard .radians s .smallest (List.cons_ne_nil _ _) hfailing
  refine ⟨?_, hfailure [.number 2.0 "2"] _ _ _ rfl ?_ ?_⟩
  · obtain ⟨x, hx, -, hreaches, hnone, hothers⟩ := hvalues value hvalue
    obtain ⟨y, hy, hsame⟩ := hothers mixed.reverse (List.reverse_perm mixed)
    have hreach := hreaches (.number 3.0 "3") hthree hnumber
    refine ⟨x, y, hx, hy, hreach, ?_, hsame⟩
    refine Bool.eq_false_iff.2 fun hnan => ?_
    have hboth : isNaN 3.0 = true := hnone hnan (.number 3.0 "3") hthree
    rw [hnumber] at hboth
    cases hboth
  · exact List.forall_mem_singleton.2 ⟨2.0, rfl⟩
  · have hzero : Double.isZero 0.0 = true := by decide +kernel
    show Operator.divide 1.0 0.0 = _
    rw [Operator.divide, hzero]
    rfl

end Expr

end Formula
