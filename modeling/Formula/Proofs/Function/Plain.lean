import Formula.Function.Builtin

/-!
# Builtin functions and plain rules

The table of builtin functions lists six kinds of entries. `Builtin.family` tells the kind of an entry,
so that a fact about all builtin functions is proved once for each kind.

A rule is plain (`Rule.Plain`) if it only evaluates nodes of its arguments, reads the variables, binds names
for a while and asks for the unit of angles: whatever else happens while it runs happens in the
evaluations of the nodes.

* The lemmas `Rule.plain_*` are about the steps that most rules are made of.
* `Builtin.plain_or_noerr` is the main statement: of the builtin functions, only `noerr` has rules that
  are not plain, since it records what it suppresses.
-/

namespace Formula

/-! ## 1. The families of builtin functions -/

namespace Builtin

/-- The names of the functions of an angle. -/
def angleNames : List String := ["sin", "cos", "tan", "cot", "sec", "csc"]

/-- The kinds of entries in the table of builtin functions. -/
inductive Family : String → Function → Prop
  | trigonometric (name command : String) (f : Float → Float) (hname : name ∈ angleNames) :
      Family name (trigonometric name command f).2
  | numeric (name : String) (f : Float → Float) (row : Row) : Family name (numeric name f row).2
  | noerr : Family "noerr" ⟨.exactly 1, noerr, none⟩
  | choosing (name command : String) (choose : Float → Float → Float)
      (hname : name ∈ ["max", "min"]) : Family name (choosing name command choose).2
  | sum : Family "sum" ⟨.variadic, Sum.rule, some Sum.row.form⟩
  | logarithm : Family "log" ⟨.exactly 2, logarithm, some logarithmRow.form⟩

/-- **Every builtin function belongs to a family.** -/
theorem family {name : String} {function : Function} (h : (name, function) ∈ table) :
    Family name function := by
  have hall : ∀ entry ∈ table, Family entry.1 entry.2 := by
    simp only [table, List.forall_mem_cons]
    exact ⟨.trigonometric "sin" _ _ (by simp [angleNames]),
      .trigonometric "cos" _ _ (by simp [angleNames]),
      .trigonometric "tan" _ _ (by simp [angleNames]),
      .trigonometric "cot" _ (fun x => 1.0 / x.tan) (by simp [angleNames]),
      .trigonometric "sec" _ (fun x => 1.0 / x.cos) (by simp [angleNames]),
      .trigonometric "csc" _ (fun x => 1.0 / x.sin) (by simp [angleNames]), .numeric _ _ _,
      .numeric _ _ _, .numeric _ _ _, .numeric _ _ _, .numeric _ _ _, .numeric _ _ _, .noerr,
      .choosing "max" _ _ (by simp), .choosing "min" _ _ (by simp), .sum, .logarithm,
      List.forall_mem_nil _⟩
  exact hall (name, function) h

end Builtin

/-! ## 2. Steps -/

namespace Rule

/-- A rule that evaluates, reads, and binds for a while. Typesetting is left out, since it may record
    something. -/
def Plain : Rule → Prop
  | answer _ => True
  | evaluate _ next => ∀ outcome, (next outcome).Plain
  | typeset _ _ => False
  | read next => ∀ context, (next context).Plain
  | replace _ _ => False
  | within _ _ part next => part.Plain ∧ ∀ outcome, (next outcome).Plain
  | record _ _ => False
  | askAngle next => ∀ angle, (next angle).Plain

theorem plain_value (x : Float) : (value x).Plain := trivial

theorem plain_fail (failure : Failure) : (fail failure).Plain := trivial

theorem plain_onValue {next : Float → Rule} (h : ∀ x, (next x).Plain) (outcome : Outcome) :
    (onValue next outcome).Plain := by
  cases outcome with
  | ok x => exact h x
  | error failure => exact plain_fail failure

theorem plain_argument {next : Float → Rule} (h : ∀ x, (next x).Plain) (index : Nat) :
    (argument index next).Plain :=
  fun outcome => plain_onValue h outcome

theorem plain_foldArguments {combine : Float → Float → Float} {next : Float → Rule}
    (h : ∀ x, (next x).Plain) (count index : Nat) (x : Float) :
    (foldArguments combine next count index x).Plain := by
  induction count generalizing index x with
  | zero => exact h x
  | succ count ih => exact plain_argument (fun y => ih (index + 1) (combine x y)) index

end Rule

/-! ## 3. Sums -/

namespace Sum

theorem plain_addBodies (first : Float) (remaining k : Nat) (total : Float) :
    (addBodies first remaining k total).Plain := by
  induction remaining generalizing k total with
  | zero => exact Rule.plain_value total
  | succ remaining ih =>
    have hbody : (Rule.argument 2 .value).Plain := Rule.plain_argument Rule.plain_value 2
    exact ⟨hbody, Rule.plain_onValue fun x => ih (k + 1) (total + x)⟩

theorem plain_bounded {next : Float → Float → Rule} (h : ∀ first last, (next first last).Plain)
    (last : Expr) : (bounded last next).Plain := by
  unfold bounded
  split
  · exact Rule.plain_fail _
  · split
    · refine Rule.plain_argument (fun first => ?_) 0
      split
      · exact h first _
      · exact Rule.plain_fail _
    · exact Rule.plain_fail _

theorem plain_rule (arguments : List Expr) : (rule arguments).Plain := by
  unfold rule
  split
  · exact plain_bounded (fun first last => Rule.plain_value (range first last)) _
  · exact plain_bounded (fun first last => plain_addBodies _ _ 0 0.0) _
  · exact Rule.plain_fail _

end Sum

/-! ## 4. Builtin functions -/

namespace Builtin

theorem plain_single {next : Float → Rule} (h : ∀ x, (next x).Plain) (name : String)
    (arguments : List Expr) : (single name next arguments).Plain := by
  unfold single
  split
  · exact Rule.plain_argument h 0
  · exact Rule.plain_fail _

theorem plain_choice (name : String) (choose : Float → Float → Float) (arguments : List Expr) :
    (choice name choose arguments).Plain := by
  unfold choice
  split
  · exact Rule.plain_fail _
  · exact Rule.plain_argument (fun x => Rule.plain_foldArguments Rule.plain_value _ 1 x) 0

theorem plain_logarithm (arguments : List Expr) : (logarithm arguments).Plain := by
  unfold logarithm
  split
  · exact Rule.plain_argument (fun _ => Rule.plain_argument (fun _ => Rule.plain_value _) 1) 0
  · exact Rule.plain_fail _

/-- **Every builtin function but `noerr` has plain rules.** -/
theorem plain_or_noerr {name : String} {function : Function} (h : (name, function) ∈ table) :
    (name = "noerr" ∧ function = ⟨.exactly 1, noerr, none⟩) ∨
      ∀ arguments, (function.rule arguments).Plain := by
  cases family h with
  | noerr => exact .inl ⟨rfl, rfl⟩
  | trigonometric name command f =>
    have hnext (x : Float) :
        (Rule.askAngle fun angle => .value (f (angle.toRadians x))).Plain :=
      fun angle => Rule.plain_value (f (angle.toRadians x))
    exact .inr (plain_single hnext name)
  | numeric name f row => exact .inr (plain_single (fun x => Rule.plain_value (f x)) name)
  | choosing name command choose _ => exact .inr (plain_choice name choose)
  | sum => exact .inr Sum.plain_rule
  | logarithm => exact .inr plain_logarithm

end Builtin

end Formula
