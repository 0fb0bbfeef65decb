import Formula.Function.Sum
import Formula.Proofs.Tree.Basic

/-!
# Free variables

The variables that a tree reads from outside. A sum binds its index in its body, and it reads the end
of its range off the formula instead of evaluating it, so neither the index in the body nor any
variable in the end is free.

* `Expr.freeVariables` and `Expr.freeInSum` are the definition.
* `mem_freeVariables_first`, `mem_freeVariables_body` and `mem_freeVariables_argument` say which
  variables of the arguments are free in a call.
-/

namespace Formula.Expr

/-- What is free in a sum, from what is free in its arguments. The second argument is the end of the
    range, the third of three is the body. -/
def freeInSum : List (List String) → List String
  | [start, _, body] => start ++ body.filter (· ≠ Sum.index)
  | start :: _ :: others => start ++ others.flatten
  | arguments => arguments.flatten

mutual

/-- The free variables of a tree. -/
def freeVariables : Expr → List String
  | number _ _ | constant _ _ => []
  | var name => [name]
  | binary _ left right => left.freeVariables ++ right.freeVariables
  | call name arguments =>
    if name = "sum" then freeInSum (freeInEach arguments) else (freeInEach arguments).flatten

/-- The free variables of each argument. -/
def freeInEach : List Expr → List (List String)
  | [] => []
  | e :: rest => e.freeVariables :: freeInEach rest

end

theorem freeInEach_eq_map (arguments : List Expr) :
    freeInEach arguments = arguments.map freeVariables := by
  induction arguments with
  | nil => rw [freeInEach, List.map_nil]
  | cons e rest ih => rw [freeInEach, ih, List.map_cons]

variable {name v : String}

/-- In a call of another function nothing is bound. -/
theorem mem_freeVariables_argument {arguments : List Expr} {a : Expr} (hname : name ≠ "sum")
    (ha : a ∈ arguments) (h : v ∈ a.freeVariables) :
    v ∈ (call name arguments).freeVariables := by
  rw [freeVariables, if_neg hname, freeInEach_eq_map]
  exact List.mem_flatten.2 ⟨_, List.mem_map_of_mem ha, h⟩

/-- What is free in the first argument is free in a call. -/
theorem mem_freeVariables_first {a : Expr} {rest : List Expr} (h : v ∈ a.freeVariables) :
    v ∈ (call name (a :: rest)).freeVariables := by
  by_cases hname : name = "sum"
  · rw [freeVariables, if_pos hname, freeInEach_eq_map]
    match rest with
    | [] => exact List.mem_append_left _ h
    | [_] | [_, _] | _ :: _ :: _ :: _ => exact List.mem_append_left _ h
  · exact mem_freeVariables_argument hname List.mem_cons_self h

/-- What is free in the body is free in a sum, unless it is the index. -/
theorem mem_freeVariables_body {start last body : Expr} {rest : List Expr}
    (h : v ∈ body.freeVariables) (hindex : v ≠ Sum.index) :
    v ∈ (call "sum" (start :: last :: body :: rest)).freeVariables := by
  rw [freeVariables, if_pos rfl, freeInEach_eq_map]
  cases rest with
  | nil => exact List.mem_append_right _ (List.mem_filter.2 ⟨h, decide_eq_true hindex⟩)
  | cons => exact List.mem_append_right _ (List.mem_append_left _ h)

end Formula.Expr
