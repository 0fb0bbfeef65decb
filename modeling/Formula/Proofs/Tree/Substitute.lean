import Formula.Proofs.Tree.Free
import Mathlib.Data.List.Basic

/-!
# Substitution

Replaces the free occurrences of a variable by a number. A sum of three arguments binds its index in
its body, so there the index is not replaced; the ends of ranges are replaced like everything else.

* `Expr.substitute` is the definition; `getElem?_substituteFrom` says what becomes of an argument.
* `Expr.ends` lists the ends of the ranges in a tree.
* `Expr.substitute_of_notMem`: where the variable does not occur, nothing is replaced.
* `Expr.notMem_freeVariables_substitute`: where a number stands for a variable, the variable is not
  free any more.
-/

namespace Formula.Expr

/-! ## 1. Substitution -/

/-- Whether a call binds a variable in its argument number `index`, of `count` arguments. -/
def binds (name : String) (count index : Nat) (x : String) : Bool :=
  name == "sum" && count == 3 && index == 2 && x == Sum.index

mutual

/-- Replaces the free occurrences of a variable by a number. -/
def substitute (x : String) (value : Float) (text : String) : Expr → Expr
  | number v written => number v written
  | constant name v => constant name v
  | var name => if name = x then number value text else var name
  | binary symbol left right =>
    binary symbol (left.substitute x value text) (right.substitute x value text)
  | call name arguments =>
    call name (substituteFrom x value text (binds name arguments.length · x) 0 arguments)

/-- Replaces the free occurrences in arguments from number `index` on, but not where the variable is
    bound. -/
def substituteFrom (x : String) (value : Float) (text : String) (bound : Nat → Bool)
    (index : Nat) : List Expr → List Expr
  | [] => []
  | e :: rest =>
    (if bound index then e else e.substitute x value text) ::
      substituteFrom x value text bound (index + 1) rest

end

variable {x : String} {value : Float} {text : String}

/-- **Each argument is replaced on its own.** -/
theorem getElem?_substituteFrom (bound : Nat → Bool) (index : Nat) (arguments : List Expr)
    (i : Nat) :
    (substituteFrom x value text bound index arguments)[i]? =
      arguments[i]?.map fun e => if bound (index + i) then e else e.substitute x value text := by
  induction arguments generalizing index i with
  | nil => rfl
  | cons e rest ih =>
    rw [substituteFrom]
    cases i with
    | zero => rfl
    | succ i => rw [List.getElem?_cons_succ, List.getElem?_cons_succ, ih, Nat.add_right_comm,
        Nat.add_assoc]

theorem length_substituteFrom (bound : Nat → Bool) (index : Nat) (arguments : List Expr) :
    (substituteFrom x value text bound index arguments).length = arguments.length := by
  induction arguments generalizing index with
  | nil => rfl
  | cons e rest ih => rw [substituteFrom, List.length_cons, ih, List.length_cons]

/-! ## 2. Ends of ranges -/

/-- The end of the range of a sum, from its arguments. -/
def endOf : List Expr → List Expr
  | [_, last] | [_, last, _] => [last]
  | _ => []

mutual

/-- The ends of the ranges of all sums in a tree. -/
def ends : Expr → List Expr
  | number _ _ | constant _ _ | var _ => []
  | binary _ left right => left.ends ++ right.ends
  | call name arguments => (if name = "sum" then endOf arguments else []) ++ endsAll arguments

/-- The ends of the ranges of all sums in arguments. -/
def endsAll : List Expr → List Expr
  | [] => []
  | e :: rest => e.ends ++ endsAll rest

end

theorem mem_endsAll {arguments : List Expr} {last : Expr} :
    last ∈ endsAll arguments ↔ ∃ a ∈ arguments, last ∈ a.ends := by
  induction arguments with
  | nil => simp [endsAll]
  | cons a rest ih => simp [endsAll, ih]

theorem forall_ends_binary {P : Expr → Prop} {symbol : Char} {left right : Expr} :
    (∀ last ∈ (binary symbol left right).ends, P last) ↔
      (∀ last ∈ left.ends, P last) ∧ ∀ last ∈ right.ends, P last := by
  simp only [ends, List.forall_mem_append]

theorem forall_ends_call {P : Expr → Prop} {name : String} {arguments : List Expr} :
    (∀ last ∈ (call name arguments).ends, P last) ↔
      (name = "sum" → ∀ last ∈ endOf arguments, P last) ∧
        ∀ a ∈ arguments, ∀ last ∈ a.ends, P last := by
  rw [ends, List.forall_mem_append]
  refine and_congr ?_ ?_
  · split <;> simp_all
  · constructor
    · intro h a ha last hlast
      exact h last (mem_endsAll.2 ⟨a, ha, hlast⟩)
    · intro h last hlast
      obtain ⟨a, ha, hmem⟩ := mem_endsAll.1 hlast
      exact h a ha last hmem

/-! ## 3. What a substitution leaves -/

theorem substituteFrom_of_forall {bound : Nat → Bool} {arguments : List Expr}
    (h : ∀ a ∈ arguments, a.substitute x value text = a) (index : Nat) :
    substituteFrom x value text bound index arguments = arguments := by
  induction arguments generalizing index with
  | nil => rfl
  | cons a rest ih =>
    obtain ⟨ha, hrest⟩ := List.forall_mem_cons.1 h
    rw [substituteFrom, ih hrest, ha, ite_self]

/-- **Where the variable does not occur, nothing is replaced.** -/
theorem substitute_of_notMem {e : Expr} (h : x ∉ e.variableNames) :
    e.substitute x value text = e := by
  induction e with
  | number _ _ => rw [substitute]
  | constant _ _ => rw [substitute]
  | var name =>
    have hname : name ≠ x := by
      rintro rfl
      simp [variableNames] at h
    rw [substitute, if_neg hname]
  | binary symbol left right ihleft ihright =>
    rw [variableNames, List.mem_append, not_or] at h
    rw [substitute, ihleft h.1, ihright h.2]
  | call name arguments ih =>
    have hnames : ∀ other ∈ (call name arguments).variableNames, other ≠ x :=
      fun other hother hx => h (hx ▸ hother)
    have harguments := forall_variableNames_call.1 hnames
    rw [substitute, substituteFrom_of_forall fun a ha => ih a ha fun hx => harguments a ha x hx rfl]

/-- A substitution of a number calls what the tree calls. -/
theorem callees_substitute (e : Expr) :
    (e.substitute x value text).callees = e.callees := by
  induction e with
  | number _ _ => rw [substitute]
  | constant _ _ => rw [substitute]
  | var name =>
    rw [substitute]
    split <;> rfl
  | binary symbol left right ihleft ihright => rw [substitute, callees, callees, ihleft, ihright]
  | call name arguments ih =>
    have hall (bound : Nat → Bool) (index : Nat) :
        calleesAll (substituteFrom x value text bound index arguments) =
          calleesAll arguments := by
      induction arguments generalizing index with
      | nil => rfl
      | cons a rest ihrest =>
        obtain ⟨ha, hrest⟩ := List.forall_mem_cons.1 ih
        rw [substituteFrom, calleesAll, calleesAll, ihrest hrest]
        split
        · rfl
        · rw [ha]
    rw [substitute, callees, callees, hall]

/-- What is free in a sum is free in an argument. -/
theorem mem_flatten_of_mem_freeInSum {v : String} {lists : List (List String)}
    (h : v ∈ freeInSum lists) : v ∈ lists.flatten := by
  unfold freeInSum at h
  split at h
  · rcases List.mem_append.1 h with hstart | hbody
    · exact List.mem_flatten_of_mem List.mem_cons_self hstart
    · exact List.mem_flatten_of_mem (by simp) (List.mem_filter.1 hbody).1
  · rcases List.mem_append.1 h with hstart | hothers
    · exact List.mem_flatten_of_mem List.mem_cons_self hstart
    · simp only [List.flatten_cons, List.mem_append]
      exact .inr (.inr hothers)
  · exact h

/-- What is free in a call is free in an argument in which it is not bound. -/
theorem exists_of_mem_freeVariables {name v : String} {arguments : List Expr}
    (h : v ∈ (call name arguments).freeVariables) :
    ∃ i a, arguments[i]? = some a ∧ v ∈ a.freeVariables ∧
      binds name arguments.length i v = false := by
  rw [freeVariables, freeInEach_eq_map] at h
  by_cases hindex : name = "sum" ∧ arguments.length = 3 ∧ v = Sum.index
  · obtain ⟨rfl, hlength, rfl⟩ := hindex
    obtain ⟨start, last, body, rfl⟩ := List.length_eq_three.1 hlength
    rw [if_pos rfl] at h
    rcases List.mem_append.1 h with hstart | hbody
    · exact ⟨0, start, rfl, hstart, rfl⟩
    · exact absurd rfl (of_decide_eq_true (List.mem_filter.1 hbody).2)
  · have hflat : v ∈ (arguments.map freeVariables).flatten := by
      split at h
      · exact mem_flatten_of_mem_freeInSum h
      · exact h
    obtain ⟨names, hnames, hv⟩ := List.mem_flatten.1 hflat
    obtain ⟨a, ha, rfl⟩ := List.mem_map.1 hnames
    obtain ⟨i, hi⟩ := List.getElem?_of_mem ha
    refine ⟨i, a, hi, hv, ?_⟩
    refine Bool.eq_false_iff.2 fun hbinds => hindex ?_
    simp only [binds, Bool.and_eq_true, beq_iff_eq] at hbinds
    exact ⟨hbinds.1.1.1, hbinds.1.1.2, hbinds.2⟩

/-- **A variable that a number stands for is not free any more.** -/
theorem notMem_freeVariables_substitute (e : Expr) :
    x ∉ (e.substitute x value text).freeVariables := by
  induction e with
  | number _ _ => simp [substitute, freeVariables]
  | constant _ _ => simp [substitute, freeVariables]
  | var name =>
    rw [substitute]
    split
    · simp [freeVariables]
    · rename_i hname
      simpa [freeVariables] using fun h : x = name => hname h.symm
  | binary symbol left right ihleft ihright =>
    rw [substitute, freeVariables, List.mem_append, not_or]
    exact ⟨ihleft, ihright⟩
  | call name arguments ih =>
    intro h
    rw [substitute] at h
    obtain ⟨i, e, he, hfree, hbinds⟩ := exists_of_mem_freeVariables h
    rw [length_substituteFrom] at hbinds
    rw [getElem?_substituteFrom, Nat.zero_add] at he
    obtain ⟨a, ha, rfl⟩ := Option.map_eq_some_iff.1 he
    rw [hbinds, if_neg Bool.false_ne_true] at hfree
    exact ih a (List.mem_of_getElem? ha) hfree

end Formula.Expr
