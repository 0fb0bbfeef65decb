import Formula.Function.Builtin

/-!
# The registry

The functions and constants that formulas can name. Functions and constants are two tables, so one
name may be in both. A registry only grows: a name is registered once, and what it stands for never
changes. It has to be a name that a source can write.

* `Registry.standard` holds the builtin functions and the constants `pi`, `e` and `infty`;
* `addFunction` and `addConstant` register one more name or say why they refuse to.
-/

namespace Formula

/-- A named value with its typeset form. -/
structure Constant where
  value : Float
  display : String

/-- The registered functions and constants, in the order of their registration. -/
structure Registry where
  functions : List (String × Function)
  constants : List (String × Constant)

namespace Registry

/-! ## 1. Looking names up -/

/-- The entry of a table under a name. -/
def lookup? {α : Type} (table : List (String × α)) (name : String) : Option α :=
  (table.find? (·.1 == name)).map (·.2)

/-- The function of a name. -/
def function? (r : Registry) (name : String) : Option Function := lookup? r.functions name

/-- The constant of a name. -/
def constant? (r : Registry) (name : String) : Option Constant := lookup? r.constants name

/-- The names of all functions, sorted. -/
def functionNames (r : Registry) : List String :=
  (r.functions.map (·.1)).mergeSort fun a b => decide (a ≤ b)

/-- The constants that every formula can name. -/
def standardConstants : List (String × Constant) :=
  [ ("pi", ⟨3.141592653589793, "\\pi"⟩),
    ("e", ⟨2.718281828459045, "e"⟩),
    ("infty", ⟨Double.infinity, "\\infty"⟩) ]

/-- The registry before any registration. -/
def standard : Registry := ⟨Builtin.table, standardConstants⟩

/-! ## 2. Registering names -/

/-- Refuses a name that no source can write. -/
def checkName (name : String) : Except Rejection Unit :=
  match name.toList with
  | [] => .error .emptyName
  | c :: rest =>
    if c.isAlpha ∧ rest.all Char.isAlphanum then .ok () else .error (.invalidName name)

/-- Adds an entry to a table under a name that can be written and is not yet in it. -/
def addEntry {α : Type} (table : List (String × α)) (name : String) (value : α) :
    Except Rejection (List (String × α)) :=
  match checkName name with
  | .error rejection => .error rejection
  | .ok () =>
    if (lookup? table name).isSome then .error (.duplicateName name)
    else .ok (table ++ [(name, value)])

/-- Registers a function. -/
def addFunction (r : Registry) (name : String) (function : Function) : Except Rejection Registry :=
  (addEntry r.functions name function).map fun functions => { r with functions }

/-- Registers a constant. -/
def addConstant (r : Registry) (name : String) (constant : Constant) : Except Rejection Registry :=
  (addEntry r.constants name constant).map fun constants => { r with constants }

/-! ## 3. What a registration changes -/

theorem lookup?_append_self {α : Type} {table : List (String × α)} {name : String} (value : α)
    (h : (lookup? table name).isSome = false) :
    lookup? (table ++ [(name, value)]) name = some value := by
  have h' : table.find? (·.1 == name) = none := by
    simpa [lookup?] using h
  simp [lookup?, List.find?_append, h']

theorem lookup?_append_of_ne {α : Type} {table : List (String × α)} {name other : String} (value : α)
    (h : name ≠ other) : lookup? (table ++ [(name, value)]) other = lookup? table other := by
  simp [lookup?, List.find?_append, h]

end Registry

end Formula
