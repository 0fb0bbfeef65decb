import Std.Data.ExtTreeMap

/-!
# Contexts and angles

What the value of a formula depends on besides the formula:

* A context binds names of variables to values. It is what its look-ups say and nothing more: two
  contexts that bind the same names to the same values are equal (`Context.ext`). Each operation has
  one lemma on what it does to a look-up.
* The trigonometric functions read their argument in the current unit of angles.
-/

namespace Formula

/-! ## 1. Contexts -/

/-- The bindings of variables. -/
structure Context where
  bindings : Std.ExtTreeMap String Float

namespace Context

/-- The context without bindings. -/
def empty : Context := ⟨∅⟩

/-- The value bound to a name. -/
def get? (c : Context) (name : String) : Option Float := c.bindings[name]?

/-- Binds a name to a value in place of an earlier one. -/
def set (c : Context) (name : String) (value : Float) : Context := ⟨c.bindings.insert name value⟩

/-- Removes the binding of a name. -/
def erase (c : Context) (name : String) : Context := ⟨c.bindings.erase name⟩

/-- Gives a name the binding it has in an earlier context: that value, or none. -/
def restore (c : Context) (name : String) (earlier : Option Float) : Context :=
  match earlier with
  | some value => c.set name value
  | none => c.erase name

/-- The value that a variable reads; one that is not bound reads zero. -/
def value (c : Context) (name : String) : Float := (c.get? name).getD 0.0

/-- The number of bindings. -/
def size (c : Context) : Nat := c.bindings.size

/-- The bindings, sorted by name. -/
def toList (c : Context) : List (String × Float) := c.bindings.toList

/-- The context with the given bindings; of two for one name the later one counts. -/
def ofList (bindings : List (String × Float)) : Context :=
  bindings.foldl (fun c b => c.set b.1 b.2) empty

/-! ## 2. Look-ups -/

@[ext] theorem ext {c d : Context} (h : ∀ name, c.get? name = d.get? name) : c = d := by
  cases c
  cases d
  exact congrArg Context.mk (Std.ExtTreeMap.ext_getElem? h)

@[simp] theorem get?_empty (name : String) : empty.get? name = none := by
  simp [empty, get?]

theorem get?_set (c : Context) (name other : String) (value : Float) :
    (c.set name value).get? other = if name = other then some value else c.get? other := by
  simp [set, get?, Std.ExtTreeMap.getElem?_insert]

@[simp] theorem get?_set_self (c : Context) (name : String) (value : Float) :
    (c.set name value).get? name = some value := by
  simp [get?_set]

theorem get?_erase (c : Context) (name other : String) :
    (c.erase name).get? other = if name = other then none else c.get? other := by
  simp [erase, get?, Std.ExtTreeMap.getElem?_erase]

theorem get?_restore (c : Context) (name other : String) (earlier : Option Float) :
    (c.restore name earlier).get? other = if name = other then earlier else c.get? other := by
  cases earlier <;> simp [restore, get?_set, get?_erase]

/-- **Restoring what a binding covered undoes the binding.** -/
@[simp] theorem restore_set (c : Context) (name : String) (value : Float) :
    (c.set name value).restore name (c.get? name) = c := by
  ext other : 1
  rw [get?_restore, get?_set]
  split <;> simp_all

end Context

/-! ## 3. Angles -/

/-- The unit of angles. -/
inductive Angle
  | radians
  | degrees
  deriving DecidableEq, Repr

namespace Angle

/-- The unit as it is named in log records. -/
def text : Angle → String
  | radians => "Radians"
  | degrees => "Degrees"

/-- One degree in radians, the double nearest to π / 180. -/
def degree : Float := 0.017453292519943295

/-- An angle in radians. -/
def toRadians : Angle → Float → Float
  | radians, x => x
  | degrees, x => x * degree

end Angle

end Formula
