import Formula.Registry

/-!
# How a registry grows

A registry comes about from the standard one by registrations, each of which may be refused.

* `Registry.after` carries out a row of registrations; one that is refused changes nothing.
* `Registry.Reachable`: the registries that come about.
* `Registry.Extends`: all that is registered in one registry stands for the same in another. A row of
  registrations extends (`after_extends`), since a name is looked up where it was registered first.
* A builtin function stands for itself in every reachable registry (`Reachable.builtin`).
-/

namespace Formula

/-- What is to be registered under a name. -/
inductive Registration
  | function (name : String) (function : Function)
  | constant (name : String) (constant : Constant)

namespace Registry

/-! ## 1. Look-ups -/

theorem lookup?_append_of_some {α : Type} {table : List (String × α)} {name : String} {value : α}
    (h : lookup? table name = some value) (more : List (String × α)) :
    lookup? (table ++ more) name = some value := by
  obtain ⟨entry, hentry, hvalue⟩ := Option.map_eq_some_iff.1 h
  rw [lookup?, List.find?_append, hentry, Option.some_or, Option.map_some, hvalue]

theorem mem_of_lookup? {α : Type} {table : List (String × α)} {name : String} {value : α}
    (h : lookup? table name = some value) : (name, value) ∈ table := by
  obtain ⟨⟨key, v⟩, hentry, rfl⟩ := Option.map_eq_some_iff.1 h
  have hkey : key = name := by simpa using List.find?_some hentry
  rw [← hkey]
  exact List.mem_of_find?_eq_some hentry

theorem exists_lookup?_of_mem {α : Type} {table : List (String × α)} {name : String}
    (h : name ∈ table.map (·.1)) : ∃ value, lookup? table name = some value := by
  obtain ⟨entry, hentry, rfl⟩ := List.mem_map.1 h
  have hsome : (table.find? (·.1 == entry.1)).isSome = true :=
    List.find?_isSome.2 ⟨entry, hentry, by simp⟩
  obtain ⟨found, hfound⟩ := Option.isSome_iff_exists.1 hsome
  exact ⟨found.2, by rw [lookup?, hfound, Option.map_some]⟩

theorem addEntry_ok {α : Type} {table table' : List (String × α)} {name : String} {value : α}
    (h : addEntry table name value = .ok table') : table' = table ++ [(name, value)] := by
  unfold addEntry at h
  split at h
  · cases h
  · split at h
    · cases h
    · exact (Except.ok.inj h).symm

/-! ## 2. Rows of registrations -/

/-- Carries out a registration or says why it is refused. -/
def add (r : Registry) : Registration → Except Rejection Registry
  | .function name function => r.addFunction name function
  | .constant name constant => r.addConstant name constant

/-- The registry after a registration, whether or not it is refused. -/
def register (r : Registry) (registration : Registration) : Registry :=
  match r.add registration with
  | .ok s => s
  | .error _ => r

/-- The registry after a row of registrations. -/
def after (r : Registry) (registrations : List Registration) : Registry :=
  registrations.foldl register r

/-- The registries that come about from the standard one. -/
def Reachable (r : Registry) : Prop := ∃ registrations, r = standard.after registrations

theorem reachable_standard : standard.Reachable := ⟨[], rfl⟩

theorem Reachable.after {r : Registry} (h : r.Reachable) (registrations : List Registration) :
    (r.after registrations).Reachable := by
  obtain ⟨earlier, rfl⟩ := h
  exact ⟨earlier ++ registrations, by simp only [Registry.after, List.foldl_append]⟩

/-! ## 3. Extension -/

/-- All that is registered in one registry stands for the same in another. -/
structure Extends (r s : Registry) : Prop where
  function : ∀ {name : String} {function : Function}, r.function? name = some function →
    s.function? name = some function
  constant : ∀ {name : String} {constant : Constant}, r.constant? name = some constant →
    s.constant? name = some constant

theorem Extends.refl (r : Registry) : r.Extends r := ⟨id, id⟩

theorem Extends.trans {r s t : Registry} (hrs : r.Extends s) (hst : s.Extends t) : r.Extends t :=
  ⟨fun h => hst.function (hrs.function h), fun h => hst.constant (hrs.constant h)⟩

theorem add_extends {r s : Registry} {registration : Registration}
    (h : r.add registration = .ok s) : r.Extends s := by
  cases registration with
  | function name function =>
    rw [add, addFunction] at h
    cases hentry : addEntry r.functions name function with
    | error rejection => rw [hentry] at h; cases h
    | ok functions =>
      rw [hentry] at h
      cases h
      rw [addEntry_ok hentry]
      exact ⟨fun hname => lookup?_append_of_some hname _, id⟩
  | constant name constant =>
    rw [add, addConstant] at h
    cases hentry : addEntry r.constants name constant with
    | error rejection => rw [hentry] at h; cases h
    | ok constants =>
      rw [hentry] at h
      cases h
      rw [addEntry_ok hentry]
      exact ⟨id, fun hname => lookup?_append_of_some hname _⟩

theorem register_extends (r : Registry) (registration : Registration) :
    r.Extends (r.register registration) := by
  unfold register
  split
  · rename_i s hs
    exact add_extends hs
  · exact .refl r

/-- **A row of registrations only adds.** -/
theorem after_extends (r : Registry) (registrations : List Registration) :
    r.Extends (r.after registrations) := by
  induction registrations generalizing r with
  | nil => exact .refl r
  | cons registration rest ih => exact (register_extends r registration).trans (ih _)

/-! ## 4. Builtin functions -/

/-- A registry that comes about has all that the standard one has. -/
theorem Reachable.extends_standard {r : Registry} (h : r.Reachable) : standard.Extends r := by
  obtain ⟨registrations, rfl⟩ := h
  exact after_extends standard registrations

/-- **A builtin name stands for its function in every registry that comes about.** -/
theorem Reachable.builtin {r : Registry} (h : r.Reachable) {name : String}
    (hname : name ∈ Builtin.names) :
    ∃ function, r.function? name = some function ∧ (name, function) ∈ Builtin.table := by
  obtain ⟨function, hfunction⟩ := exists_lookup?_of_mem hname
  exact ⟨function, h.extends_standard.function hfunction, mem_of_lookup? hfunction⟩

theorem Reachable.sum {r : Registry} (h : r.Reachable) :
    r.function? "sum" = some ⟨.variadic, Sum.rule, some Sum.row.form⟩ :=
  h.extends_standard.function rfl

theorem Reachable.noerr {r : Registry} (h : r.Reachable) :
    r.function? "noerr" = some ⟨.exactly 1, Builtin.noerr, none⟩ :=
  h.extends_standard.function rfl

end Registry

end Formula
