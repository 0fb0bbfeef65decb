import Formula.Proofs.Grammar.Calls
import Formula.Proofs.Registry.Growth
import Formula.Session.Request

/-!
# Registrations

A session registers a name for a function or for a constant. What it accepts are exactly the names that a
source can write, each once for functions and once for constants; a refusal changes nothing. What has
been accepted can be used ever after, whatever is registered or refused later.

* `checkName_cases`: the names that are accepted are those that are scanned as one identifier.
* `Entered`: one name has an entry, and all else stands for what it did before.
* `Usable`: what an entry is good for. The name of a constant is a source with its value and its display, and
  a call of a function is read for exactly the argument counts that the function accepts.
* `Session.register_atomic` is the main statement.
-/

namespace Formula

open Token (IsName)

/-! ## 1. Names -/

namespace Registry

theorem not_isName_empty : ¬ IsName "" := by
  rw [Token.isName_iff_fits]
  nofun

/-- **The names that can be registered are those that a source can write.** -/
theorem checkName_cases (name : String) :
    (name = "" ∧ checkName name = .error .emptyName) ∨
      (IsName name ∧ checkName name = .ok ()) ∨
      (name ≠ "" ∧ ¬ IsName name ∧ checkName name = .error (.invalidName name)) := by
  rw [Token.isName_iff_fits, checkName]
  cases hname : name.toList with
  | nil => exact .inl ⟨by simpa using hname, rfl⟩
  | cons c rest =>
    have hne : name ≠ "" := by
      rintro rfl
      cases hname
    dsimp only
    by_cases hfits : c.isAlpha = true ∧ rest.all Char.isAlphanum = true
    · rw [if_pos hfits]
      exact .inr (.inl ⟨.identifier hfits.1 (List.all_eq_true.1 hfits.2), rfl⟩)
    · rw [if_neg hfits]
      refine .inr (.inr ⟨hne, fun h => hfits ?_, rfl⟩)
      cases h with
      | identifier hc hmore => exact ⟨hc, List.all_eq_true.2 hmore⟩

/-! ## 2. Entries of a table -/

section Entries

variable {α : Type} {table table' : List (String × α)} {name : String} {value : α}

theorem addEntry_ok_iff :
    (∃ table', addEntry table name value = .ok table') ↔
      IsName name ∧ (lookup? table name).isSome = false := by
  unfold addEntry
  rcases checkName_cases name with ⟨rfl, hcheck⟩ | ⟨hname, hcheck⟩ | ⟨_, hname, hcheck⟩
  · rw [hcheck]
    exact iff_of_false nofun fun h => not_isName_empty h.1
  · rw [hcheck]
    cases hlookup : (lookup? table name).isSome <;> simp [hname]
  · rw [hcheck]
    exact iff_of_false nofun fun h => hname h.1

/-- Why a name is refused. -/
structure Refused (name : String) (rejection : Rejection) : Prop where
  empty : name = "" → rejection = .emptyName
  invalid : name ≠ "" → ¬ IsName name → rejection = .invalidName name
  duplicate : IsName name → rejection = .duplicateName name

theorem addEntry_error {rejection : Rejection} (h : addEntry table name value = .error rejection) :
    Refused name rejection := by
  unfold addEntry at h
  rcases checkName_cases name with ⟨rfl, hcheck⟩ | ⟨hname, hcheck⟩ | ⟨hne, hname, hcheck⟩
  · rw [hcheck] at h
    cases h
    exact ⟨fun _ => rfl, fun hne => absurd rfl hne, fun hname => absurd hname not_isName_empty⟩
  · have hne : name ≠ "" := fun hempty => not_isName_empty (hempty ▸ hname)
    rw [hcheck] at h
    dsimp only at h
    split at h
    · cases h
      exact ⟨fun hempty => absurd hempty hne, fun _ hother => absurd hname hother, fun _ => rfl⟩
    · cases h
  · rw [hcheck] at h
    cases h
    exact ⟨fun hempty => absurd hempty hne, fun _ _ => rfl, fun hother => absurd hother hname⟩

theorem lookup?_addEntry (h : addEntry table name value = .ok table') (other : String) :
    lookup? table' other = if other = name then some value else lookup? table other := by
  obtain ⟨_, hfresh⟩ := addEntry_ok_iff.1 ⟨_, h⟩
  rw [addEntry_ok h]
  split
  case isTrue hother => rw [hother, lookup?_append_self value hfresh]
  case isFalse hother => exact lookup?_append_of_ne value (Ne.symm hother)

end Entries

end Registry

/-! ## 3. What a session registers -/

/-- What is registered under a name. A constant may come without a display and is then typeset as its
    name. -/
inductive Entry
  | function (function : Function)
  | constant (value : Float) (display : Option String)

/-- Registers a name for an entry. -/
def Session.register (s : Session) (name : String) : Entry → Except Rejection Session
  | .function function => s.registerFunction name function
  | .constant value display => s.registerConstant name value display

namespace Registry

/-- Whether the table of an entry has the name already. -/
def has (r : Registry) (name : String) : Entry → Bool
  | .function _ => (r.function? name).isSome
  | .constant _ _ => (r.constant? name).isSome

/-- A name has an entry in the later registry, and all other names of its table and all names of the other
    table stand for what they did before. -/
def Entered (earlier later : Registry) (name : String) : Entry → Prop
  | .function function =>
    (∀ other, later.function? other =
      if other = name then some function else earlier.function? other) ∧
    ∀ other, later.constant? other = earlier.constant? other
  | .constant value display =>
    (∀ other, later.constant? other =
      if other = name then some ⟨value, display.getD name⟩ else earlier.constant? other) ∧
    ∀ other, later.function? other = earlier.function? other

/-- What the name of an entry is good for in sources. -/
def Usable (r : Registry) (name : String) : Entry → Prop
  | .function function => ∀ sources es,
    List.Forall₂ (fun source e => Expr.ofSource r source = .ok e) sources es →
    ((Expr.ofSource r (Grammar.callText name sources)).mapError Fault.cause =
      if function.arity.accepts es.length then .ok (.call name es)
      else .error (.wrongArgumentCount name function.arity es.length)) ∧
    ∀ angle s, (Expr.call name es).eval r angle s =
      if function.arity.accepts es.length then Expr.apply r angle function es s
      else (.error (.wrongArgumentCount name function.arity es.length), s)
  | .constant value display => ∀ s : Session, s.registry = r →
    (s.evaluate name).1 = .ok value ∧ (s.typeset name).1 = .ok (display.getD name)

theorem Usable.constant {r : Registry} {name : String} (hname : IsName name) {value : Float}
    {display : Option String} (h : r.constant? name = some ⟨value, display.getD name⟩) :
    r.Usable name (.constant value display) := by
  rintro s rfl
  have hparse : s.parse name = .ok (.constant name value) := Grammar.ofSource_name hname h
  constructor
  · rw [Session.evaluate, hparse]
    rfl
  · rw [Session.typeset, hparse]
    simp [Session.typesetTree, Latex.typeset, Latex.ofExpr, h]

theorem Usable.function {r : Registry} {name : String} (hname : IsName name) {function : Function}
    (h : r.function? name = some function) : r.Usable name (.function function) := by
  intro sources es hsources
  refine ⟨Grammar.ofSource_call hname h hsources, fun angle s => ?_⟩
  rw [Expr.eval, h]
  rfl

/-- An accepted entry can be used, also after more registrations. -/
theorem Entered.usable {earlier later : Registry} {name : String} (hname : IsName name) {entry : Entry}
    (h : Entered earlier later name entry) (more : List Registration) :
    (later.after more).Usable name entry := by
  cases entry with
  | function function =>
    have hfunction : later.function? name = some function := by rw [h.1 name, if_pos rfl]
    exact .function hname ((after_extends later more).function hfunction)
  | constant value display =>
    have hconstant : later.constant? name = some ⟨value, display.getD name⟩ := by
      rw [h.1 name, if_pos rfl]
    exact .constant hname ((after_extends later more).constant hconstant)

end Registry

namespace Session

open Registry

/-- A name is entered if it can be written and is not in the table yet, and otherwise refused. -/
theorem register_cases (s : Session) (name : String) (entry : Entry) :
    (∃ t, s.register name entry = .ok t ∧ IsName name ∧ s.registry.has name entry = false ∧
      Entered s.registry t.registry name entry) ∨
    ∃ rejection, s.register name entry = .error rejection ∧ Refused name rejection ∧
      ¬ (IsName name ∧ s.registry.has name entry = false) := by
  cases entry with
  | function function =>
    rw [register, registerFunction, addFunction]
    cases hadd : addEntry s.registry.functions name function with
    | ok functions =>
      obtain ⟨hname, hfresh⟩ := addEntry_ok_iff.1 ⟨_, hadd⟩
      exact .inl ⟨_, rfl, hname, hfresh, lookup?_addEntry hadd, fun _ => rfl⟩
    | error rejection =>
      refine .inr ⟨rejection, rfl, addEntry_error hadd, fun hfree => ?_⟩
      obtain ⟨functions, hok⟩ := addEntry_ok_iff.2 hfree
      rw [hadd] at hok
      cases hok
  | constant value display =>
    rw [register, registerConstant, addConstant]
    cases hadd : addEntry s.registry.constants name ⟨value, display.getD name⟩ with
    | ok constants =>
      obtain ⟨hname, hfresh⟩ := addEntry_ok_iff.1 ⟨_, hadd⟩
      exact .inl ⟨_, rfl, hname, hfresh, lookup?_addEntry hadd, fun _ => rfl⟩
    | error rejection =>
      refine .inr ⟨rejection, rfl, addEntry_error hadd, fun hfree => ?_⟩
      obtain ⟨constants, hok⟩ := addEntry_ok_iff.2 hfree
      rw [hadd] at hok
      cases hok

/-- **Registration accepts exactly the names that a source can write and that are free, and what it accepts
    can be used.** A refusal says why and leaves the session as it was. An entry that has been accepted
    changes nothing else, and no later registration, whether accepted or refused, changes what it is
    good for. -/
theorem register_atomic (s : Session) (name : String) (entry : Entry) :
    ((∃ t, s.register name entry = .ok t) ↔ IsName name ∧ s.registry.has name entry = false) ∧
    (∀ rejection, s.register name entry = .error rejection → Refused name rejection ∧
      Request.registration s (s.register name entry) = (.rejection rejection, s)) ∧
    ∀ t, s.register name entry = .ok t → Entered s.registry t.registry name entry ∧
      ∀ more, (t.registry.after more).Usable name entry := by
  rcases register_cases s name entry with ⟨t, hok, hname, hfresh, hentered⟩ |
    ⟨rejection, herror, hrefused, hfree⟩
  · rw [hok]
    refine ⟨iff_of_true ⟨t, rfl⟩ ⟨hname, hfresh⟩, nofun, fun u hu => ?_⟩
    cases hu
    exact ⟨hentered, hentered.usable hname⟩
  · rw [herror]
    refine ⟨iff_of_false nofun hfree, fun other hother => ?_, nofun⟩
    cases hother
    exact ⟨hrefused, rfl⟩

/-- A new constant without a display is registered once and has its value and its name from then on; a name
    with a sign in it is refused. -/
theorem register_atomic_constant :
    (∃ t, fresh.register "k" (.constant 2.0 none) = .ok t ∧
      ∀ (more : List Registration) (u : Session), u.registry = t.registry.after more →
        (u.evaluate "k").1 = .ok 2.0 ∧ (u.typeset "k").1 = .ok "k") ∧
      ∃ rejection, fresh.register "k_1" (.constant 2.0 none) = .error rejection ∧
        rejection = .invalidName "k_1" := by
  constructor
  · obtain ⟨haccepted, -, husable⟩ := register_atomic fresh "k" (.constant 2.0 none)
    have hname : IsName "k" :=
      Token.isName_iff_fits.2 (.identifier rfl (List.forall_mem_nil _))
    obtain ⟨t, ht⟩ := haccepted.2 ⟨hname, rfl⟩
    exact ⟨t, ht, fun more u hu => (husable t ht).2 more u hu⟩
  · obtain ⟨-, hrefused, -⟩ := register_atomic fresh "k_1" (.constant 2.0 none)
    have hname : ¬ IsName "k_1" := by
      rw [Token.isName_iff_fits]
      intro h
      cases h with
      | identifier _ hmore => exact absurd (hmore '_' List.mem_cons_self) (by decide)
    obtain ⟨rejection, hrejection⟩ : ∃ rejection,
        fresh.register "k_1" (.constant 2.0 none) = .error rejection := ⟨_, rfl⟩
    exact ⟨rejection, hrejection, (hrefused rejection hrejection).1.invalid (by decide) hname⟩

end Session

end Formula
