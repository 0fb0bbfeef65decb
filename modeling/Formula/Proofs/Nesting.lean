/-!
# Words on a stack

A word of signs that open and close is run on a stack, sign by sign, and fails where a sign cannot be
taken. A sign that can be taken sees only the top of the stack, so a word that runs on one stack runs
in the same way on top of any other (`run_outer`).
-/

namespace Formula.Nesting

variable {α β : Type} {step : β → List α → Option (List α)}

/-- A sign leaves alone what is further out than what it needs. -/
def Inner (step : β → List α → Option (List α)) : Prop :=
  ∀ sign stack left, step sign stack = some left →
    ∀ outer, step sign (stack ++ outer) = some (left ++ outer)

theorem run_outer (hstep : Inner step) {word : List β} {stack left : List α}
    (h : word.foldlM (fun stack sign => step sign stack) stack = some left) (outer : List α) :
    word.foldlM (fun stack sign => step sign stack) (stack ++ outer) = some (left ++ outer) := by
  induction word generalizing stack with
  | nil =>
    cases h
    rfl
  | cons sign rest ih =>
    obtain ⟨middle, hsign, hrest⟩ := Option.bind_eq_some_iff.1 h
    exact Option.bind_eq_some_iff.2 ⟨_, hstep sign stack middle hsign outer, ih hrest⟩

end Formula.Nesting
