/-!
# Places in a source

A place in a source is a byte offset in its UTF-8 form. This file relates it to characters:

* `width` is the number of bytes of a text;
* `before?` gives the characters in front of a place, if the place lies between two characters;
* `pointer` draws the source with a caret under a place.
-/

namespace Formula.Source

/-- The number of bytes that characters take. -/
def width : List Char → Nat
  | [] => 0
  | c :: text => c.utf8Size + width text

@[simp] theorem width_nil : width [] = 0 := rfl

@[simp] theorem width_cons (c : Char) (text : List Char) :
    width (c :: text) = c.utf8Size + width text := rfl

@[simp] theorem width_append (s t : List Char) : width (s ++ t) = width s + width t := by
  induction s with
  | nil => simp
  | cons c s ih => simp [ih, Nat.add_assoc]

/-- The characters before a place, `none` for a place inside a character or past the end. -/
def before? : Nat → List Char → Option (List Char)
  | 0, _ => some []
  | _ + 1, [] => none
  | place + 1, c :: text =>
    if c.utf8Size ≤ place + 1 then (before? (place + 1 - c.utf8Size) text).map (c :: ·) else none

@[simp] theorem before?_zero (text : List Char) : before? 0 text = some [] := by
  cases text <;> rfl

/-- **The characters before the place where a first part ends are that part.** -/
theorem before?_width_append (s t : List Char) : before? (width s) (s ++ t) = some s := by
  induction s with
  | nil => simp
  | cons c s ih =>
    have hc := c.utf8Size_pos
    obtain ⟨n, hn⟩ : ∃ n, c.utf8Size + width s = n + 1 :=
      ⟨c.utf8Size + width s - 1, by omega⟩
    have hs : n + 1 - c.utf8Size = width s := by omega
    have hle : c.utf8Size ≤ n + 1 := by omega
    simp [width_cons, hn, before?, hle, hs, ih]

/-- The column of a place: the number of characters before it, or the number of all characters for
    a place that lies between no two of them. -/
def column (source : String) (place : Nat) : Nat :=
  ((before? place source.toList).getD source.toList).length

/-- The source between two rules as wide as itself, with a caret under the character at a place. -/
def pointer (source : String) (place : Nat) : String :=
  let rule := String.ofList (List.replicate source.length '-')
  let margin := String.ofList (List.replicate (column source place) ' ')
  rule ++ "\n" ++ source ++ "\n" ++ margin ++ "^\n" ++ rule

end Formula.Source
