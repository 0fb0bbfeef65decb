import Formula.Proofs.Token.Split
import Mathlib.Data.List.DropRight

/-!
# Where the caret is drawn

The block that is drawn for a place shows the source between two rules, with a caret on a line of its own
in front of the second rule. A source may have several lines, since line breaks are blanks. Here the
block is read as rows and columns.

* `row before` and `lineColumn before`: the row of what stands behind a text, and its column in that row.
* `throughRule source before` and `throughMargin source place`: the block up to the character behind
  `before`, and up to the caret.
* `row_throughMargin` and `lineColumn_throughMargin` say where the caret is: below the last line, in the
  column that counts all characters before the place.

`caret_below_iff` is the main statement: the caret stands under its character exactly if the source has
one line.
-/

namespace Formula.Source

/-! ## 1. Rows and columns -/

/-- The row of what stands behind a text: one for each line break. -/
def row (before : List Char) : Nat := before.count '\n'

/-- The column of what stands behind a text: the length of what it has after the last line break. -/
def lineColumn (before : List Char) : Nat := (before.rtakeWhile (· ≠ '\n')).length

/-- What stands behind `lower` is on the next row and in the same column as what stands behind
    `upper`. -/
def Below (upper lower : List Char) : Prop :=
  row lower = row upper + 1 ∧ lineColumn lower = lineColumn upper

instance (upper lower : List Char) : Decidable (Below upper lower) :=
  inferInstanceAs (Decidable (_ ∧ _))

/-- **The column counts all characters exactly if there is no line break.** -/
theorem lineColumn_eq_length_iff {before : List Char} :
    lineColumn before = before.length ↔ '\n' ∉ before := by
  constructor
  · intro h hmem
    have hsame := (List.rtakeWhile_suffix (· ≠ '\n') before).eq_of_length h
    have hall := List.rtakeWhile_eq_self_iff.1 hsame
    simpa using hall '\n' hmem
  · intro h
    have hsame : before.rtakeWhile (· ≠ '\n') = before := by
      refine List.rtakeWhile_eq_self_iff.2 fun c hc => ?_
      simpa using ne_of_mem_of_not_mem hc h
    rw [lineColumn, hsame]

/-- What stands before a line break does not count for the column. -/
theorem lineColumn_append (front before : List Char) :
    lineColumn (front ++ '\n' :: before) = lineColumn before := by
  have hreverse : (front ++ '\n' :: before).reverse = before.reverse ++ '\n' :: front.reverse := by
    simp
  rw [lineColumn, lineColumn, List.rtakeWhile, List.rtakeWhile, hreverse, List.takeWhile_append]
  split
  · rename_i hall
    have hsame := (List.takeWhile_prefix (· ≠ '\n')).eq_of_length hall
    rw [hsame]
    simp
  · rfl

theorem row_append (front before : List Char) :
    row (front ++ '\n' :: before) = row front + row before + 1 := by
  rw [row, List.count_append, List.count_cons_self, row, row]
  omega

/-! ## 2. The block -/

/-- The rule over and under a source. -/
def rule (source : String) : List Char := List.replicate source.length '-'

/-- The block from its beginning up to the character of the source behind `before`. -/
def throughRule (source : String) (before : List Char) : List Char :=
  rule source ++ '\n' :: before

/-- The block from its beginning up to the caret. -/
def throughMargin (source : String) (place : Nat) : List Char :=
  rule source ++ '\n' :: (source.toList ++ '\n' :: List.replicate (column source place) ' ')

/-- **The caret and the second rule are the end of the block.** -/
theorem pointer_toList (source : String) (place : Nat) :
    (pointer source place).toList = throughMargin source place ++ '^' :: '\n' :: rule source := by
  simp [pointer, throughMargin, rule]

/-- Neither a rule nor the margin of the caret has a line break. -/
theorem break_notMem_replicate {c : Char} (hc : c ≠ '\n') (n : Nat) : '\n' ∉ List.replicate n c :=
  fun hmem => hc (List.eq_of_mem_replicate hmem).symm

theorem row_rule (source : String) : row (rule source) = 0 :=
  List.count_eq_zero.2 (break_notMem_replicate (by decide) _)

theorem row_throughRule (source : String) (before : List Char) :
    row (throughRule source before) = row before + 1 := by
  rw [throughRule, row_append, row_rule, Nat.zero_add]

theorem lineColumn_throughRule (source : String) (before : List Char) :
    lineColumn (throughRule source before) = lineColumn before := lineColumn_append _ _

/-- **The caret is on the row below the last line of the source.** -/
theorem row_throughMargin (source : String) (place : Nat) :
    row (throughMargin source place) = row source.toList + 2 := by
  have hmargin : row (List.replicate (column source place) ' ') = 0 :=
    List.count_eq_zero.2 (break_notMem_replicate (by decide) _)
  rw [throughMargin, row_append, row_append, row_rule, hmargin]
  omega

/-- **The caret is in the column that counts all characters before its place.** -/
theorem lineColumn_throughMargin (source : String) (place : Nat) :
    lineColumn (throughMargin source place) = column source place := by
  have hmargin := lineColumn_eq_length_iff.2
    (break_notMem_replicate (by decide : ' ' ≠ '\n') (column source place))
  rw [throughMargin, lineColumn_append, lineColumn_append, hmargin, List.length_replicate]

/-! ## 3. The caret and its character -/

section Inside

variable {source : String} {before after : List Char} {c : Char}
  (h : source.toList = before ++ c :: after)

include h

/-- The character is shown where the source up to it ends. -/
theorem pointer_shows (place : Nat) :
    throughRule source before ++ [c] <+: (pointer source place).toList := by
  rw [pointer_toList, throughMargin, throughRule, h]
  simp

theorem column_width : column source (width before) = before.length := by
  rw [column, h, before?_width_append, Option.getD_some]

/-- **The caret stands under its character exactly if the source has no line break.** The block shows the
    character behind the rule and `before`, and it ends with the caret and the second rule. The caret is
    as many rows below the character as there are line breaks from the character on, and one more;
    its column counts the characters of all lines before the place. -/
theorem caret_below_iff :
    throughRule source before ++ [c] <+: (pointer source (width before)).toList ∧
    (pointer source (width before)).toList =
      throughMargin source (width before) ++ '^' :: '\n' :: rule source ∧
    row (throughMargin source (width before)) =
      row (throughRule source before) + row (c :: after) + 1 ∧
    lineColumn (throughMargin source (width before)) = before.length ∧
    lineColumn (throughRule source before) = lineColumn before ∧
    (Below (throughRule source before) (throughMargin source (width before)) ↔
      '\n' ∉ source.toList) := by
  have hrow : row source.toList = row before + row (c :: after) := by
    rw [h, row, List.count_append]
    rfl
  have hcaret : lineColumn (throughMargin source (width before)) = before.length := by
    rw [lineColumn_throughMargin, column_width h]
  have hrows : row (throughMargin source (width before)) =
      row (throughRule source before) + row (c :: after) + 1 := by
    rw [row_throughMargin, row_throughRule, hrow]
    omega
  refine ⟨pointer_shows h _, pointer_toList _ _, hrows, hcaret, lineColumn_throughRule _ _, ?_⟩
  have hbefore : before.length = lineColumn before ↔ '\n' ∉ before := by
    rw [eq_comm, lineColumn_eq_length_iff]
  have hafter : row (c :: after) = 0 ↔ '\n' ∉ c :: after := List.count_eq_zero
  rw [Below, hrows, hcaret, lineColumn_throughRule, hbefore, h, List.mem_append, not_or, ← hafter]
  constructor
  · rintro ⟨hrow, hnone⟩
    exact ⟨hnone, by omega⟩
  · rintro ⟨hnone, hrow⟩
    exact ⟨by omega, hnone⟩

end Inside

/-- In one line the caret stands under its character, also behind a character of two bytes. -/
theorem caret_below_iff_oneLine :
    "π+@".toList = "π+".toList ++ '@' :: [] ∧
      Below (throughRule "π+@" "π+".toList) (throughMargin "π+@" (width "π+".toList)) := by
  have h : "π+@".toList = "π+".toList ++ '@' :: [] := by decide
  exact ⟨h, (caret_below_iff h).2.2.2.2.2.2 (by decide)⟩

/-- **In two lines it does not.** The `@` begins the second line, and the caret is drawn in the fourth
    column, since there are three characters before it. -/
theorem caret_not_below :
    Token.ofSource "1+\n@" = .error ⟨.unknownCharacter '@', 3⟩ ∧
      "1+\n@".toList = "1+\n".toList ++ '@' :: [] ∧ width "1+\n".toList = 3 ∧
      pointer "1+\n@" 3 = "----\n1+\n@\n   ^\n----" ∧
      lineColumn (throughRule "1+\n@" "1+\n".toList) = 0 ∧
      lineColumn (throughMargin "1+\n@" 3) = 3 ∧
      ¬Below (throughRule "1+\n@" "1+\n".toList) (throughMargin "1+\n@" 3) := by
  have hscan : Token.ofSource "1+\n@" = .error ⟨.unknownCharacter '@', 3⟩ := by
    simp +decide [Token.ofSource, Token.scan, Token.lexeme?, Token.splitExponent]
  exact ⟨hscan, by decide, by decide, by decide, by decide, by decide, by decide⟩

end Formula.Source
