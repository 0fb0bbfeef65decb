import Formula.Command
import Mathlib.Data.List.Basic

/-!
# What the program says about its arguments

Arguments that make no sense are quoted in a complaint. The complaint goes to a terminal, and the
arguments may hold anything.

* `Terminal.shown_plain`, `Terminal.plain_of_shown`: stripping leaves only characters that are shown, and
  leaves a text of such characters alone.
* `Options.reads_read`: what is quoted comes from the arguments. The reading carries one invariant, on
  the value of `--var` that is still to be checked (`Options.Sound`), and has one lemma per kind of
  argument.
* `Command.run_errors_shown` and `Command.run_verbatim` are the main statements: a run with exit code 2
  writes nothing but a complaint that a terminal takes no commands from, and one that quotes the
  arguments as they are if they are harmless.
-/

namespace Formula

/-! ## 1. Texts that are shown -/

namespace Terminal

/-- A text of characters that are shown. -/
def Shown (text : String) : Prop := ∀ c ∈ text.toList, isShown c = true

instance (text : String) : Decidable (Shown text) :=
  decidable_of_iff (text.toList.all isShown = true) List.all_eq_true

theorem Shown.append {text more : String} (h : Shown text) (hmore : Shown more) :
    Shown (text ++ more) := by
  intro c hc
  rw [String.toList_append] at hc
  rcases List.mem_append.1 hc with hc | hc
  · exact h c hc
  · exact hmore c hc

/-- A text whose characters are taken from one that is shown. -/
theorem Shown.of_subset {text : String} (h : Shown text) {part : List Char}
    (hpart : part ⊆ text.toList) : Shown (String.ofList part) := by
  intro c hc
  rw [String.toList_ofList] at hc
  exact h c (hpart hc)

theorem shown_join {texts : List String} (h : ∀ text ∈ texts, Shown text) :
    Shown (String.join texts) := by
  intro c hc
  rw [String.toList_join] at hc
  obtain ⟨text, htext, hc⟩ := List.mem_flatMap.1 hc
  exact h text htext c hc

theorem isShown_of_step {s : State} {c : Char} (h : (step s c).2 = true) : isShown c = true := by
  unfold step at h
  repeat' split at h
  all_goals simp_all [isShown]

/-- What is left after a sequence is shown, whatever sequence the text begins in. -/
theorem isShown_of_strip {s : State} {text : List Char} {c : Char} (hc : c ∈ strip s text) :
    isShown c = true := by
  induction text generalizing s with
  | nil => cases hc
  | cons d text ih =>
    unfold strip at hc
    split at hc
    · rename_i hd
      rcases List.mem_cons.1 hc with rfl | hc
      · exact isShown_of_step hd
      · exact ih hc
    · exact ih hc

/-- **Only characters that are shown are left.** -/
theorem shown_plain (text : String) : Shown (plain text) := by
  intro c hc
  rw [plain, String.toList_ofList] at hc
  exact isShown_of_strip hc

/-- Where no sequence is open, a character that is shown opens none. -/
theorem step_closed {c : Char} (h : isShown c = true) : step {} c = ({}, true) := by
  have hc : c ≠ '\x1b' ∧ c ≠ '\x18' ∧ c ≠ '\x1a' := by
    refine ⟨?_, ?_, ?_⟩ <;> (rintro rfl; revert h; decide)
  unfold step
  rw [if_neg hc.1, if_neg (by simp [hc.2])]
  simp [Sequence.yields, Sequence.next, h]

/-- **A text of characters that are shown is left alone.** -/
theorem plain_of_shown {text : String} (h : Shown text) : plain text = text := by
  have hstrip : ∀ rest : List Char, (∀ c ∈ rest, isShown c = true) → strip {} rest = rest := by
    intro rest hrest
    induction rest with
    | nil => rfl
    | cons c rest ih =>
      rw [strip, step_closed (hrest c List.mem_cons_self), if_pos rfl,
        ih fun d hd => hrest d (List.mem_cons_of_mem c hd)]
  rw [plain, hstrip _ h, String.ofList_toList]

end Terminal

namespace Command

open Terminal

/-! ## 2. Complaints -/

namespace BadBinding

/-- The parts of arguments that are named. -/
def quoted : BadBinding → List String
  | noEquals text => [text]
  | badValue name _ => [name]

theorem message_shown {reason : BadBinding} (h : ∀ text ∈ reason.quoted, Shown text) :
    Shown reason.message := by
  cases reason with
  | noEquals text =>
    have htext := h text List.mem_cons_self
    exact ((show Shown "expected NAME=VALUE, found '" by decide).append htext).append (by decide)
  | badValue name why =>
    have hname := h name List.mem_cons_self
    refine (((show Shown "invalid value for '" by decide).append hname).append
      (show Shown "': " by decide)).append ?_
    cases why <;> decide

end BadBinding

namespace Misuse

/-- The parts of arguments that are quoted. -/
def quoted : Misuse → List String
  | missingExpression | missingBinding => []
  | unexpectedArgument text => [text]
  | badBinding text reason => text :: reason.quoted
  | repeatedFlag flag => [flag]
  | unexpectedValue flag value => [flag, value]

/-- The complaint with everything in it as it was given. -/
def verbatim (misuse : Misuse) : String :=
  "error: " ++ String.join (misuse.runs "\n\nFor more information, try '" ++ ["--help", "'.\n"])

/-- **A complaint gives no commands to a terminal.** -/
theorem message_shown (misuse : Misuse) : Shown misuse.message := by
  refine (show Shown "error: " by decide).append (shown_join fun text htext => ?_)
  obtain ⟨run, _, rfl⟩ := List.mem_map.1 htext
  exact shown_plain run

/-- The runs of a complaint are shown if what it quotes is. -/
theorem runs_shown {misuse : Misuse} (h : ∀ text ∈ misuse.quoted, Shown text) {more : String}
    (hmore : Shown more) : ∀ run ∈ misuse.runs more, Shown run := by
  have hfixed {fixed : String} (hfixed : Shown fixed) : Shown (fixed ++ more) := hfixed.append hmore
  rw [← List.forall_iff_forall_mem] at h ⊢
  cases misuse with
  | missingExpression => exact ⟨by decide, by decide, hmore⟩
  | unexpectedArgument text => exact ⟨by decide, h, hfixed (by decide)⟩
  | badBinding text reason =>
    obtain ⟨htext, hreason⟩ := (List.forall_cons Shown text _).1 h
    have hmessage := BadBinding.message_shown (List.forall_iff_forall_mem.1 hreason)
    exact ⟨by decide, htext, by decide, by decide,
      hfixed ((show Shown "': " by decide).append hmessage)⟩
  | missingBinding => exact ⟨by decide, by decide, hfixed (by decide)⟩
  | repeatedFlag flag => exact ⟨by decide, h, hfixed (by decide)⟩
  | unexpectedValue flag value => exact ⟨by decide, h.2, by decide, h.1, hfixed (by decide)⟩

/-- **What is shown anyway is quoted as it is.** -/
theorem message_eq_verbatim {misuse : Misuse} (h : ∀ text ∈ misuse.quoted, Shown text) :
    misuse.message = misuse.verbatim := by
  have hruns : ∀ run ∈ misuse.runs "\n\nFor more information, try '" ++ ["--help", "'.\n"],
      Shown run :=
    List.forall_mem_append.2 ⟨runs_shown h (by decide), by decide⟩
  rw [message, verbatim]
  congr 2
  exact (List.map_congr_left fun run hrun => plain_of_shown (hruns run hrun)).trans (List.map_id' _)

end Misuse

/-! ## 3. Reading arguments -/

namespace Options

/-- The value of `--var` that is still to be checked is shown. -/
def Sound (o : Options) : Prop := ∀ text, o.pending = .given text → Shown text

/-- How a reading ends: it goes on, or it stops and all that is quoted is shown. -/
inductive Reads : Except Stop Options → Prop
  | ok {o : Options} (h : o.Sound) : Reads (.ok o)
  | help : Reads (.error .help)
  | version : Reads (.error .version)
  | misuse {misuse : Misuse} (h : ∀ text ∈ misuse.quoted, Shown text) :
      Reads (.error (.misuse misuse))

theorem Reads.bind {r : Except Stop Options} (h : Reads r) {next : Options → Except Stop Options}
    (hnext : ∀ o, o.Sound → Reads (next o)) : Reads (r.bind next) := by
  cases h with
  | ok h => exact hnext _ h
  | help => exact .help
  | version => exact .version
  | misuse h => exact .misuse h

theorem Reads.map {r : Except Stop Options} (h : Reads r) {next : Options → Options}
    (hnext : ∀ o, o.Sound → (next o).Sound) : Reads (r.map next) := by
  cases h with
  | ok h => exact .ok (hnext _ h)
  | help => exact .help
  | version => exact .version
  | misuse h => exact .misuse h

variable {o : Options} {text : String}

theorem reads_bind (h : o.Sound) (htext : Shown text) : Reads (o.bind text) := by
  unfold bind readBinding
  cases text.toList.dropWhile (· ≠ '=') with
  | nil =>
    refine .misuse (List.forall_mem_cons.2 ⟨htext, ?_⟩)
    exact List.forall_mem_singleton.2 htext
  | cons _ value =>
    dsimp only
    cases Double.read (String.ofList (Blank.trim value)) with
    | ok x => exact .ok h
    | error reason =>
      refine .misuse (List.forall_mem_cons.2 ⟨htext, ?_⟩)
      exact List.forall_mem_singleton.2 (htext.of_subset (List.takeWhile_subset _))

theorem reads_settle (h : o.Sound) : Reads o.settle := by
  unfold settle
  cases hpending : o.pending with
  | nothing => exact .ok h
  | awaited => exact .misuse (List.forall_mem_nil _)
  | given text => exact reads_bind (fun _ hnone => by cases hnone) (h text hpending)

theorem reads_set (h : o.Sound) (flag : Flag) : Reads (o.set flag) := by
  have hrepeated : Reads (.error (.misuse (.repeatedFlag flag.text))) := by
    refine .misuse (List.forall_mem_singleton.2 ?_)
    cases flag <;> decide
  cases flag with
  | degrees | latex =>
    unfold set
    dsimp only
    split
    · exact hrepeated
    · exact .ok h
  | verbose => exact .ok h
  | help => exact .help
  | version => exact .version

theorem reads_readExpression (h : o.Sound) (htext : Shown text) : Reads (o.readExpression text) := by
  unfold readExpression
  cases o.expression with
  | some _ => exact .misuse (List.forall_mem_singleton.2 htext)
  | none => exact (reads_settle h).map fun _ h => h

theorem reads_readLong (h : o.Sound) {name : String} (hname : Shown name) {value : Option String}
    (hvalue : ∀ text, value = some text → Shown text) : Reads (o.readLong name value) := by
  have hdashes : Shown ("--" ++ name) := (show Shown "--" by decide).append hname
  unfold readLong
  split
  · cases value with
    | some text => exact (reads_settle h).bind fun _ h => reads_bind h (hvalue text rfl)
    | none => exact (reads_settle h).map fun _ _ _ hnone => by cases hnone
  · cases Flag.ofName? name with
    | none => exact .misuse (List.forall_mem_singleton.2 hdashes)
    | some flag =>
      cases value with
      | none => exact (reads_settle h).bind fun _ h => reads_set h flag
      | some text =>
        refine .misuse (List.forall_mem_cons.2 ⟨?_, List.forall_mem_singleton.2 (hvalue text rfl)⟩)
        cases flag <;> decide

theorem reads_readShort (h : o.Sound) {letters : List Char}
    (hletters : ∀ c ∈ letters, isShown c = true) : Reads (o.readShort letters) := by
  induction letters generalizing o with
  | nil => exact .ok h
  | cons c letters ih =>
    obtain ⟨hc, hletters⟩ := List.forall_mem_cons.1 hletters
    unfold readShort
    cases Flag.ofLetter? c with
    | some flag =>
      exact ((reads_settle h).bind fun _ h => reads_set h flag).bind fun _ h => ih h hletters
    | none =>
      have hboth : ∀ d ∈ ['-', c], isShown d = true :=
        List.forall_mem_cons.2 ⟨rfl, List.forall_mem_singleton.2 hc⟩
      have hargument : Shown (String.ofList ['-', c]) := by rwa [Shown, String.toList_ofList]
      exact .misuse (List.forall_mem_singleton.2 hargument)

theorem reads_readRest (h : o.Sound) {arguments : List String}
    (harguments : ∀ text ∈ arguments, Shown text) : Reads (o.readRest arguments) := by
  induction arguments generalizing o with
  | nil => exact reads_settle h
  | cons text rest ih =>
    obtain ⟨htext, hrest⟩ := List.forall_mem_cons.1 harguments
    exact (reads_readExpression h htext).bind fun _ h => ih h hrest

/-- **What is quoted comes from the arguments**, or from a value of `--var` that was still to be checked:
    if all of it is shown, then so is what a complaint quotes. -/
theorem reads_read (h : o.Sound) {arguments : List String}
    (harguments : ∀ text ∈ arguments, Shown text) : Reads (o.read arguments) := by
  induction arguments generalizing o with
  | nil => exact reads_settle h
  | cons text rest ih =>
    obtain ⟨htext, hrest⟩ := List.forall_mem_cons.1 harguments
    unfold read
    split
    · exact reads_readRest h hrest
    · rename_i option _ hoption
      have hpart {part : List Char} (hsubset : part ⊆ option) : Shown (String.ofList part) :=
        htext.of_subset fun c hc => by
          rw [hoption]
          exact List.mem_cons_of_mem _ (List.mem_cons_of_mem _ (hsubset hc))
      refine (reads_readLong h (hpart (List.takeWhile_subset _)) fun value hvalue => ?_).bind
        fun _ h => ih h hrest
      obtain ⟨part, hafter, rfl⟩ := Option.map_eq_some_iff.1 hvalue
      have htail : part ⊆ option.dropWhile (· ≠ '=') := by
        cases hvalue : option.dropWhile (· ≠ '=') with
        | nil => rw [hvalue] at hafter; cases hafter
        | cons sign value =>
          rw [hvalue] at hafter
          cases hafter
          exact List.subset_cons_self sign part
      exact hpart (List.Subset.trans htail (List.dropWhile_sublist _).subset)
    · rename_i c letters _ hoption
      refine (reads_readShort h fun d hd => htext d ?_).bind fun _ h => ih h hrest
      rw [hoption]
      exact List.mem_cons_of_mem _ hd
    · split
      · exact ih (fun given hgiven => by cases hgiven; exact htext) hrest
      · exact (reads_readExpression h htext).bind fun _ h => ih h hrest

end Options

/-! ## 4. Runs -/

/-- An answer writes a line and exits with 0, or writes no line and exits with 1. -/
theorem answer_code (o : Options) (expression : String) :
    ((answer o expression).code = 0 ∧ ∃ text, (answer o expression).output = text ++ "\n") ∨
      (answer o expression).code = 1 ∧ (answer o expression).output = "" := by
  unfold answer
  dsimp only
  split
  · exact .inl ⟨rfl, _, rfl⟩
  · exact .inr ⟨rfl, rfl⟩

/-- A run with exit code 2 writes one complaint, and if all arguments are shown, so is what it quotes. -/
theorem run_misuse {arguments : List String} (h : (run arguments).code = 2) :
    ∃ misuse : Misuse, run arguments = ⟨2, "", misuse.message⟩ ∧
      ((∀ text ∈ arguments, Shown text) → ∀ text ∈ misuse.quoted, Shown text) := by
  have hreads (harguments : ∀ text ∈ arguments, Shown text) :
      Options.Reads (Options.read {} arguments) :=
    Options.reads_read (fun _ hnone => by cases hnone) harguments
  unfold run at h ⊢
  cases hread : Options.read {} arguments with
  | error stop =>
    rw [hread] at h hreads
    cases stop with
    | help | version => cases h
    | misuse misuse =>
      refine ⟨misuse, rfl, fun harguments => ?_⟩
      cases hreads harguments with
      | misuse hquoted => exact hquoted
  | ok o =>
    rw [hread] at h
    dsimp only at h ⊢
    cases hexpression : o.expression with
    | none => exact ⟨.missingExpression, rfl, fun _ => List.forall_mem_nil _⟩
    | some expression =>
      -- an answer exits with 0 or 1
      rw [hexpression] at h
      rcases answer_code o expression with ⟨hcode, -⟩ | ⟨hcode, -⟩ <;>
      · dsimp only at h
        rw [hcode] at h
        cases h

/-- **A complaint gives no commands to the terminal**, whatever the arguments hold. -/
theorem run_errors_shown {arguments : List String} (h : (run arguments).code = 2) :
    (run arguments).output = "" ∧ Shown (run arguments).errors := by
  obtain ⟨misuse, hrun, -⟩ := run_misuse h
  rw [hrun]
  exact ⟨rfl, misuse.message_shown⟩

/-- **Arguments that are shown are quoted as they are.** -/
theorem run_verbatim {arguments : List String} (h : (run arguments).code = 2)
    (harguments : ∀ text ∈ arguments, Shown text) :
    ∃ misuse : Misuse, (run arguments).errors = misuse.verbatim := by
  obtain ⟨misuse, hrun, hquoted⟩ := run_misuse h
  rw [hrun]
  exact ⟨misuse, Misuse.message_eq_verbatim (hquoted harguments)⟩

end Command

end Formula
