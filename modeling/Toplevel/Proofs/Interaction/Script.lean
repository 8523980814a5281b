import Toplevel.Proofs.Interaction.Conversation

/-!
# What the prompt does with a script

A script is a list of typed lines. It is read up to the first line that leaves the prompt, and that
line is the last one read (`Script.consumed`). What a line does depends on nothing but the line, the
files and the interaction: `Does` says it for every kind of line, and a conversation comes to its
end just if every line that it reads does something (`Interaction.converse_eq_ok_iff`). A line that
does nothing of the kind is one of those that raise out of the prompt.
-/

namespace Toplevel

/-! ### Commands -/

/-- What a line has before its first blank. -/
def commandName (line : Text) : Text := line.strip.takeWhile (· ≠ (' ' : CodePoint))

/-- What a line has behind its first blank. -/
def commandArgument (line : Text) : Text :=
  Text.strip (line.strip.dropWhile (· ≠ (' ' : CodePoint))).tail

theorem Command.ofLine?_strip (line : Text) : ofLine? line.strip
    = if commandName line = (":help" : Text) then some .help
      else if commandName line = (":load" : Text) then some (.load (commandArgument line))
      else none := by
  simp only [ofLine?, Text.cut_fst, Text.cut_snd, commandName, commandArgument]
  rfl

/-! ### What a line does -/

section
variable {σ κ : Type} (E : Engine σ κ) (files : Files)

/-- What a line does that does not leave the prompt. -/
inductive Does (line : Text) (i : Interaction σ) : Interaction σ → Prop
  /-- A blank line does nothing. -/
  | blank (h : line.strip = []) : Does line i i
  | help (hname : commandName line = (":help" : Text)) :
    Does line i { i with transcript := i.transcript.appendAll helpLines .success }
  | noPath (hname : commandName line = (":load" : Text)) (harg : commandArgument line = []) :
    Does line i (i.append "Usage: :load <file>" .error)
  /-- A file that cannot be opened leaves one error line and changes nothing else. -/
  | unread {p : Path} {e : FileError} (hname : commandName line = (":load" : Text))
    (harg : commandArgument line ≠ []) (hp : files.locate (commandArgument line) = .ok p)
    (hr : files.read p = .error (.system e)) :
    Does line i (i.append (Text.concat ["Cannot read ", p.text, ": ", e.message]) .error)
  /-- A program that is blank is only taken note of. -/
  | loadedBlank {p : Path} {text : Text} (hname : commandName line = (":load" : Text))
    (harg : commandArgument line ≠ []) (hp : files.locate (commandArgument line) = .ok p)
    (hr : files.read p = .ok text) (hblank : text.unifyLines.strip = []) :
    Does line i { i with engine := E.note (.loading p.text) i.engine }
  /-- A program runs in a session that starts over, and its outcome is all that is shown. -/
  | loaded {p : Path} {text : Text} {o : Outcome} {s : σ} (hname : commandName line = (":load" : Text))
    (harg : commandArgument line ≠ []) (hp : files.locate (commandArgument line) = .ok p)
    (hr : files.read p = .ok text) (hne : text.unifyLines.strip ≠ [])
    (hrun : E.execute text.unifyLines.strip (E.loading p i.engine) = (.ok o, s)) :
    Does line i ⟨s, i.history, i.transcript.clear.append o.message o.style⟩
  /-- Every other line is run once; it is recorded, and shown before its outcome. -/
  | submitted {o : Outcome} {s : σ} (hne : line.strip ≠ []) (hhelp : commandName line ≠ (":help" : Text))
    (hload : commandName line ≠ (":load" : Text)) (hrun : E.execute line.strip i.engine = (.ok o, s)) :
    Does line i ⟨s, i.history.record line.strip,
      (i.transcript.append (inputMark ++ line.strip) .input).append o.message o.style⟩
  /-- An interruption stands in the place of the outcome. -/
  | interrupted {s : σ} (hne : line.strip ≠ []) (hhelp : commandName line ≠ (":help" : Text))
    (hload : commandName line ≠ (":load" : Text))
    (hrun : E.execute line.strip i.engine = (.error .interrupt, s)) :
    Does line i ⟨s, i.history.record line.strip,
      (i.transcript.append (inputMark ++ line.strip) .input).append "Interrupted" .error⟩

end

variable {σ κ : Type} {E : Engine σ κ} {files : Files} {line : Text} {i j : Interaction σ}

namespace Interaction

theorem executeShown_eq_ok {source : Text} {o : Outcome} {s : σ}
    (h : E.execute source i.engine = (.ok o, s)) : i.executeShown E source
      = (.ok (some o), ⟨s, i.history, i.transcript.append o.message o.style⟩) := by
  simp only [executeShown, execute, h]
  rfl

theorem executeShown_eq_error {source : Text} {r : Raised} {s : σ}
    (h : E.execute source i.engine = (.error r, s)) :
    i.executeShown E source = (.error r, ⟨s, i.history, i.transcript⟩) := by
  simp only [executeShown, execute, h]

theorem runLine_help (hname : commandName line = (":help" : Text)) : i.runLine E files line
    = (.ok (), { i with transcript := i.transcript.appendAll helpLines .success }) := by
  simp only [runLine_eq, Command.ofLine?_strip, if_pos hname, runCommand]

theorem runLine_load (hname : commandName line = (":load" : Text)) : i.runLine E files line
    = i.runCommand E files (.load (commandArgument line)) := by
  have hhelp : commandName line ≠ (":help" : Text) := by
    rw [hname]
    decide
  simp only [runLine_eq, Command.ofLine?_strip, if_neg hhelp, if_pos hname]

theorem runLine_submit (hhelp : commandName line ≠ (":help" : Text))
    (hload : commandName line ≠ (":load" : Text)) :
    i.runLine E files line = i.submitTyped E line := by
  simp only [runLine_eq, Command.ofLine?_strip, if_neg hhelp, if_neg hload]

theorem runCommand_load {path : Text} (hne : path ≠ []) : i.runCommand E files (.load path)
    = ((i.load E files path).1.map fun _ => (), (i.load E files path).2) := by
  simp only [runCommand, List.isEmpty_iff, if_neg hne]

theorem load_read {path text : Text} {p : Path} (hp : files.locate path = .ok p)
    (hr : files.read p = .ok text) : i.load E files path
      = { i with engine := E.note (.loading p.text) i.engine }.runFresh E text.unifyLines := by
  simp only [load, hp, hr]

theorem runFresh_blank {text : Text} (h : text.strip = []) :
    i.runFresh E text = (.ok none, i) := by
  simp only [runFresh, h, List.isEmpty_nil, if_true]

/-- A line is recorded and shown before it is run. -/
def echoed (line : Text) (i : Interaction σ) : Interaction σ :=
  { i with history := i.history.record line }.append (inputMark ++ line) .input

theorem submit_echoed (hne : line.strip ≠ []) :
    i.submit E line = (i.echoed line.strip).executeShown E line.strip :=
  submit_eq hne i

theorem submitTyped_blank (h : line.strip = []) : i.submitTyped E line = (.ok (), i) := by
  simp only [submitTyped, submit, h, List.isEmpty_nil, if_true]

theorem submitTyped_ok {o : Outcome} {s : σ} (hne : line.strip ≠ [])
    (hrun : E.execute line.strip i.engine = (.ok o, s)) : i.submitTyped E line
      = (.ok (), ⟨s, i.history.record line.strip,
        (i.transcript.append (inputMark ++ line.strip) .input).append o.message o.style⟩) := by
  rw [submitTyped, submit_echoed hne, executeShown_eq_ok (i := i.echoed line.strip) hrun]
  rfl

theorem submitTyped_interrupted {s : σ} (hne : line.strip ≠ [])
    (hrun : E.execute line.strip i.engine = (.error .interrupt, s)) : i.submitTyped E line
      = (.ok (), ⟨s, i.history.record line.strip,
        (i.transcript.append (inputMark ++ line.strip) .input).append "Interrupted" .error⟩) := by
  rw [submitTyped, submit_echoed hne, executeShown_eq_error (i := i.echoed line.strip) hrun]
  rfl

end Interaction

open Interaction

theorem commandName_of_blank (h : line.strip = []) : commandName line = [] := by
  rw [commandName, h]
  rfl

theorem Does.runLine_eq (h : Does E files line i j) : i.runLine E files line = (.ok (), j) := by
  cases h with
  | blank h =>
    have hname := commandName_of_blank h
    rw [runLine_submit (by rw [hname]; decide) (by rw [hname]; decide), submitTyped_blank h]
  | help hname => exact runLine_help hname
  | noPath hname harg =>
    rw [runLine_load hname, harg]
    rfl
  | unread hname harg hp hr =>
    rw [runLine_load hname, runCommand_load harg]
    simp only [load, hp, hr]
    rfl
  | loadedBlank hname harg hp hr hblank =>
    rw [runLine_load hname, runCommand_load harg, load_read hp hr, runFresh_blank hblank]
    rfl
  | loaded hname harg hp hr hne hrun =>
    rw [runLine_load hname, runCommand_load harg, load_read hp hr, runFresh_eq hne,
      executeShown_eq_ok (i := ⟨_, i.history, i.transcript.clear⟩) hrun]
    rfl
  | submitted hne hhelp hload hrun =>
    rw [runLine_submit hhelp hload, submitTyped_ok hne hrun]
  | interrupted hne hhelp hload hrun =>
    rw [runLine_submit hhelp hload, submitTyped_interrupted hne hrun]

/-- A command that is carried out. -/
theorem does_of_load (hname : commandName line = (":load" : Text))
    (hrun : i.runCommand E files (.load (commandArgument line)) = (.ok (), j)) :
    Does E files line i j := by
  by_cases harg : commandArgument line = []
  · rw [harg] at hrun
    cases hrun
    exact .noPath hname harg
  rw [runCommand_load harg] at hrun
  rcases hp : files.locate (commandArgument line) with e | p
  · simp only [load, hp] at hrun
    cases hrun
  rcases hr : files.read p with (e | detail) | text
  · simp only [load, hp, hr] at hrun
    cases hrun
    exact .unread hname harg hp hr
  · simp only [load, hp, hr] at hrun
    cases hrun
  rw [load_read hp hr] at hrun
  by_cases hne : text.unifyLines.strip = []
  · rw [runFresh_blank hne] at hrun
    cases hrun
    exact .loadedBlank hname harg hp hr hne
  rw [runFresh_eq hne] at hrun
  rcases hexec : E.execute text.unifyLines.strip (E.loading p i.engine) with ⟨r | o, s⟩
  · rw [executeShown_eq_error (i := ⟨_, i.history, i.transcript.clear⟩) hexec] at hrun
    cases hrun
  · rw [executeShown_eq_ok (i := ⟨_, i.history, i.transcript.clear⟩) hexec] at hrun
    cases hrun
    exact .loaded hname harg hp hr hne hexec

/-- What is no command is run, and survived. -/
theorem does_of_submit (hhelp : commandName line ≠ (":help" : Text))
    (hload : commandName line ≠ (":load" : Text))
    (hrun : i.submitTyped E line = (.ok (), j)) : Does E files line i j := by
  by_cases hne : line.strip = []
  · rw [submitTyped_blank hne] at hrun
    cases hrun
    exact .blank hne
  rcases hexec : E.execute line.strip i.engine with ⟨r | o, s⟩
  · have hanswers := E.execute_answers line.strip i.engine
    rw [hexec] at hanswers
    cases hanswers
    rw [submitTyped_interrupted hne hexec] at hrun
    cases hrun
    exact .interrupted hne hhelp hload hexec
  · rw [submitTyped_ok hne hexec] at hrun
    cases hrun
    exact .submitted hne hhelp hload hexec

/-- A line is survived just if it does one of these things. -/
theorem does_iff : Does E files line i j ↔ i.runLine E files line = (.ok (), j) := by
  refine ⟨Does.runLine_eq, fun hrun => ?_⟩
  by_cases hhelp : commandName line = (":help" : Text)
  · rw [runLine_help hhelp] at hrun
    cases hrun
    exact .help hhelp
  by_cases hload : commandName line = (":load" : Text)
  · exact does_of_load hload (runLine_load hload ▸ hrun)
  · exact does_of_submit hhelp hload (runLine_submit hhelp hload ▸ hrun)

/-! ### Scripts -/

section
variable (E : Engine σ κ) (files : Files)

/-- What a line or an interruption at the prompt does. -/
inductive Effect : Typed → Interaction σ → Interaction σ → Prop
  | interrupt (i : Interaction σ) : Effect none i i
  | exit {line : Text} (h : isExit line = true) (i : Interaction σ) : Effect (some line) i i
  | line {line : Text} {i j : Interaction σ} (hstays : isExit line = false)
    (h : Does E files line i j) : Effect (some line) i j

/-- What lines do one after another. -/
inductive Effects : List Typed → Interaction σ → Interaction σ → Prop
  | nil (i : Interaction σ) : Effects [] i i
  | cons {typed : Typed} {rest : List Typed} {i j k : Interaction σ} (h : Effect E files typed i j)
    (hrest : Effects rest j k) : Effects (typed :: rest) i k

end

/-- The line that is run and recorded. -/
def Typed.submitted? : Typed → Option Text
  | none => none
  | some line =>
    if isExit line = true ∨ line.strip = [] ∨ commandName line = (":help" : Text)
      ∨ commandName line = (":load" : Text) then none
    else some line.strip

theorem Effect.history_eq {typed : Typed} (h : Effect E files typed i j) :
    j.history = typed.submitted?.toList.foldl History.record i.history := by
  cases h with
  | interrupt => rfl
  | exit h => simp only [Typed.submitted?, h, true_or, if_true, Option.toList_none, List.foldl_nil]
  | line hstays h =>
    cases h with
    | blank h | help h | noPath h | unread h | loadedBlank h | loaded h =>
      simp [Typed.submitted?, hstays, h, Interaction.append]
    | submitted hne hhelp hload | interrupted hne hhelp hload =>
      simp [Typed.submitted?, hstays, hne, hhelp, hload]

/-- The history is that of the lines that are run. -/
theorem Effects.history_eq {lines : List Typed} (h : Effects E files lines i j) :
    j.history = (lines.filterMap Typed.submitted?).foldl History.record i.history := by
  induction h with
  | nil => rfl
  | cons h _ ih =>
    rw [ih, h.history_eq, List.filterMap_cons, ← List.foldl_append]
    congr 1
    split <;> rename_i hsubmitted <;> rw [hsubmitted] <;> rfl

/-- Whether the prompt comes back. -/
def Typed.stays : Typed → Bool
  | none => true
  | some line => !isExit line

namespace Script

/-- The lines up to the first one that leaves the prompt, and this one. -/
def consumed (lines : List Typed) : List Typed :=
  lines.takeWhile Typed.stays ++ (lines.dropWhile Typed.stays).take 1

def unread (lines : List Typed) : List Typed := (lines.dropWhile Typed.stays).drop 1

/-- The prompt is shown once for each line, and once more if there are no more lines. -/
def prompts (lines : List Typed) : Nat :=
  (consumed lines).length + if lines.all Typed.stays then 1 else 0

variable {typed : Typed} (rest : List Typed)

theorem consumed_append_unread (lines : List Typed) : consumed lines ++ unread lines = lines := by
  rw [consumed, unread, List.append_assoc, List.take_append_drop, List.takeWhile_append_dropWhile]

theorem consumed_cons_stays (h : typed.stays = true) :
    consumed (typed :: rest) = typed :: consumed rest := by
  simp only [consumed, List.takeWhile_cons_of_pos h, List.dropWhile_cons_of_pos h,
    List.cons_append]

theorem unread_cons_stays (h : typed.stays = true) : unread (typed :: rest) = unread rest := by
  simp only [unread, List.dropWhile_cons_of_pos h]

theorem prompts_cons_stays (h : typed.stays = true) :
    prompts (typed :: rest) = prompts rest + 1 := by
  simp only [prompts, consumed_cons_stays rest h, List.length_cons, List.all_cons, h,
    Bool.true_and]
  omega

variable {line : Text} (h : isExit line = true)

include h

theorem consumed_cons_exit : consumed (some line :: rest) = [some line] := by
  simp [consumed, Typed.stays, h]

theorem unread_cons_exit : unread (some line :: rest) = rest := by
  simp [unread, Typed.stays, h]

theorem prompts_cons_exit : prompts (some line :: rest) = 1 := by
  simp [prompts, consumed_cons_exit rest h, Typed.stays, h]

end Script

namespace Interaction

open Script

/-- A line after which the prompt comes back is read before the others. -/
theorem readLines_cons_stays {typed : Typed} (hstays : typed.stays = true) {rest : List Typed}
    {c : Conversation} {k : Interaction σ} :
    i.readLines E files (typed :: rest) = (.ok c, k)
      ↔ ∃ j c', Effect E files typed i j ∧ j.readLines E files rest = (.ok c', k)
        ∧ c = { c' with prompts := c'.prompts + 1 } := by
  have hagain : ∀ j : Interaction σ,
      ((j.readLines E files rest).1.map fun c => { c with prompts := c.prompts + 1 },
        (j.readLines E files rest).2) = ((.ok c, k) : Answer (Interaction σ) Conversation)
      ↔ ∃ c', j.readLines E files rest = (.ok c', k)
        ∧ c = { c' with prompts := c'.prompts + 1 } := by
    intro j
    rcases j.readLines E files rest with ⟨r | c', k'⟩
    · constructor
      · intro h
        cases h
      · rintro ⟨_, h, -⟩
        cases h
    · constructor
      · intro h
        cases h
        exact ⟨c', rfl, rfl⟩
      · rintro ⟨_, h, rfl⟩
        cases h
        rfl
  cases typed with
  | none =>
    rw [readLines, hagain]
    constructor
    · rintro ⟨c', h, hc⟩
      exact ⟨i, c', .interrupt i, h, hc⟩
    · rintro ⟨j, c', heffect, h, hc⟩
      cases heffect
      exact ⟨c', h, hc⟩
  | some line =>
    have hexit : isExit line = false := by simpa [Typed.stays] using hstays
    have heffect : ∀ j, Effect E files (some line) i j ↔ i.runLine E files line = (.ok (), j) := by
      intro j
      rw [← does_iff]
      refine ⟨fun h => ?_, .line hexit⟩
      cases h with
      | exit h => cases hexit.symm.trans h
      | line _ h => exact h
    simp only [readLines, hexit, Bool.false_eq_true, if_false, heffect]
    rcases i.runLine E files line with ⟨r | _, j⟩
    · constructor
      · intro h
        cases h
      · rintro ⟨_, _, h, -⟩
        cases h
    · rw [hagain j]
      constructor
      · rintro ⟨c', h, hc⟩
        exact ⟨j, c', rfl, h, hc⟩
      · rintro ⟨_, c', hj, h, hc⟩
        cases hj
        exact ⟨c', h, hc⟩

theorem readLines_cons_exit (hexit : isExit line = true) (rest : List Typed) :
    i.readLines E files (some line :: rest) = (.ok ⟨1, rest⟩, i) := by
  simp only [readLines, hexit, if_true]

theorem effects_exit_iff (hexit : isExit line = true) :
    Effects E files [some line] i j ↔ i = j := by
  constructor
  · rintro (_ | ⟨h, hrest⟩)
    cases hrest
    cases h with
    | exit => rfl
    | line hstays => cases hexit.symm.trans hstays
  · rintro rfl
    exact .cons (.exit hexit i) (.nil i)

theorem readLines_eq_ok_iff {lines : List Typed} {c : Conversation} :
    i.readLines E files lines = (.ok c, j)
      ↔ c = ⟨prompts lines, unread lines⟩ ∧ Effects E files (consumed lines) i j := by
  induction lines generalizing i c with
  | nil =>
    constructor
    · intro h
      cases h
      exact ⟨rfl, .nil j⟩
    · rintro ⟨rfl, h⟩
      cases h
      rfl
  | cons typed rest ih =>
    cases hstays : typed.stays with
    | true =>
      rw [readLines_cons_stays hstays, consumed_cons_stays rest hstays,
        unread_cons_stays rest hstays, prompts_cons_stays rest hstays]
      constructor
      · rintro ⟨k, c', heffect, h, rfl⟩
        obtain ⟨rfl, hrest⟩ := ih.1 h
        exact ⟨rfl, .cons heffect hrest⟩
      · rintro ⟨rfl, h⟩
        cases h with
        | cons heffect hrest => exact ⟨_, _, heffect, ih.2 ⟨rfl, hrest⟩, rfl⟩
    | false =>
      cases typed with
      | none => cases hstays
      | some line =>
        have hexit : isExit line = true := by simpa [Typed.stays] using hstays
        rw [readLines_cons_exit hexit, consumed_cons_exit rest hexit, unread_cons_exit rest hexit,
          prompts_cons_exit rest hexit, effects_exit_iff hexit, Prod.mk.injEq, Except.ok.injEq,
          eq_comm (a := c)]

/-- A conversation comes to its end just if all the lines up to the first one that leaves the prompt
do something, and this is what becomes of the interaction; no line behind it is read. -/
theorem converse_eq_ok_iff (E : Engine σ κ) (files : Files) (lines : List Typed)
    (i j : Interaction σ) (c : Conversation) :
    i.converse E files lines = (.ok c, j)
      ↔ c = ⟨prompts lines, unread lines⟩
        ∧ Effects E files (consumed lines) (i.noteStart E) j :=
  readLines_eq_ok_iff

/-- Blanks around a line and capitals do not matter. -/
example (i : Interaction σ) :
    (i.converse E files [some "\t", none, some ":help me", some " Quit", some "1"]).1
      = .ok ⟨4, [some "1"]⟩ := by
  rfl

end Interaction

end Toplevel
