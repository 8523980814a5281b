import Toplevel.Interaction.Prompt
import Toplevel.Proofs.Interaction.Cycle

/-!
# How a conversation ends

The prompt comes back after every line that does not leave it, but for three kinds of lines: those
that ask for the program in a file that has no place, in a file that is no text, or in a file whose
program is interrupted. These end the conversation with what they raise, and no other line does
(`Interaction.converse_ends`). A line that the prompt survives leaves one error line if it fails,
and otherwise none.
-/

namespace Toplevel

/-! ### Error lines -/

namespace Transcript

/-- The error lines that have been shown, cleared or not. -/
def errors (t : Transcript) : List Text :=
  t.events.filterMap fun
    | .line ⟨text, .error⟩ => some text
    | _ => none

theorem errors_append {style : Style} (h : style ≠ .error) (t : Transcript) (text : Text) :
    (t.append text style).errors = t.errors := by
  cases style with
  | error => exact absurd rfl h
  | input | success => simp [append, errors]

theorem errors_append_error (t : Transcript) (text : Text) :
    (t.append text .error).errors = t.errors ++ [text] := by
  simp [append, errors]

theorem errors_clear (t : Transcript) : t.clear.errors = t.errors := by
  simp [clear, errors]

theorem errors_appendAll {style : Style} (h : style ≠ .error) (texts : List Text)
    (t : Transcript) : (t.appendAll texts style).errors = t.errors := by
  induction texts generalizing t with
  | nil => rfl
  | cons text texts ih => exact (ih (t.append text style)).trans (errors_append h t text)

/-- From `t` to `t'` one error line is shown, and it is the last line. -/
def LeavesError (t t' : Transcript) : Prop :=
  ∃ text, t'.errors = t.errors ++ [text] ∧ t'.lines.getLast? = some ⟨text, .error⟩

theorem leavesError_append {t t' : Transcript} (h : t'.errors = t.errors) (text : Text) :
    t.LeavesError (t'.append text .error) :=
  ⟨text, by rw [errors_append_error, h], by rw [lines_append, List.getLast?_concat]⟩

end Transcript

/-! ### Lines -/

/-- A line asks for the program in a file. -/
def Asks (line path : Text) : Prop := Command.ofLine? line.strip = some (.load path) ∧ path ≠ []

/-- A line asks for a program that is there. -/
structure Loads (files : Files) (line : Text) (p : Path) (source : Text) : Prop where
  asks : ∃ path, Asks line path ∧ files.locate path = .ok p
  read : ∃ text, files.read p = .ok text ∧ text.unifyLines.strip = source
  nonempty : source ≠ []

section
variable {σ κ : Type} (E : Engine σ κ) (files : Files)

/-- The state that the program in a file is compiled in. -/
def Engine.loading (p : Path) (s : σ) : σ := E.note .reset (E.reset (E.note (.loading p.text) s))

/-- What a line raises at the prompt. -/
inductive Escapes (line : Text) (i : Interaction σ) : Raised → Prop
  | noPlace {path : Text} {e : PathError} (h : Asks line path)
    (hp : files.locate path = .error e) :
    Escapes line i (.fault (.reported e.kind e.message))
  | notText {path : Text} {p : Path} {detail : Text} (h : Asks line path)
    (hp : files.locate path = .ok p) (hr : files.read p = .error (.notText detail)) :
    Escapes line i (.fault (.reported "UnicodeDecodeError" detail))
  | interrupted {p : Path} {source : Text} (h : Loads files line p source)
    (hi : E.Interrupted source (E.loading p i.engine)) : Escapes line i .interrupt

/-- A line cannot be carried out: it is a source or asks for a program that shows no value, or the
program is missing. -/
inductive Fails (line : Text) (i : Interaction σ) : Prop
  | source (hc : Command.ofLine? line.strip = none) (hne : line.strip ≠ [])
    (h : ¬∃ text, E.Shows line.strip i.engine text)
  | noPath (h : Command.ofLine? line.strip = some (.load []))
  | unread {path : Text} {p : Path} {e : FileError} (h : Asks line path)
    (hp : files.locate path = .ok p) (hr : files.read p = .error (.system e))
  | program {p : Path} {source : Text} (h : Loads files line p source)
    (hs : ¬∃ text, E.Shows source (E.loading p i.engine) text)

/-- The prompt comes back after a line. -/
structure Survives (line : Text) (i j : Interaction σ) : Prop where
  run : i.runLine E files line = (.ok (), j)
  held : ∀ r, ¬Escapes E files line i r
  failed : Fails E files line i → i.transcript.LeavesError j.transcript
  unfailed : ¬Fails E files line i → j.transcript.errors = i.transcript.errors

end

variable {σ κ : Type} {E : Engine σ κ} {files : Files}

/-- A command starts with a colon. -/
theorem Command.head?_of_ofLine? {line : Text} {c : Command} (h : ofLine? line = some c) :
    line.head? = some (':' : CodePoint) := by
  have hname : (Text.cut ' ' line).1.head? = some (':' : CodePoint) := by
    simp only [ofLine?] at h
    split at h
    · rename_i hname
      rw [hname]
      rfl
    · split at h
      · rename_i hname
        rw [hname]
        rfl
      · cases h
  cases line with
  | nil => cases hname
  | cons c t =>
    simp only [Text.cut] at hname
    split at hname
    · cases hname
    · exact hname

namespace Interaction

theorem runLine_eq (line : Text) (i : Interaction σ) :
    i.runLine E files line
      = match Command.ofLine? line.strip with
        | some c => i.runCommand E files c
        | none => i.submitTyped E line := by
  simp only [runLine, command]
  rcases hc : Command.ofLine? line.strip with _ | c
  · split <;> rfl
  · simp only [if_pos (Command.head?_of_ofLine? hc)]
    rcases i.runCommand E files c with ⟨r | u, j⟩ <;> rfl

/-- What a cycle leaves, compared with a transcript `t` that had as many error lines before it. -/
theorem executeShown_cases (E : Engine σ κ) (source : Text) {k : Interaction σ} {t : Transcript}
    (ht : k.transcript.errors = t.errors) :
    (∃ o j, k.executeShown E source = (.ok o, j)
        ∧ ((¬∃ text, E.Shows source k.engine text) → t.LeavesError j.transcript)
        ∧ ((∃ text, E.Shows source k.engine text) → j.transcript.errors = t.errors))
      ∨ (¬∃ text, E.Shows source k.engine text) ∧ E.Interrupted source k.engine
        ∧ ∃ j, k.executeShown E source = (.error .interrupt, j)
          ∧ j.transcript.errors = t.errors := by
  rcases E.execute_cases source k.engine with ⟨text, hs, h⟩ | ⟨hs, ⟨o, h, ho⟩ | h⟩
  · obtain ⟨h1, h2⟩ := executeShown_of_ok h
    refine .inl ⟨_, _, Prod.ext h1 rfl, fun hn => absurd ⟨text, hs⟩ hn, fun _ => ?_⟩
    rw [h2, Transcript.errors_append (show (Outcome.value text).style ≠ .error from nofun), ht]
  · obtain ⟨h1, h2⟩ := executeShown_of_ok h
    refine .inl ⟨_, _, Prod.ext h1 rfl, fun _ => ?_, fun hn => absurd hn hs⟩
    rw [h2, ho]
    exact Transcript.leavesError_append ht _
  · obtain ⟨h1, h2⟩ := executeShown_of_error h
    exact .inr ⟨hs, Engine.interrupted_iff.2 h, _, Prod.ext h1 rfl, by rw [h2, ht]⟩

/-- The prompt comes back after a submitted line, which leaves an error line or shows a value. -/
theorem submitTyped_cases {line : Text} (hne : line.strip ≠ []) (i : Interaction σ) :
    ∃ j, i.submitTyped E line = (.ok (), j)
      ∧ ((¬∃ text, E.Shows line.strip i.engine text) → i.transcript.LeavesError j.transcript)
      ∧ ((∃ text, E.Shows line.strip i.engine text) →
        j.transcript.errors = i.transcript.errors) := by
  have hecho : (i.transcript.append (inputMark ++ line.strip) .input).errors
      = i.transcript.errors := Transcript.errors_append (by decide) _ _
  rw [submitTyped, submit_eq hne]
  let k := { i with history := i.history.record line.strip }.append (inputMark ++ line.strip) .input
  rcases executeShown_cases E line.strip (k := k) hecho with
    ⟨o, j, h, hleaves⟩ | ⟨hs, -, j, h, herrors⟩
  · rw [h]
    exact ⟨j, rfl, hleaves⟩
  · rw [h]
    exact ⟨_, rfl, fun _ => Transcript.leavesError_append herrors _, fun hn => absurd hn hs⟩

/-- What comes of a request for a program that is there. -/
theorem load_cases {p : Path} {path text : Text} (hp : files.locate path = .ok p)
    (hr : files.read p = .ok text) (hne : text.unifyLines.strip ≠ []) (i : Interaction σ) :
    (∃ o j, i.load E files path = (.ok o, j)
        ∧ ((¬∃ shown, E.Shows text.unifyLines.strip (E.loading p i.engine) shown) →
          i.transcript.LeavesError j.transcript)
        ∧ ((∃ shown, E.Shows text.unifyLines.strip (E.loading p i.engine) shown) →
          j.transcript.errors = i.transcript.errors))
      ∨ E.Interrupted text.unifyLines.strip (E.loading p i.engine)
        ∧ ∃ j, i.load E files path = (.error .interrupt, j) := by
  have hload : i.load E files path = executeShown E text.unifyLines.strip
      ⟨E.loading p i.engine, i.history, i.transcript.clear⟩ := by
    simp only [load, hp, hr]
    exact runFresh_eq hne _
  rw [hload]
  rcases executeShown_cases E text.unifyLines.strip
    (k := ⟨E.loading p i.engine, i.history, i.transcript.clear⟩)
    (Transcript.errors_clear i.transcript) with ⟨o, j, h, hleaves⟩ | ⟨-, hi, j, h, -⟩
  · exact .inl ⟨o, j, h, hleaves⟩
  · exact .inr ⟨hi, j, h⟩

end Interaction

theorem Escapes.runLine_eq {line : Text} {i : Interaction σ} {r : Raised}
    (h : Escapes E files line i r) : ∃ j, i.runLine E files line = (.error r, j) := by
  have hload : ∀ {path : Text}, Asks line path →
      (i.load E files path).1 = .error r → ∃ j, i.runLine E files line = (.error r, j) := by
    intro path ⟨hc, hne⟩ hr
    refine ⟨(i.load E files path).2, ?_⟩
    simp only [Interaction.runLine_eq, hc, Interaction.runCommand, List.isEmpty_iff, if_neg hne, hr]
    rfl
  cases h with
  | noPlace h hp => exact hload h (by simp only [Interaction.load, hp])
  | notText h hp hr => exact hload h (by simp only [Interaction.load, hp, hr])
  | interrupted h hi =>
    obtain ⟨⟨path, hasks, hp⟩, ⟨text, hr, rfl⟩, hne⟩ := h
    refine hload hasks ?_
    simp only [Interaction.load, hp, hr]
    rw [Interaction.runFresh_eq hne]
    exact (Interaction.executeShown_of_error (Engine.interrupted_iff.1 hi)).1

/-! ### What the prompt survives -/

section Failing

variable {line path : Text} {p : Path} {i : Interaction σ}

theorem fails_source_iff (hc : Command.ofLine? line.strip = none) :
    Fails E files line i ↔ line.strip ≠ [] ∧ ¬∃ text, E.Shows line.strip i.engine text := by
  refine ⟨fun h => ?_, fun ⟨hne, h⟩ => .source hc hne h⟩
  cases h with
  | source _ hne h => exact ⟨hne, h⟩
  | noPath h => cases hc.symm.trans h
  | unread h => cases hc.symm.trans h.1
  | program h =>
    obtain ⟨⟨path, h, _⟩, _⟩ := h
    cases hc.symm.trans h.1

theorem not_fails_help (hc : Command.ofLine? line.strip = some .help) :
    ¬Fails E files line i := by
  intro h
  cases h with
  | source h => cases hc.symm.trans h
  | noPath h => cases hc.symm.trans h
  | unread h => cases hc.symm.trans h.1
  | program h =>
    obtain ⟨⟨path, h, _⟩, _⟩ := h
    cases hc.symm.trans h.1

theorem fails_program_iff {text : Text} (h : Asks line path) (hp : files.locate path = .ok p)
    (hr : files.read p = .ok text) :
    Fails E files line i ↔ text.unifyLines.strip ≠ []
      ∧ ¬∃ shown, E.Shows text.unifyLines.strip (E.loading p i.engine) shown := by
  refine ⟨fun hf => ?_, fun ⟨hne, hs⟩ => .program ⟨⟨path, h, hp⟩, ⟨text, hr, rfl⟩, hne⟩ hs⟩
  cases hf with
  | source hc => cases h.1.symm.trans hc
  | noPath hc =>
    cases h.1.symm.trans hc
    exact absurd rfl h.2
  | unread h' hp' hr' =>
    cases h.1.symm.trans h'.1
    cases hp.symm.trans hp'
    cases hr.symm.trans hr'
  | program hl hs =>
    obtain ⟨⟨path', h', hp'⟩, ⟨text', hr', rfl⟩, hne⟩ := hl
    cases h.1.symm.trans h'.1
    cases hp.symm.trans hp'
    cases hr.symm.trans hr'
    exact ⟨hne, hs⟩

end Failing

/-- What has come to its end has raised nothing. -/
theorem Survives.of_run {line : Text} {i j : Interaction σ}
    (run : i.runLine E files line = (.ok (), j))
    (failed : Fails E files line i → i.transcript.LeavesError j.transcript)
    (unfailed : ¬Fails E files line i → j.transcript.errors = i.transcript.errors) :
    Survives E files line i j := by
  refine ⟨run, fun r hr => ?_, failed, unfailed⟩
  obtain ⟨k, hk⟩ := hr.runLine_eq
  cases run.symm.trans hk

theorem survives_source (files : Files) {line : Text} (hc : Command.ofLine? line.strip = none)
    (i : Interaction σ) : ∃ j, Survives E files line i j := by
  have hrun : i.runLine E files line = i.submitTyped E line := by
    simp only [Interaction.runLine_eq, hc]
  have hfails : Fails E files line i ↔ _ := fails_source_iff hc
  by_cases hne : line.strip = []
  · refine ⟨i, .of_run (hrun.trans ?_) (fun h => absurd hne (hfails.1 h).1) fun _ => rfl⟩
    simp only [Interaction.submitTyped, Interaction.submit, hne]
    rfl
  · obtain ⟨j, h, hfailed, hshown⟩ := Interaction.submitTyped_cases (E := E) hne i
    refine ⟨j, .of_run (hrun.trans h) (fun h => hfailed (hfails.1 h).2) fun h => hshown ?_⟩
    by_contra hn
    exact h (hfails.2 ⟨hne, hn⟩)

/-- The prompt comes back after a request for a program, unless it is one of the three kinds. -/
theorem survives_load (E : Engine σ κ) (files : Files) {line path : Text} (h : Asks line path)
    (i : Interaction σ) : (∃ j, Survives E files line i j) ∨ ∃ r, Escapes E files line i r := by
  have hrun : i.runLine E files line
      = ((i.load E files path).1.map fun _ => (), (i.load E files path).2) := by
    simp only [Interaction.runLine_eq, h.1, Interaction.runCommand, List.isEmpty_iff, if_neg h.2]
  rcases hp : files.locate path with e | p
  · exact .inr ⟨_, .noPlace h hp⟩
  rcases hr : files.read p with (e | detail) | text
  · have hfails : Fails E files line i := .unread h hp hr
    simp only [Interaction.load, hp, hr] at hrun
    exact .inl ⟨_, .of_run hrun (fun _ => Transcript.leavesError_append rfl _)
      fun hn => absurd hfails hn⟩
  · exact .inr ⟨_, .notText h hp hr⟩
  · have hfails := fails_program_iff (E := E) (i := i) h hp hr
    by_cases hne : text.unifyLines.strip = []
    · simp only [Interaction.load, hp, hr, Interaction.runFresh, hne] at hrun
      exact .inl ⟨_, .of_run hrun (fun hf => absurd hne (hfails.1 hf).1) fun _ => rfl⟩
    · rcases Interaction.load_cases (E := E) hp hr hne i with
        ⟨o, j, hload, hfailed, hshown⟩ | ⟨hi, -⟩
      · rw [hload] at hrun
        refine .inl ⟨j, .of_run hrun (fun hf => hfailed (hfails.1 hf).2) fun hf => hshown ?_⟩
        by_contra hn
        exact hf (hfails.2 ⟨hne, hn⟩)
      · exact .inr ⟨_, .interrupted ⟨⟨path, h, hp⟩, ⟨text, hr, rfl⟩, hne⟩ hi⟩

/-- The prompt comes back after a line, unless the line is one of the three kinds. -/
theorem survives_or_escapes (E : Engine σ κ) (files : Files) (line : Text) (i : Interaction σ) :
    (∃ j, Survives E files line i j) ∨ ∃ r, Escapes E files line i r := by
  rcases hc : Command.ofLine? line.strip with _ | _ | path
  · exact .inl (survives_source files hc i)
  · have hrun : i.runLine E files line
        = (.ok (), { i with transcript := i.transcript.appendAll helpLines .success }) := by
      simp only [Interaction.runLine_eq, hc, Interaction.runCommand]
    exact .inl ⟨_, .of_run hrun (fun h => absurd h (not_fails_help hc)) fun _ =>
      Transcript.errors_appendAll (by decide) helpLines i.transcript⟩
  · by_cases hne : path = []
    · subst hne
      have hrun : i.runLine E files line = (.ok (), i.append "Usage: :load <file>" .error) := by
        simp only [Interaction.runLine_eq, hc, Interaction.runCommand]
        rfl
      exact .inl ⟨_, .of_run hrun (fun _ => Transcript.leavesError_append rfl _)
        fun h => absurd (.noPath hc) h⟩
    · exact survives_load E files ⟨hc, hne⟩ i

/-! ### Conversations -/

section
variable (E : Engine σ κ) (files : Files)

/-- The prompt comes back after all of some lines, none of which leaves it. -/
inductive Reaches : List Typed → Interaction σ → Interaction σ → Prop
  | nil (i : Interaction σ) : Reaches [] i i
  | interrupted {lines : List Typed} {i j : Interaction σ} (h : Reaches lines i j) :
    Reaches (none :: lines) i j
  | line {line : Text} {lines : List Typed} {i j k : Interaction σ} (hstays : isExit line = false)
    (h : Survives E files line i j) (hrest : Reaches lines j k) : Reaches (some line :: lines) i k

/-- How a conversation ends at which `n` lines have been read and the others are left. -/
inductive Ends (n : Nat) : List Typed → Interaction σ → Answer (Interaction σ) Conversation → Prop
  | noMore (i : Interaction σ) : Ends n [] i (.ok ⟨n + 1, []⟩, i)
  | leaves {line : Text} (h : isExit line = true) (unread : List Typed) (i : Interaction σ) :
    Ends n (some line :: unread) i (.ok ⟨n + 1, unread⟩, i)
  | escapes {line : Text} {unread : List Typed} {i j : Interaction σ} {r : Raised}
    (hstays : isExit line = false) (h : Escapes E files line i r)
    (hrun : i.runLine E files line = (.error r, j)) :
    Ends n (some line :: unread) i (.error r, j)

end

/-- One more line has been read before. -/
theorem Ends.succ {n : Nat} {lines : List Typed} {i j : Interaction σ}
    {answer : Except Raised Conversation} (h : Ends E files n lines i (answer, j)) :
    Ends E files (n + 1) lines i
      (answer.map fun c => { c with prompts := c.prompts + 1 }, j) := by
  cases h with
  | noMore => exact .noMore i
  | leaves h unread => exact .leaves h unread i
  | escapes hstays h hrun => exact .escapes hstays h hrun

namespace Interaction

theorem readLines_ends (E : Engine σ κ) (files : Files) (lines : List Typed) (i : Interaction σ) :
    ∃ read rest k, lines = read ++ rest ∧ Reaches E files read i k
      ∧ Ends E files read.length rest k (i.readLines E files lines) := by
  induction lines generalizing i with
  | nil => exact ⟨[], [], i, rfl, .nil i, .noMore i⟩
  | cons typed lines ih =>
    cases typed with
    | none =>
      obtain ⟨read, rest, k, hlines, hreaches, hends⟩ := ih i
      exact ⟨none :: read, rest, k, congrArg _ hlines, .interrupted hreaches, hends.succ⟩
    | some line =>
      cases hexit : isExit line with
      | true =>
        refine ⟨[], some line :: lines, i, rfl, .nil i, ?_⟩
        simp only [readLines, hexit, if_true]
        exact .leaves hexit lines i
      | false =>
        rcases survives_or_escapes E files line i with ⟨j, h⟩ | ⟨r, h⟩
        · obtain ⟨read, rest, k, hlines, hreaches, hends⟩ := ih j
          refine ⟨some line :: read, rest, k, congrArg _ hlines, .line hexit h hreaches, ?_⟩
          simp only [readLines, hexit, h.run, Bool.false_eq_true, if_false]
          exact hends.succ
        · obtain ⟨j, hrun⟩ := h.runLine_eq
          refine ⟨[], some line :: lines, i, rfl, .nil i, ?_⟩
          simp only [readLines, hexit, hrun, Bool.false_eq_true, if_false]
          exact .escapes hexit h hrun

/-- A conversation goes on until there are no more lines, until a line leaves the prompt, or until
a line escapes from it; in the first two cases it ends as it should. -/
theorem converse_ends (E : Engine σ κ) (files : Files) (lines : List Typed) (i : Interaction σ) :
    ∃ read rest k, lines = read ++ rest ∧ Reaches E files read (i.noteStart E) k
      ∧ Ends E files read.length rest k (i.converse E files lines) :=
  readLines_ends E files lines (i.noteStart E)

/-- The home directory of a user that the system does not know. -/
example (home : Text) (read : Path → Except ReadError Text) (i : Interaction σ) :
    (i.converse E ⟨home, fun _ => none, read⟩ [some ":load ~nobody/x", some "1"]).1
      = .error (.fault (.reported "RuntimeError" "Could not determine home directory.")) := by
  rfl

end Interaction

end Toplevel
