import Toplevel.CommandLine.Program
import Toplevel.Proofs.Interaction.Conversation

/-!
# How a run of the program ends

The checks on the arguments and on the source are made in a fixed order, and each of them may end
the run with a report (`Launch.ofOptions_eq_iff`). A run with a single mode writes a result to the
first output or a diagnosis to the second (`Mode.report_eq_iff`). Three things end a run without a
report: a level that is no value, a source that is there but cannot be read, and a typed line that
raises out of the prompt (`Launch.exit_contract`).
-/

namespace Toplevel

/-! ### Modes -/

/-- What is written about a source in place of an interaction. -/
inductive Mode where
  | outline
  | compile
  | evaluate
deriving DecidableEq

namespace Mode

def all : List Mode := [outline, compile, evaluate]

def report (level : Level) (positions : Bool) (source : Text) : Mode → Report
  | outline => outlineReport source positions
  | compile => compileReport source
  | evaluate => evaluateReport level source

end Mode

namespace Options

def asks (o : Options) : Mode → Bool
  | .outline => o.outline
  | .compile => o.compile
  | .evaluate => o.evaluate

/-- The modes that the options ask for. -/
def modes (o : Options) : List Mode := Mode.all.filter o.asks

end Options

/-- A text and the line feed behind it. -/
def Text.line (t : Text) : Text := Text.concat [t, "\n"]

/-- What a mode writes about a source: a result, or what is wrong with the source. -/
inductive Mode.Gives (positions : Bool) (source : Text) : Mode → Except Text Text → Prop
  | outlined {tree : Tree (.nonterminal .program)} (h : Tree.ofSource source = .ok tree) :
    Gives positions source .outline
      (.ok ((Outline.linesAll positions 0 tree.shown.items).map Text.line).flatten)
  | notOutlined {e : SyntaxError} (h : Tree.ofSource source = .error e) :
    Gives positions source .outline (.error e.message.line)
  | compiled {code : Compiled} {d : Definitions}
    (h : compileSource source .empty = .ok (code, d)) :
    Gives positions source .compile (.ok code.text.line)
  | notCompiled {e : CompileError} (h : compileSource source .empty = .error e) :
    Gives positions source .compile (.error e.message.line)
  | evaluated {text : Text} (h : Engine.standard.Shows source .empty text) :
    Gives positions source .evaluate (.ok text.line)
  | notEvaluated {o : Outcome} (h : (Engine.standard.execute source .empty).1 = .ok o)
    (hfails : ¬∃ text, Engine.standard.Shows source .empty text) :
    Gives positions source .evaluate (.error o.message.line)

/-- A result is written to the first output, and what is wrong to the second. -/
def Report.ofAnswer : Except Text Text → Report
  | .ok out => .success out
  | .error err => .failure err

theorem Report.ofAnswer_injective : Function.Injective Report.ofAnswer := by
  rintro (err | out) (err' | out') h <;>
    simp_all [Report.ofAnswer, Report.success, Report.failure]

namespace Mode

variable {positions : Bool} {source : Text} {m : Mode} {level : Level}

theorem report_exit (level : Level) (positions : Bool) (source : Text) (m : Mode) :
    (m.report level positions source).exit = 0 ∨ (m.report level positions source).exit = 1 := by
  have hline : ∀ ok line, (Report.ofLine ok line).exit = 0 ∨ (Report.ofLine ok line).exit = 1 := by
    rintro (_ | _) line
    · exact .inr rfl
    · exact .inl rfl
  cases m with
  | outline =>
    simp only [report, outlineReport]
    split
    · exact hline false _
    · exact .inl rfl
  | compile =>
    simp only [report, compileReport]
    split
    · exact hline false _
    · exact hline true _
  | evaluate =>
    simp only [report, evaluateReport]
    split
    · exact hline _ _
    · exact .inr rfl

/-- A mode has one answer, and its report is that answer if the log is not for debugging. -/
theorem exists_gives (hlevel : level ≠ .debug) (positions : Bool) (source : Text) (m : Mode) :
    ∃ answer, m.Gives positions source answer
      ∧ m.report level positions source = .ofAnswer answer := by
  cases m with
  | outline =>
    rcases h : Tree.ofSource source with e | tree
    · exact ⟨_, .notOutlined h, by simp only [report, outlineReport, h]; rfl⟩
    · exact ⟨_, .outlined h, by simp only [report, outlineReport, h]; rfl⟩
  | compile =>
    rcases h : compileSource source .empty with e | ⟨code, d⟩
    · exact ⟨_, .notCompiled h, by simp only [report, compileReport, h]; rfl⟩
    · exact ⟨_, .compiled h, by simp only [report, compileReport, h]; rfl⟩
  | evaluate =>
    obtain ⟨o, ho⟩ := Engine.standard_ordinary.execute_isOk source .empty
    have hreport : evaluateReport level source = .ofLine o.success o.message := by
      rcases he : Engine.standard.execute source .empty with ⟨answer, s⟩
      rw [he] at ho
      subst ho
      simp only [evaluateReport, he, logText, if_neg hlevel, List.nil_append]
    have hsuccess := (Engine.reports_of_execute ho).success
    cases hs : o.success with
    | true =>
      obtain ⟨text, hshows⟩ := hsuccess.1 hs
      refine ⟨_, .evaluated hshows, ?_⟩
      rw [report, hreport, hs, (Engine.reports_of_execute ho).shown text hshows]
      rfl
    | false =>
      refine ⟨_, .notEvaluated ho fun hshows => ?_, ?_⟩
      · cases hs.symm.trans (hsuccess.2 hshows)
      · rw [report, hreport, hs]
        rfl

theorem Gives.unique {answer answer' : Except Text Text} (h : m.Gives positions source answer)
    (h' : m.Gives positions source answer') : answer = answer' := by
  cases h <;> cases h' <;> simp_all [Engine.shows_iff]

/-- What a mode reports is what it gives. -/
theorem report_eq_iff (hlevel : level ≠ .debug) {answer : Except Text Text} :
    m.report level positions source = .ofAnswer answer ↔ m.Gives positions source answer := by
  obtain ⟨answer', hgives, hreport⟩ := exists_gives hlevel positions source m
  rw [hreport, Report.ofAnswer_injective.eq_iff]
  exact ⟨fun h => h ▸ hgives, hgives.unique⟩

end Mode

/-! ### Sources -/

/-- What looking for a source file comes to. -/
inductive Found (files : Files) (p : Path) : Except Abort (Option Text) → Prop
  | text {t : Text} (hname : p.check = .ok ()) (h : files.read p = .ok t) :
    Found files p (.ok (some t.unifyLines))
  | noName {e : PathError} (hname : p.check = .error e) : Found files p (.ok none)
  | missing {e : FileError} (hname : p.check = .ok ()) (h : files.read p = .error (.system e))
    (he : e = .notFound ∨ e = .notDirectory) : Found files p (.ok none)
  /-- A directory is there, and so is what has too long a name to be looked up. -/
  | unreadable {e : FileError} (hname : p.check = .ok ()) (h : files.read p = .error (.system e))
    (he : e = .isDirectory ∨ e = .nameTooLong) : Found files p (.error ⟨e.kind, e.report p⟩)
  | notText {detail : Text} (hname : p.check = .ok ())
    (h : files.read p = .error (.notText detail)) :
    Found files p (.error ⟨"UnicodeDecodeError", detail⟩)

theorem found_readSource (files : Files) (p : Path) : Found files p (readSource files p) := by
  rcases hname : p.check with e | _
  · simp only [readSource, hname]
    exact .noName hname
  rcases h : files.read p with (e | detail) | t
  · cases e <;> simp only [readSource, hname, h]
    · exact .missing hname h (.inl rfl)
    · exact .unreadable hname h (.inl rfl)
    · exact .missing hname h (.inr rfl)
    · exact .unreadable hname h (.inr rfl)
  · simp only [readSource, hname, h]
    exact .notText hname h
  · simp only [readSource, hname, h]
    exact .text hname h

theorem readSource_eq_iff {files : Files} {p : Path} {answer : Except Abort (Option Text)} :
    readSource files p = answer ↔ Found files p answer := by
  refine ⟨fun h => h ▸ found_readSource files p, fun h => ?_⟩
  cases h with
  | text hname h | notText hname h => simp only [readSource, hname, h]
  | noName hname => simp only [readSource, hname]
  | missing hname h he | unreadable hname h he =>
    rcases he with rfl | rfl <;> simp only [readSource, hname, h]

/-- The source that the options name, if they name one. -/
inductive Sourced (files : Files) (o : Options) : Option Text → Prop
  | none (htext : o.text = false) (h : o.source = none) : Sourced files o none
  | text {t : Text} (htext : o.text = true) (h : o.source = some t) : Sourced files o (some t)
  | file {p : Path} {t : Text} (hp : o.path? = some p) (h : Found files p (.ok (some t))) :
    Sourced files o (some t)

theorem sourced_none_iff {files : Files} {o : Options} :
    Sourced files o none ↔ o.text = false ∧ o.source = none :=
  ⟨fun h => by cases h with | none htext h => exact ⟨htext, h⟩, fun ⟨htext, h⟩ => .none htext h⟩

namespace Launch

/-- The interaction before the first prompt. -/
def opened : Option Text → Interaction EngineState
  | none => .start .empty
  | some t => ((Interaction.start EngineState.empty).runFresh Engine.standard t).2

/-- What the options come to before anything is typed. -/
inductive Starts (files : Files) (o : Options) : Except Abort Launch → Prop
  | noLevel (hlevel : o.level = none) : Starts files o (.error .noLevel)
  | noText {level : Level} (hlevel : o.level = some level) (htext : o.text = true)
    (h : o.source = none) : Starts files o (.ok (finished (.misuse .textWithoutSource)))
  | unreadable {level : Level} {p : Path} {a : Abort} (hlevel : o.level = some level)
    (hp : o.path? = some p) (h : Found files p (.error a)) : Starts files o (.error a)
  | missing {level : Level} {p : Path} (hlevel : o.level = some level) (hp : o.path? = some p)
    (h : Found files p (.ok none)) :
    Starts files o
      (.ok (finished (.failure (Text.line (Text.concat ["Error: File not found: ", p.text])))))
  | severalModes {level : Level} {source : Option Text} (hlevel : o.level = some level)
    (hsource : Sourced files o source) (hmodes : 1 < o.modes.length) :
    Starts files o (.ok (finished (.misuse .severalModes)))
  | noSource {level : Level} {m : Mode} (hlevel : o.level = some level)
    (hsource : Sourced files o none) (hmodes : o.modes = [m]) :
    Starts files o (.ok (finished (.misuse .modeWithoutSource)))
  | mode {level : Level} {m : Mode} {t : Text} (hlevel : o.level = some level)
    (hsource : Sourced files o (some t)) (hmodes : o.modes = [m]) :
    Starts files o (.ok (finished (m.report level o.positions t)))
  | interactive {level : Level} {source : Option Text} (hlevel : o.level = some level)
    (hsource : Sourced files o source) (hmodes : o.modes = []) :
    Starts files o (.ok (interactive (opened source) level o.plain))

variable {files : Files} {o : Options} {level : Level} {source : Option Text}

theorem ofSource_eq (o : Options) (level : Level) (source : Option Text) :
    ofSource o level source
      = match o.modes, source with
        | [], source => interactive (opened source) level o.plain
        | [_], none => finished (.misuse .modeWithoutSource)
        | [m], some t => finished (m.report level o.positions t)
        | _ :: _ :: _, _ => finished (.misuse .severalModes) := by
  obtain ⟨_, _, outline, _, compile, evaluate, _, _⟩ := o
  cases outline <;> cases compile <;> cases evaluate <;> cases source <;> rfl

theorem starts_ofSource (hlevel : o.level = some level) (hsource : Sourced files o source) :
    Starts files o (.ok (ofSource o level source)) := by
  rw [ofSource_eq]
  rcases hmodes : o.modes with _ | ⟨m, _ | ⟨m', ms⟩⟩
  · exact .interactive hlevel hsource hmodes
  · cases source with
    | none => exact .noSource hlevel hsource hmodes
    | some t => exact .mode hlevel hsource hmodes
  · refine .severalModes hlevel hsource ?_
    rw [hmodes]
    exact Nat.succ_lt_succ (Nat.succ_pos _)

theorem ofLevel_sourced (level : Level) (hsource : Sourced files o source) :
    ofLevel files o level = .ok (ofSource o level source) := by
  cases hsource with
  | none htext h =>
    simp only [ofLevel, Options.path?, htext, h]
    rfl
  | text htext h => simp only [ofLevel, Options.path?, htext, h, if_true]
  | file hp h =>
    simp only [ofLevel, hp, readSource_eq_iff.2 h]
    rfl

theorem starts_ofOptions (files : Files) (o : Options) : Starts files o (ofOptions files o) := by
  rcases hlevel : o.level with _ | level
  · simp only [ofOptions, hlevel]
    exact .noLevel hlevel
  rw [ofOptions, hlevel]
  dsimp only
  rcases hp : o.path? with _ | p
  · cases htext : o.text with
    | true =>
      rcases h : o.source with _ | t
      · simp only [ofLevel, hp, h, htext, if_true]
        exact .noText hlevel htext h
      · rw [ofLevel_sourced level (.text htext h)]
        exact starts_ofSource hlevel (.text htext h)
    | false =>
      have h : o.source = none := by simpa [Options.path?, htext] using hp
      rw [ofLevel_sourced level (.none htext h)]
      exact starts_ofSource hlevel (.none htext h)
  · have hfound := found_readSource files p
    rcases h : readSource files p with a | _ | t <;> rw [h] at hfound
    · simp only [ofLevel, hp, h]
      exact .unreadable hlevel hp hfound
    · simp only [ofLevel, hp, h]
      exact .missing hlevel hp hfound
    · rw [ofLevel_sourced level (.file hp hfound)]
      exact starts_ofSource hlevel (.file hp hfound)

/-- What the options come to, and nothing else comes of them. -/
theorem ofOptions_eq_iff {launch : Except Abort Launch} :
    ofOptions files o = launch ↔ Starts files o launch := by
  refine ⟨fun h => h ▸ starts_ofOptions files o, fun h => ?_⟩
  cases h with
  | noLevel hlevel => simp only [ofOptions, hlevel]
  | noText hlevel htext h =>
    simp only [ofOptions, hlevel, ofLevel, Options.path?, htext, h, if_true]
  | unreadable hlevel hp h | missing hlevel hp h =>
    simp only [ofOptions, hlevel, ofLevel, hp, readSource_eq_iff.2 h]
    rfl
  | severalModes hlevel hsource hmodes =>
    simp only [ofOptions, hlevel, ofLevel_sourced _ hsource, ofSource_eq]
    rcases hms : o.modes with _ | ⟨m, _ | ⟨m', ms⟩⟩
    · rw [hms] at hmodes
      cases hmodes
    · rw [hms] at hmodes
      exact absurd hmodes (Nat.lt_irrefl 1)
    · rfl
  | noSource hlevel hsource hmodes | mode hlevel hsource hmodes
  | interactive hlevel hsource hmodes =>
    simp only [ofOptions, hlevel, ofLevel_sourced _ hsource, ofSource_eq, hmodes]

/-! ### Whole runs -/

/-- A whole run of the program. It may end without a report before anything is typed, or after. -/
def whole (screen : Screen) (files : Files) (lines : List Typed) (arguments : List Text) :
    Except Abort (Except Raised Report) :=
  (ofArguments files arguments).map (run screen files lines)

/-- How a run with the single mode `m` ends. -/
inductive Judged (files : Files) (o : Options) (m : Mode) :
    Except Abort (Except Raised Report) → Prop
  | result {t out : Text} (hsource : Sourced files o (some t))
    (h : m.Gives o.positions t (.ok out)) : Judged files o m (.ok (.ok ⟨0, out, []⟩))
  | complaint {t err : Text} (hsource : Sourced files o (some t))
    (h : m.Gives o.positions t (.error err)) : Judged files o m (.ok (.ok ⟨1, [], err⟩))
  | missing {p : Path} (hp : o.path? = some p) (h : Found files p (.ok none)) :
    Judged files o m
      (.ok (.ok ⟨1, [], Text.line (Text.concat ["Error: File not found: ", p.text])⟩))
  | unreadable {p : Path} {a : Abort} (hp : o.path? = some p) (h : Found files p (.error a)) :
    Judged files o m (.error a)

/-- One of the typed lines raises out of the prompt. -/
def TypedEscapes (files : Files) (lines : List Typed) (i : Interaction EngineState)
    (r : Raised) : Prop :=
  ∃ read line unread j, lines = read ++ some line :: unread
    ∧ Reaches Engine.standard files read (i.noteStart Engine.standard) j
    ∧ isExit line = false ∧ Escapes Engine.standard files line j r

/-- What is known of the end of a run. -/
structure ExitContract (screen : Screen) (files : Files) (lines : List Typed)
    (arguments : List Text) : Prop where
  status : ∀ r, whole screen files lines arguments = .ok (.ok r) →
    r.exit = 0 ∨ r.exit = 1 ∨ r.exit = 2
  /-- The third status is that of a misuse. -/
  misuse : ∀ r, whole screen files lines arguments = .ok (.ok r) → r.exit = 2 →
    ∃ e : UsageError, r = ⟨2, [], e.report⟩
  aborts : ∀ a, whole screen files lines arguments = .error a
    ↔ ∃ o, Options.ofArguments arguments = .ok o
      ∧ (o.level = none ∧ a = .noLevel
        ∨ ∃ level p, o.level = some level ∧ o.path? = some p ∧ Found files p (.error a))
  raises : ∀ r, whole screen files lines arguments = .ok (.error r)
    ↔ ∃ o level source, Options.ofArguments arguments = .ok o ∧ o.level = some level
      ∧ Sourced files o source ∧ o.modes = [] ∧ TypedEscapes files lines (opened source) r
  judged : ∀ o level m, Options.ofArguments arguments = .ok o → o.level = some level →
    level ≠ .debug → o.source ≠ none → o.modes = [m] → ∀ ending,
      whole screen files lines arguments = ending ↔ Judged files o m ending

variable {screen : Screen} {lines : List Typed} {arguments : List Text}

theorem whole_of_options (h : Options.ofArguments arguments = .ok o) :
    whole screen files lines arguments = (ofOptions files o).map (run screen files lines) := by
  simp only [whole, ofArguments, h]

theorem run_interactive_error_iff {i : Interaction EngineState} {plain : Bool} {r : Raised} :
    run screen files lines (interactive i level plain) = .error r
      ↔ (i.converse Engine.standard files lines).1 = .error r := by
  simp only [run]
  cases (i.converse Engine.standard files lines).1 <;> simp [Except.map]

theorem run_interactive_exit {i : Interaction EngineState} {plain : Bool} {r : Report}
    (h : run screen files lines (interactive i level plain) = .ok r) : r.exit = 0 := by
  simp only [run] at h
  cases hanswer : (i.converse Engine.standard files lines).1 <;> rw [hanswer] at h <;> cases h
  rfl

/-- The lines before the one that raises are read. -/
theorem readLines_of_reaches {read rest : List Typed} {i j : Interaction EngineState}
    {r : Raised} (h : Reaches Engine.standard files read i j)
    (hrest : (j.readLines Engine.standard files rest).1 = .error r) :
    (i.readLines Engine.standard files (read ++ rest)).1 = .error r := by
  induction h with
  | nil => exact hrest
  | interrupted _ ih =>
    simp only [List.cons_append, Interaction.readLines, ih hrest]
    rfl
  | line hstays h _ ih =>
    simp only [List.cons_append, Interaction.readLines, hstays, h.run, ih hrest,
      Bool.false_eq_true, if_false]
    rfl

theorem converse_error_iff {i : Interaction EngineState} {r : Raised} :
    (i.converse Engine.standard files lines).1 = .error r ↔ TypedEscapes files lines i r := by
  constructor
  · intro h
    obtain ⟨read, rest, j, hlines, hreaches, hends⟩ :=
      Interaction.readLines_ends Engine.standard files lines (i.noteStart Engine.standard)
    change (Interaction.readLines Engine.standard files lines _).1 = _ at h
    generalize Interaction.readLines Engine.standard files lines _ = answer at h hends
    cases hends with
    | noMore | leaves => cases h
    | escapes hstays hescapes =>
      cases h
      exact ⟨read, _, _, j, hlines, hreaches, hstays, hescapes⟩
  · rintro ⟨read, line, unread, j, rfl, hreaches, hstays, hescapes⟩
    obtain ⟨k, hrun⟩ := hescapes.runLine_eq
    refine readLines_of_reaches hreaches ?_
    simp only [Interaction.readLines, hstays, hrun, Bool.false_eq_true, if_false]

/-- A report that is no misuse has one of the first two statuses. -/
theorem Starts.report {launch : Launch} {r : Report} (h : Starts files o (.ok launch))
    (hrun : run screen files lines launch = .ok r) :
    (r.exit = 0 ∨ r.exit = 1) ∨ ∃ e : UsageError, r = .misuse e := by
  cases h with
  | noText | severalModes | noSource =>
    cases hrun
    exact .inr ⟨_, rfl⟩
  | missing =>
    cases hrun
    exact .inl (.inr rfl)
  | mode =>
    cases hrun
    exact .inl (Mode.report_exit _ _ _ _)
  | interactive => exact .inl (.inl (run_interactive_exit hrun))

theorem whole_report {r : Report} (h : whole screen files lines arguments = .ok (.ok r)) :
    (r.exit = 0 ∨ r.exit = 1) ∨ ∃ e : UsageError, r = .misuse e := by
  rcases hopts : Options.ofArguments arguments with (_ | e) | o
  · simp only [whole, ofArguments, hopts] at h
    cases h
    exact .inl (.inl rfl)
  · simp only [whole, ofArguments, hopts] at h
    cases h
    exact .inr ⟨e, rfl⟩
  · rw [whole_of_options hopts] at h
    have hstarts := starts_ofOptions files o
    rcases hlaunch : ofOptions files o with a | launch <;> rw [hlaunch] at h hstarts
    · cases h
    · exact hstarts.report (Except.ok.inj h)

/-- The options are there if a run ends without a report. -/
theorem exists_options (h : ∀ r, whole screen files lines arguments ≠ .ok (.ok r)) :
    ∃ o, Options.ofArguments arguments = .ok o := by
  rcases hopts : Options.ofArguments arguments with (_ | e) | o
  · exact absurd (by simp only [whole, ofArguments, hopts]; rfl) (h (.success helpText))
  · exact absurd (by simp only [whole, ofArguments, hopts]; rfl) (h (.misuse e))
  · exact ⟨o, rfl⟩

theorem whole_eq_error_iff (hopts : Options.ofArguments arguments = .ok o) {a : Abort} :
    whole screen files lines arguments = .error a ↔ Starts files o (.error a) := by
  rw [whole_of_options hopts, ← ofOptions_eq_iff]
  cases ofOptions files o <;> simp [Except.map]

theorem whole_eq_raised_iff (hopts : Options.ofArguments arguments = .ok o) {r : Raised} :
    whole screen files lines arguments = .ok (.error r)
      ↔ ∃ level source, o.level = some level ∧ Sourced files o source ∧ o.modes = []
        ∧ TypedEscapes files lines (opened source) r := by
  rw [whole_of_options hopts]
  constructor
  · intro h
    have hstarts := starts_ofOptions files o
    rcases hlaunch : ofOptions files o with a | launch <;> rw [hlaunch] at h hstarts
    · cases h
    · cases hstarts with
      | noText | missing | severalModes | noSource | mode => cases h
      | interactive hlevel hsource hmodes =>
        exact ⟨_, _, hlevel, hsource, hmodes,
          converse_error_iff.1 (run_interactive_error_iff.1 (Except.ok.inj h))⟩
  · rintro ⟨level, source, hlevel, hsource, hmodes, hescapes⟩
    rw [ofOptions_eq_iff.2 (.interactive hlevel hsource hmodes)]
    exact congrArg Except.ok (run_interactive_error_iff.2 (converse_error_iff.2 hescapes))

/-- A run with a single mode and a source is judged in one way. -/
theorem judged_of_starts {m : Mode} (hlevel : o.level = some level) (hdebug : level ≠ .debug)
    (hsource : o.source ≠ none) (hmodes : o.modes = [m]) {launch : Except Abort Launch}
    (h : Starts files o launch) : Judged files o m (launch.map (run screen files lines)) := by
  cases h with
  | noLevel h => cases hlevel.symm.trans h
  | noText _ _ h => exact absurd h hsource
  | unreadable _ hp h => exact .unreadable hp h
  | missing _ hp h => exact .missing hp h
  | severalModes _ _ h =>
    rw [hmodes] at h
    exact absurd h (Nat.lt_irrefl 1)
  | noSource _ h => exact absurd (sourced_none_iff.1 h).2 hsource
  | interactive _ _ h => cases hmodes.symm.trans h
  | mode h hs hm =>
    cases hlevel.symm.trans h
    cases hmodes.symm.trans hm
    obtain ⟨answer, hgives, hreport⟩ := Mode.exists_gives hdebug o.positions _ m
    rw [hreport]
    cases answer with
    | error err => exact .complaint hs hgives
    | ok out => exact .result hs hgives

/-- Judgments are exclusive. -/
theorem Judged.whole_eq {m : Mode} (hopts : Options.ofArguments arguments = .ok o)
    (hlevel : o.level = some level) (hdebug : level ≠ .debug) (hmodes : o.modes = [m])
    {ending : Except Abort (Except Raised Report)} (h : Judged files o m ending) :
    whole screen files lines arguments = ending := by
  rw [whole_of_options hopts]
  cases h with
  | result hs h | complaint hs h =>
    rw [ofOptions_eq_iff.2 (.mode hlevel hs hmodes), (Mode.report_eq_iff hdebug).2 h]
    rfl
  | missing hp h =>
    rw [ofOptions_eq_iff.2 (.missing hlevel hp h)]
    rfl
  | unreadable hp h =>
    rw [ofOptions_eq_iff.2 (.unreadable hlevel hp h)]
    rfl

/-- A directory is there, but it cannot be read. -/
example (screen : Screen) (tree whole : FileTree) (lines : List Typed) :
    Launch.whole screen (tree.toFiles whole []) lines [".", "--eval"]
      = .error ⟨"IsADirectoryError", "[Errno 21] Is a directory: '.'"⟩ := by
  rfl

end Launch

end Toplevel
