import Toplevel.CommandLine.Options
import Toplevel.Interaction.Prompt
import Toplevel.Syntax.Outline

/-!
# The program

`Launch.ofArguments` does all that the arguments of the program ask for before anything is typed:
either that is the whole run, with its exit status and what it writes, or an interaction starts.
`Launch.run` is a whole run, given what will be typed.

The modes that show an outline, the code or the value of a source write to one of the two outputs:
a result to the first and a diagnosis to the second.
-/

namespace Toplevel

/-- What a run writes, and its exit status. -/
structure Report where
  exit : Nat
  out : Text
  err : Text
deriving DecidableEq

namespace Report

def success (out : Text) : Report := ⟨0, out, []⟩

def failure (err : Text) : Report := ⟨1, [], err⟩

def misuse (e : UsageError) : Report := ⟨2, [], e.report⟩

def ofLine (ok : Bool) (line : Text) : Report :=
  let t := Text.concat [line, "\n"]
  if ok then success t else failure t

end Report

/-- An error that ends the run without a report. -/
structure Abort where
  kind : Text
  message : Text
deriving DecidableEq

/-- The level for the log is no value, so that it has no name. -/
def Abort.noLevel : Abort := ⟨"AttributeError", "'list' object has no attribute 'upper'"⟩

/-- The records that a level lets through, oldest first; all records are for debugging. -/
def logText (level : Level) (log : List LogRecord) : Text :=
  if level = .debug then (log.reverse.map LogRecord.text).flatten else []

/-! ### Sources -/

/-- The path of the source file, if the source is a file. -/
def Options.path? (o : Options) : Option Path :=
  if o.text then none else o.source.map Path.ofText

/-- The text of a source file, if the file is there. A path that names nothing is not there; what
is there but cannot be read ends the run. -/
def readSource (files : Files) (p : Path) : Except Abort (Option Text) :=
  match p.check with
  | .error _ => .ok none
  | .ok () =>
    match files.read p with
    | .ok t => .ok (some t.unifyLines)
    | .error (.system .notFound) | .error (.system .notDirectory) => .ok none
    | .error (.system e) => .error ⟨e.kind, e.report p⟩
    | .error (.notText detail) => .error ⟨"UnicodeDecodeError", detail⟩

/-! ### Modes -/

def outlineReport (source : Text) (positions : Bool) : Report :=
  match Tree.ofSource source with
  | .error e => .ofLine false e.message
  | .ok tree =>
    let lines := Outline.linesAll positions 0 tree.shown.items
    .success (lines.map fun l => Text.concat [l, "\n"]).flatten

def compileReport (source : Text) : Report :=
  match compileSource source .empty with
  | .error e => .ofLine false e.message
  | .ok (code, _) => .ofLine true code.text

/-- Evaluates a source with a new engine; the log goes before the diagnosis. -/
def evaluateReport (level : Level) (source : Text) : Report :=
  match Engine.standard.execute source .empty with
  | (.ok outcome, s) =>
    let r := Report.ofLine outcome.success outcome.message
    { r with err := logText level s.log ++ r.err }
  | (.error _, s) => .failure (logText level s.log)

/-- What the run of the program comes to before anything is typed. -/
inductive Launch where
  | finished (r : Report)
  | interactive (i : Interaction EngineState) (level : Level) (plain : Bool)

namespace Launch

/-- Runs a whole program, if there is one, before the prompt. -/
def interact (o : Options) (level : Level) (source : Option Text) : Launch :=
  let i := Interaction.start EngineState.empty
  match source with
  | some t => interactive (i.runFresh Engine.standard t).2 level o.plain
  | none => interactive i level o.plain

/-- Starts the mode that the options ask for, or an interaction. -/
def ofSource (o : Options) (level : Level) (source : Option Text) : Launch :=
  if 1 < [o.outline, o.compile, o.evaluate].count true then finished (.misuse .severalModes)
  else if o.outline || o.compile || o.evaluate then
    match source with
    | none => finished (.misuse .modeWithoutSource)
    | some t =>
      finished
        (if o.outline then outlineReport t o.positions
        else if o.compile then compileReport t
        else evaluateReport level t)
  else interact o level source

/-- Finds the source that the options name. -/
def ofLevel (files : Files) (o : Options) (level : Level) : Except Abort Launch :=
  match o.path?, o.source with
  | none, none =>
    .ok (if o.text then finished (.misuse .textWithoutSource) else ofSource o level none)
  | none, source => .ok (ofSource o level source)
  | some p, _ => do
    match ← readSource files p with
    | some t => return ofSource o level (some t)
    | none => return finished (.ofLine false (Text.concat ["Error: File not found: ", p.text]))

def ofOptions (files : Files) (o : Options) : Except Abort Launch :=
  match o.level with
  | none => .error .noLevel
  | some level => ofLevel files o level

def ofArguments (files : Files) (arguments : List Text) : Except Abort Launch :=
  match Options.ofArguments arguments with
  | .error .help => .ok (finished (.success helpText))
  | .error (.usage e) => .ok (finished (.misuse e))
  | .ok o => ofOptions files o

/-- The whole run, given the lines typed at the prompt. -/
def run (screen : Screen) (files : Files) (lines : List Typed) :
    Launch → Except Raised Report
  | finished r => .ok r
  | interactive i level _ =>
    let (answer, j) := i.converse Engine.standard files lines
    answer.map fun _ =>
      ⟨0, screen.renderAll i.transcript.events ++ screen.conversation i j,
        logText level j.engine.log⟩

end Launch

end Toplevel
