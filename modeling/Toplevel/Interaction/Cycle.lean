import Toplevel.Interaction.Engine
import Toplevel.Interaction.History
import Toplevel.Interaction.Transcript

/-!
# Cycles of an interaction

In one cycle a text is compiled, evaluated and displayed, and whatever goes wrong becomes an
outcome. `submit` runs a line that somebody typed: the line is recorded and shown before its
outcome. `runFresh` runs a whole program from nothing and shows its outcome alone. Blank text
is no cycle at all.

Only an interruption ends a cycle without an outcome.
-/

namespace Toplevel

inductive Outcome where
  | value (text : Text)
  | rejected (reason : Text)
  | compilerFault (f : Fault)
  | evaluationFault (f : Fault)
deriving DecidableEq

namespace Outcome

def success : Outcome → Bool
  | value _ => true
  | _ => false

def message : Outcome → Text
  | value text => text
  | rejected reason => reason
  | compilerFault f => Text.concat ["internal compiler error: ", f.description]
  | evaluationFault f => Text.concat ["evaluation error: ", f.description]

def style (o : Outcome) : Style := if o.success then .success else .error

def errorName? : Outcome → Option Text
  | value _ => none
  | rejected _ => some "CompileError"
  | compilerFault _ => some "InternalCompilerError"
  | evaluationFault _ => some "EvaluationError"

def cause? : Outcome → Option Fault
  | value _ | rejected _ => none
  | compilerFault f | evaluationFault f => some f

end Outcome

/-- What stands before a line that is shown as it was typed. -/
def inputMark : Text := ">> "

structure Interaction (σ : Type) where
  engine : σ
  history : History
  transcript : Transcript

def Interaction.start {σ : Type} (engine : σ) : Interaction σ := ⟨engine, .empty, .empty⟩

section
variable {σ κ : Type} (E : Engine σ κ)

def Engine.compilerRaised (r : Raised) (s : σ) : Answer σ Outcome :=
  match r with
  | .fault f => (.ok (.compilerFault f), E.note .compilerRaised s)
  | .interrupt => (.error .interrupt, s)

def Engine.evaluationRaised (r : Raised) (s : σ) : Answer σ Outcome :=
  match r with
  | .fault f =>
    let outcome := Outcome.evaluationFault f
    (.ok outcome, E.note (.evaluationFailed outcome.message) s)
  | .interrupt => (.error .interrupt, s)

def Engine.run (code : κ) (s : σ) : Answer σ Outcome :=
  match E.evaluate code s with
  | (.error r, s) => E.evaluationRaised r s
  | (.ok v, s) =>
    match (E.heap s).display v with
    | .ok text => (.ok (.value text), s)
    | .error e => E.evaluationRaised (.fault (.ofDisplayError e)) s

def Engine.execute (source : Text) (s : σ) : Answer σ Outcome :=
  match E.process source s with
  | (.error r, s) => E.compilerRaised r s
  | (.ok false, s) =>
    match E.error s with
    | (.error r, s) => E.compilerRaised r s
    | (.ok reason, s) => (.ok (.rejected reason), E.note (.compileFailed reason) s)
  | (.ok true, s) =>
    match E.output s with
    | (.error r, s) => E.compilerRaised r s
    | (.ok code, s) => E.run code s

namespace Interaction

def append (i : Interaction σ) (text : Text) (style : Style) : Interaction σ :=
  { i with transcript := i.transcript.append text style }

def execute (source : Text) (i : Interaction σ) : Answer (Interaction σ) Outcome :=
  let (answer, engine) := E.execute source i.engine
  (answer, { i with engine := engine })

def executeShown (source : Text) (i : Interaction σ) :
    Answer (Interaction σ) (Option Outcome) :=
  match i.execute E source with
  | (.ok outcome, i) => (.ok (some outcome), i.append outcome.message outcome.style)
  | (.error r, i) => (.error r, i)

def submit (text : Text) (i : Interaction σ) : Answer (Interaction σ) (Option Outcome) :=
  let line := text.strip
  if line.isEmpty then (.ok none, i)
  else
    let i := { i with history := i.history.record line }
    (i.append (inputMark ++ line) .input).executeShown E line

/-- Runs a whole program in a session that starts over, with nothing shown before it. -/
def runFresh (text : Text) (i : Interaction σ) : Answer (Interaction σ) (Option Outcome) :=
  let source := text.strip
  if source.isEmpty then (.ok none, i)
  else
    let engine := E.note .reset (E.reset i.engine)
    executeShown E source { i with transcript := i.transcript.clear, engine := engine }

def older (i : Interaction σ) : Option Text × Interaction σ :=
  let history := i.history.older
  (history.selected, { i with history := history })

def newer (i : Interaction σ) : Option Text × Interaction σ :=
  let history := i.history.newer
  (history.selected, { i with history := history })

end Interaction

end

end Toplevel
