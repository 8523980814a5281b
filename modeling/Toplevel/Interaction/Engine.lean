import Toplevel.Eval.Evaluate
import Toplevel.Interaction.Log
import Toplevel.Interaction.Session

/-!
# Engines

An engine compiles and evaluates on behalf of an interaction. Each of its operations may raise a
fault or be interrupted instead of giving an answer, and leaves its state changed in any case. An
interaction knows no more of an engine than the structure `Engine` says.

`Engine.standard` is the engine of this language: a compiler session and a machine that lives as
long as the engine. Starting the session over leaves the machine as it is.
-/

namespace Toplevel

/-- What an operation may raise instead of answering. -/
inductive Raised where
  | fault (f : Fault)
  | interrupt
deriving DecidableEq

/-- The answer of an operation and the state that it leaves. -/
abbrev Answer (σ α : Type) : Type := Except Raised α × σ

/-- Compiles to code of the type `κ`, with a state of the type `σ`. -/
structure Engine (σ κ : Type) where
  /-- Whether a source compiles. -/
  process : Text → σ → Answer σ Bool
  /-- The code of the last source, if it compiled. -/
  output : σ → Answer σ κ
  /-- What is wrong with the last source, if it did not compile. -/
  error : σ → Answer σ Text
  /-- Forgets all definitions. -/
  reset : σ → σ
  evaluate : κ → σ → Answer σ Value
  /-- The objects that values refer to. -/
  heap : σ → Heap Code
  /-- Takes note of a record. -/
  note : LogRecord → σ → σ

/-- The state of the standard engine; the latest record is first. -/
structure EngineState where
  session : Session
  machine : Machine Code
  log : List LogRecord

namespace EngineState

def empty : EngineState := ⟨.empty, .empty, []⟩

def note (r : LogRecord) (s : EngineState) : EngineState := { s with log := r :: s.log }

def process (source : Text) (s : EngineState) : Answer EngineState Bool :=
  let (compiled, session) := s.session.process source
  let s := { s with session := session }
  match session.error with
  | .ok reason => (.ok compiled, s.note (.rejected reason))
  | .error _ => (.ok compiled, s)

/-- A session is asked only for what it has; another question raises a fault. -/
def ask {α : Type} (answer : Except SessionError α) (s : EngineState) : Answer EngineState α :=
  match answer with
  | .ok a => (.ok a, s)
  | .error e => (.error (.fault (.reported "ValueError" e.message)), s)

/-- Evaluates code, which is written between one more pair of brackets. -/
def evaluate (c : Compiled) (s : EngineState) : Answer EngineState Value :=
  let s := s.note (.evaluating (c.text.length + 2))
  match c.evaluate s.machine with
  | (.ok v, machine) => (.ok v, { s with machine := machine })
  | (.error f, machine) => (.error (.fault f), { s with machine := machine })

end EngineState

def Engine.standard : Engine EngineState Compiled where
  process := EngineState.process
  output := fun s => s.ask s.session.output
  error := fun s => s.ask s.session.error
  reset := fun s => { s with session := .empty }
  evaluate := EngineState.evaluate
  heap := fun s => s.machine.heap
  note := EngineState.note

end Toplevel
