import Toplevel.Files.Tree
import Toplevel.Interaction.Cycle

/-!
# Commands

A line that starts with a colon may be a command: `:help` shows a few lines, and `:load` runs the
program in a file. Any other such line is no command. A file that the system does not hand over
leaves one error line; a path that no file system takes raises a fault, and so does a file that is
no text.
-/

namespace Toplevel

def helpLines : List Text :=
  ["Type an expression or definition to evaluate it, for example",
    "    let inc = fun x -> x + 1",
    "    inc 41",
    "Definitions accumulate from line to line.",
    "Commands:",
    "    :load <file>   Reset the session and run a whole program",
    "    :help          Show this text",
    "    exit, quit, :q Leave the REPL"]

/-- A line that the prompt carries out itself. -/
inductive Command where
  | help
  | load (path : Text)
deriving DecidableEq

/-- The command that a line is; what follows the first blank is its argument. -/
def Command.ofLine? (line : Text) : Option Command :=
  let (name, rest) := Text.cut ' ' line
  if name = (":help" : Text) then some help
  else if name = (":load" : Text) then some (load (rest.getD []).strip)
  else none

/-- The place of a file in a file system. -/
def Files.locate (files : Files) (path : Text) : Except PathError Path := do
  let p ← (Path.ofText path).expandHome files.home files.homeOf
  p.check
  return p

namespace Interaction

variable {σ κ : Type} (E : Engine σ κ) (files : Files)

/-- Runs the program in a file. -/
def load (path : Text) (i : Interaction σ) : Answer (Interaction σ) (Option Outcome) :=
  match files.locate path with
  | .error e => (.error (.fault (.reported e.kind e.message)), i)
  | .ok p =>
    match files.read p with
    | .error (.system e) =>
      (.ok none, i.append (Text.concat ["Cannot read ", p.text, ": ", e.message]) .error)
    | .error (.notText detail) => (.error (.fault (.reported "UnicodeDecodeError" detail)), i)
    | .ok text =>
      { i with engine := E.note (.loading p.text) i.engine }.runFresh E text.unifyLines

def runCommand (c : Command) (i : Interaction σ) : Answer (Interaction σ) Unit :=
  match c with
  | .help => (.ok (), { i with transcript := i.transcript.appendAll helpLines .success })
  | .load path =>
    if path.isEmpty then (.ok (), i.append "Usage: :load <file>" .error)
    else
      let (answer, i) := i.load E files path
      (answer.map fun _ => (), i)

/-- Runs a line if it is a command, and tells whether it was one. -/
def command (line : Text) (i : Interaction σ) : Answer (Interaction σ) Bool :=
  match Command.ofLine? line with
  | some c =>
    let (answer, i) := i.runCommand E files c
    (answer.map fun _ => true, i)
  | none => (.ok false, i)

end Interaction

end Toplevel
