import Toplevel.CommandLine.Program
import Toplevel.Files.Decoding

/-!
# The program as it runs

Reads the arguments, the files and the typed lines, and writes what the interaction shows. What
there is to do and to show is decided elsewhere.
-/

namespace Toplevel

/-- What the number of a system error says about a file. -/
def FileError.ofCode : UInt32 → FileError
  | 20 => .notDirectory
  | 21 => .isDirectory
  | 36 => .nameTooLong
  | _ => .notFound

def FileError.ofIO : IO.Error → FileError
  | .inappropriateType _ code _ => .ofCode code
  | .invalidArgument _ code _ => .ofCode code
  | .otherError code _ => .ofCode code
  | _ => .notFound

/-- The text of a file, from its bytes. -/
def ReadError.ofBytes (bytes : ByteArray) : Except ReadError Text :=
  match String.fromUTF8? bytes with
  | some s => .ok (Text.ofString s)
  | none =>
    let failure := Decoding.failure? (bytes.toList.map UInt8.toNat)
    .error (.notText ((failure.map Decoding.Failure.message).getD []))

def readPath (p : Path) : IO (Except ReadError Text) := do
  try
    return ReadError.ofBytes (← IO.FS.readBinFile p.text.toString)
  catch e =>
    return .error (.system (.ofIO e))

/-- The home directories, and no file. -/
def readHomes : IO Files := do
  let home := Text.ofString ((← IO.getEnv "HOME").getD "/")
  let table ← try IO.FS.readFile "/etc/passwd" catch _ => pure ""
  let homes := homesOfTable (Text.ofString table)
  return ⟨home, fun user => homes.lookup user, fun _ => .error (.system .notFound)⟩

/-- The file system as far as a path needs it. -/
def Files.at (files : Files) : Option Path → IO Files
  | none => return files
  | some p => do
    let found ← readPath p
    return { files with read := fun _ => found }

/-- The file that a typed line asks for, if it is a command that loads one. -/
def loadedPath? (files : Files) (line : Text) : Option Path :=
  match Command.ofLine? line.strip with
  | some (.load path) => (files.locate path).toOption
  | _ => none

/-- Shows what is new in `j` since `i`. -/
def writeNews (screen : Screen) (level : Level) (i j : Interaction EngineState) : IO Unit := do
  let events := j.transcript.events.drop i.transcript.events.length
  let records := j.engine.log.take (j.engine.log.length - i.engine.log.length)
  IO.eprint (logText level records).toString
  IO.print (screen.renderAll events).toString
  (← IO.getStdout).flush

/-- Reads lines and runs them until one leaves the prompt or there are no more. -/
partial def readTyped (screen : Screen) (level : Level) (files : Files)
    (i : Interaction EngineState) : IO UInt32 := do
  let stdin ← IO.getStdin
  if ← stdin.isTty then
    IO.print inputMark.toString
    (← IO.getStdout).flush
  let typed ← stdin.getLine
  if typed.isEmpty then return 0
  let line := (Text.cut '\n' (Text.ofString typed)).1
  if isExit line then return 0
  let found ← files.at (loadedPath? files line)
  match i.runLine Engine.standard found line with
  | (.ok (), j) =>
    writeNews screen level i j
    readTyped screen level files j
  | (.error (.fault f), _) =>
    IO.eprintln f.description.toString
    return 1
  | (.error .interrupt, _) => return 130

def writeReport (r : Report) : IO UInt32 := do
  IO.print r.out.toString
  IO.eprint r.err.toString
  return r.exit.toUInt32

def runProgram (arguments : List Text) : IO UInt32 := do
  let files ← readHomes
  let path? := ((Options.ofArguments arguments).toOption).bind Options.path?
  match Launch.ofArguments (← files.at path?) arguments with
  | .error a =>
    IO.eprintln (Text.concat [a.kind, ": ", a.message]).toString
    return 1
  | .ok (.finished r) => writeReport r
  | .ok (.interactive i level plain) => do
    let screen : Screen := ⟨(← (← IO.getStdout).isTty) && !plain⟩
    writeNews screen level (.start .empty) i
    IO.print banner.toString
    let j := i.noteStart Engine.standard
    writeNews screen level i j
    readTyped screen level files j

end Toplevel

def main (arguments : List String) : IO UInt32 :=
  Toplevel.runProgram (arguments.map Toplevel.Text.ofString)
