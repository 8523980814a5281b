import Toplevel.Interaction.Command

/-!
# The prompt

At the prompt lines are typed one after another until one of them leaves, or until there are no
more. A line may be interrupted while it is typed, which does nothing. An interruption while a
submitted line runs leaves an error line.

`EditBuffer` is the line being typed: two keys put a command of the history in its place, with the
cursor at the end.
-/

namespace Toplevel

/-- A line typed at the prompt, or none if the typing was interrupted. -/
abbrev Typed := Option Text

def exitWords : List Text := ["exit", "quit", ":q"]

/-- Whether a line leaves the prompt. -/
def isExit (line : Text) : Bool := exitWords.contains line.strip.toLower

/-- How the prompt was left: how often it was shown, and what was not read. -/
structure Conversation where
  prompts : Nat
  unread : List Typed
deriving DecidableEq

namespace Interaction

variable {σ κ : Type} (E : Engine σ κ) (files : Files)

/-- Submits a line; an interruption becomes an error line. -/
def submitTyped (line : Text) (i : Interaction σ) : Answer (Interaction σ) Unit :=
  match i.submit E line with
  | (.error .interrupt, i) => (.ok (), i.append "Interrupted" .error)
  | (.error r, i) => (.error r, i)
  | (.ok _, i) => (.ok (), i)

/-- Runs a line that does not leave the prompt. -/
def runLine (line : Text) (i : Interaction σ) : Answer (Interaction σ) Unit :=
  let stripped := line.strip
  if stripped.head? = some (':' : CodePoint) then
    match i.command E files stripped with
    | (.ok false, i) => i.submitTyped E line
    | (.ok true, i) => (.ok (), i)
    | (.error r, i) => (.error r, i)
  else i.submitTyped E line

/-- Reads lines until one leaves the prompt. -/
def readLines : List Typed → Interaction σ → Answer (Interaction σ) Conversation
  | [], i => (.ok ⟨1, []⟩, i)
  | typed :: rest, i =>
    let again := fun (i : Interaction σ) =>
      let (answer, i) := readLines rest i
      (answer.map fun c => { c with prompts := c.prompts + 1 }, i)
    match typed with
    | none => again i
    | some line =>
      if isExit line then (.ok ⟨1, rest⟩, i)
      else
        match i.runLine E files line with
        | (.ok (), i) => again i
        | (.error r, i) => (.error r, i)

def noteStart (i : Interaction σ) : Interaction σ :=
  { i with engine := E.note .initialized i.engine }

/-- A conversation at the prompt from its first line on. -/
def converse (lines : List Typed) (i : Interaction σ) : Answer (Interaction σ) Conversation :=
  (i.noteStart E).readLines E files lines

end Interaction

/-- What is shown on a screen before the first prompt. -/
def banner : Text :=
  Text.concat ["mlrepl v0.1.0\n", "Type :help for help, exit or Ctrl-D to quit.\n\n"]

/-- What a screen shows of a conversation that leads from `i` to `j`. -/
def Screen.conversation {σ : Type} (screen : Screen) (i j : Interaction σ) : Text :=
  banner ++ screen.renderAll (j.transcript.events.drop i.transcript.events.length)

/-- A line being typed, with the cursor inside it or at its end. -/
structure EditBuffer where
  text : Text
  cursor : Nat
  cursor_le : cursor ≤ text.length

namespace EditBuffer

def empty : EditBuffer := ⟨[], 0, by simp⟩

/-- Replaces the text; the cursor stays where it is if it can. -/
def setText (b : EditBuffer) (text : Text) : EditBuffer :=
  ⟨text, min b.cursor text.length, Nat.min_le_right ..⟩

/-- Shows a command of the history, if there is one. -/
def fill (b : EditBuffer) : Option Text → EditBuffer
  | none => b
  | some text => ⟨text, text.length, Nat.le_refl _⟩

end EditBuffer

/-- A key that walks over the history. -/
inductive Arrow where
  | up
  | down
deriving DecidableEq

/-- What a key does to the line being typed. -/
def Interaction.press {σ : Type} (key : Arrow) (i : Interaction σ) (b : EditBuffer) :
    EditBuffer × Interaction σ :=
  let (text, i) :=
    match key with
    | .up => i.older
    | .down => i.newer
  (b.fill text, i)

end Toplevel
