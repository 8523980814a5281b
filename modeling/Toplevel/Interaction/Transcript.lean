import Toplevel.Text.Quoted

/-!
# Transcripts

What an interaction shows: lines of text, each in a style, and now and then a clearing of all that
has been shown. `Transcript.lines` are the lines that still stand. A line may hold line feeds.

On a screen a line is written physical line by physical line, between the code that sets its style
and the code that ends it; a screen without colours has neither, and cannot be cleared.
-/

namespace Toplevel

inductive Style where
  | input
  | success
  | error
deriving DecidableEq

namespace Style

def all : List Style := [input, success, error]

def name : Style → Text
  | input => "input"
  | success => "success"
  | error => "error"

def ofName? (name : Text) : Option Style := all.find? fun s => s.name = name

theorem ofName?_name (s : Style) : ofName? s.name = some s := by
  cases s <;> decide

/-- What a name that is no style is answered with; `shown` is the name as it was given. -/
def unknownMessage (shown : Text) : Text := Text.concat [shown, " is not a valid Style"]

/-- The terminal's numbers for a style: bold cyan, green, and bold white on dark red. -/
def codes : Style → Text
  | input => "1;36"
  | success => "32"
  | error => "1;37;48;5;88"

end Style

structure Line where
  text : Text
  style : Style
deriving DecidableEq

inductive Event where
  | line (l : Line)
  | cleared
deriving DecidableEq

/-- What has been shown and cleared, oldest first. -/
structure Transcript where
  events : List Event

namespace Transcript

def empty : Transcript := ⟨[]⟩

def append (t : Transcript) (text : Text) (style : Style) : Transcript :=
  ⟨t.events ++ [.line ⟨text, style⟩]⟩

def appendAll (t : Transcript) (texts : List Text) (style : Style) : Transcript :=
  texts.foldl (fun t text => t.append text style) t

def clear (t : Transcript) : Transcript := ⟨t.events ++ [.cleared]⟩

def addEvent (lines : List Line) : Event → List Line
  | .line l => lines ++ [l]
  | .cleared => []

/-- The lines shown since the last clearing. -/
def lines (t : Transcript) : List Line := t.events.foldl addEvent []

@[simp]
theorem lines_append (t : Transcript) (text : Text) (style : Style) :
    (t.append text style).lines = t.lines ++ [⟨text, style⟩] := by
  simp [append, lines, addEvent]

@[simp]
theorem lines_clear (t : Transcript) : t.clear.lines = [] := by
  simp [clear, lines, addEvent]

def texts (t : Transcript) (style : Option Style) : List Text :=
  (t.lines.filter fun l => style.all (l.style = ·)).map Line.text

end Transcript

/-! ### Screens -/

structure Screen where
  coloured : Bool

namespace Screen

def escape : CodePoint := CodePoint.ofNat 0x1B

/-- The bell, the backspace and the codes that move the paper are not written. -/
def isDropped (c : CodePoint) : Bool :=
  c.val = 7 || c.val = 8 || c.val = 11 || c.val = 12 || c.val = 13

def styled (s : Screen) (style : Style) (t : Text) : Text :=
  if !s.coloured || t.isEmpty then Text.concat [t, "\n"]
  else Text.concat [[escape], "[", style.codes, "m", t, [escape], "[0m\n"]

def render (s : Screen) : Event → Text
  | .line l =>
    let physical := Text.splitOn '\n' (l.text.filter fun c => !isDropped c)
    (physical.map (s.styled l.style)).flatten
  | .cleared =>
    if s.coloured then Text.concat [[escape], "[2J", [escape], "[H"] else []

def renderAll (s : Screen) (events : List Event) : Text := (events.map s.render).flatten

end Screen

end Toplevel
