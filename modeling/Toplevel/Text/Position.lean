import Toplevel.Text.Basic

/-!
# Places in a text

A place is a line and a column, both counted from one. Only the line feed ends a line, and a
column counts code points. The caret below a quoted line is moved by `width` blanks, in which a
tab goes to the next multiple of eight.
-/

namespace Toplevel

structure Position where
  line : Nat
  column : Nat
deriving DecidableEq

namespace Position

def start : Position := ⟨1, 1⟩

/-- The place right after `c`, if `c` stands at `p`. -/
def after (p : Position) (c : CodePoint) : Position :=
  if c = ('\n' : CodePoint) then ⟨p.line + 1, 1⟩ else ⟨p.line, p.column + 1⟩

/-- The place right after `t`, if `t` starts at `p`. -/
def afterText (p : Position) (t : Text) : Position := t.foldl after p

theorem afterText_append (p : Position) (s t : Text) :
    p.afterText (s ++ t) = (p.afterText s).afterText t :=
  List.foldl_append

end Position

namespace Text

/-- How many blanks stand for `t` when tabs are widened, at the column `column` of a line. -/
def widthFrom : Nat → Text → Nat
  | _, [] => 0
  | column, c :: t =>
    if c = ('\t' : CodePoint) then
      (8 - column % 8) + widthFrom (column + (8 - column % 8)) t
    else if c = ('\n' : CodePoint) || c = ('\r' : CodePoint) then 1 + widthFrom 0 t
    else 1 + widthFrom (column + 1) t

def width (t : Text) : Nat := widthFrom 0 t

end Text

end Toplevel
