import Toplevel.Text.Quoted

/-!
# Paths

A path is its parts and the slashes in front of them. Empty parts and parts that are a single point
are dropped when a path is read; two points are kept, because what they mean depends on the files.
A path without parts is written as a point.
-/

namespace Toplevel

structure Path where
  root : Text
  parts : List Text
deriving DecidableEq

inductive PathError where
  | noHome
  | embeddedNull
  | surrogates (c : CodePoint) (first last : Nat)
deriving DecidableEq

namespace PathError

def kind : PathError → Text
  | noHome => "RuntimeError"
  | embeddedNull => "ValueError"
  | surrogates .. => "UnicodeEncodeError"

def message : PathError → Text
  | noHome => "Could not determine home directory."
  | embeddedNull => "embedded null byte"
  | surrogates c first last =>
    Text.concat
      ["'utf-8' codec can't encode character",
        if first = last then Text.concat [" '", c.numberEscape, "' in position ", Text.ofNat first]
        else Text.concat ["s in position ", Text.ofNat first, "-", Text.ofNat last],
        ": surrogates not allowed"]

end PathError

/-- The number of bytes of a code point in a path; a low surrogate from the second quarter on
stands for a single byte. -/
def CodePoint.pathBytes (c : CodePoint) : Nat :=
  if c.val < 0x80 then 1
  else if c.val < 0x800 then 2
  else if 0xDC80 ≤ c.val && c.val ≤ 0xDCFF then 1
  else if c.val < 0x10000 then 3
  else 4

namespace Path

def ofText (t : Text) : Path where
  root :=
    match (t.takeWhile (· = ('/' : CodePoint))).length with
    | 0 => []
    | 2 => "//"
    | _ => "/"
  parts := (Text.splitOn '/' t).filter fun p => p ≠ [] && p ≠ ("." : Text)

def text (p : Path) : Text :=
  if p.root.isEmpty && p.parts.isEmpty then "."
  else Text.concat [p.root, Text.join "/" p.parts]

/-- Checks a text from the offset `i` on for surrogates that stand for no byte. -/
def checkFrom (i : Nat) : Text → Except PathError Unit
  | [] => .ok ()
  | c :: t =>
    if c.isSurrogate && c.pathBytes ≠ 1 then
      .error (.surrogates c i (i + (t.takeWhile CodePoint.isSurrogate).length))
    else checkFrom (i + 1) t

/-- Checks that a text can be handed to the system as a name. -/
def checkName (t : Text) : Except PathError Unit := do
  checkFrom 0 t
  if t.any (·.val = 0) then throw .embeddedNull

def check (p : Path) : Except PathError Unit := checkName p.text

/-- The path with the parts `parts` from a home directory on. -/
def ofHome (home : Text) (parts : List Text) : Path :=
  let h := ofText home
  ⟨h.root, h.parts ++ parts⟩

/-- Replaces a first part that starts with a tilde by a home directory: one's own, or that of the
user who is named behind the tilde. -/
def expandHome (home : Text) (homeOf : Text → Option Text) (p : Path) : Except PathError Path :=
  match p.root, p.parts with
  | [], user :: parts =>
    if user.head? ≠ some ('~' : CodePoint) then .ok p
    else if user = ("~" : Text) then .ok (ofHome home parts)
    else do
      checkName (user.drop 1)
      match homeOf (user.drop 1) with
      | some h => return ofHome h parts
      | none => throw .noHome
  | _, _ => .ok p

end Path

end Toplevel
