import Toplevel.Text.Printable

/-!
# Quoted texts

Three written forms of a text. `quoted` stands between single quotes, or between double quotes
where the text holds single quotes only, and shows what is not printable by number; it is the form
of strings in generated code and of names in messages. `jsonQuoted` stands between double quotes
and escapes no more than it must; it is how a string value is displayed. `unescape?` reads what
stands between the quotes of a string literal in a program.
-/

namespace Toplevel

namespace CodePoint

/-- A code point by its number, in the shortest of the forms with two, four and eight digits. -/
def numberEscape (c : CodePoint) : Text :=
  if c.val < 0x100 then '\\' :: 'x' :: Text.hex 2 c.val
  else if c.val < 0x10000 then '\\' :: 'u' :: Text.hex 4 c.val
  else '\\' :: 'U' :: Text.hex 8 c.val

/-- A code point as it is written between the quotes `quote`. -/
def escapeWithin (quote c : CodePoint) : Text :=
  if c = quote || c = ('\\' : CodePoint) then ['\\', c]
  else if c = ('\n' : CodePoint) then ['\\', 'n']
  else if c = ('\r' : CodePoint) then ['\\', 'r']
  else if c = ('\t' : CodePoint) then ['\\', 't']
  else if c.isPrintable then [c]
  else c.numberEscape

/-- A code point as it is written in a displayed string: the quote, the backslash and the
control codes below the space are escaped. -/
def jsonEscape (c : CodePoint) : Text :=
  if c = ('"' : CodePoint) || c = ('\\' : CodePoint) then ['\\', c]
  else if c.val = 0x0A then ['\\', 'n']
  else if c.val = 0x0D then ['\\', 'r']
  else if c.val = 0x09 then ['\\', 't']
  else if c.val = 0x08 then ['\\', 'b']
  else if c.val = 0x0C then ['\\', 'f']
  else if c.val < 0x20 then '\\' :: 'u' :: Text.hex 4 c.val
  else [c]

end CodePoint

namespace Text

/-- The quote that surrounds a text: single, unless the text has single quotes and no double. -/
def quoteFor (t : Text) : CodePoint :=
  if t.contains ('\'' : CodePoint) && !t.contains ('"' : CodePoint) then '"' else '\''

def between (quote : CodePoint) (t : Text) : Text := quote :: (t ++ [quote])

def quoted (t : Text) : Text :=
  between (quoteFor t) (t.flatMap (CodePoint.escapeWithin (quoteFor t)))

def jsonQuoted (t : Text) : Text := between '"' (t.flatMap CodePoint.jsonEscape)

/-- What a backslash and one more code point stand for, `u` apart. -/
def simpleEscape? (c : CodePoint) : Option CodePoint :=
  if c = ('"' : CodePoint) || c = ('\\' : CodePoint) || c = ('/' : CodePoint) then some c
  else if c = ('b' : CodePoint) then some (CodePoint.ofNat 0x08)
  else if c = ('f' : CodePoint) then some (CodePoint.ofNat 0x0C)
  else if c = ('n' : CodePoint) then some '\n'
  else if c = ('r' : CodePoint) then some '\r'
  else if c = ('t' : CodePoint) then some '\t'
  else none

def fourHex? (a b c d : CodePoint) : Option Nat := do
  let a ← a.hexValue?
  let b ← b.hexValue?
  let c ← c.hexValue?
  let d ← d.hexValue?
  return ((a * 16 + b) * 16 + c) * 16 + d

/-- The code point that the two halves of a surrogate pair denote. -/
def joinSurrogates (high low : Nat) : CodePoint :=
  CodePoint.ofNat (0x10000 + (high - 0xD800) * 0x400 + (low - 0xDC00))

/-- What the inside of a string literal denotes, piece by piece; a code point written as a number
is marked. `none` if there is a bad escape. -/
def unescapePieces? : Text → Option (List (CodePoint × Bool))
  | [] => some []
  | c :: rest =>
    if c = ('\\' : CodePoint) then
      match rest with
      | [] => none
      | e :: rest =>
        if e = ('u' : CodePoint) then
          match rest with
          | a :: b :: c :: d :: rest => do
            let n ← fourHex? a b c d
            return (CodePoint.ofNat n, true) :: (← unescapePieces? rest)
          | _ => none
        else do
          let c ← simpleEscape? e
          return (c, false) :: (← unescapePieces? rest)
    else do
      return (c, false) :: (← unescapePieces? rest)

/-- Joins each high surrogate written as a number with a low one written so right after it. -/
def joinPieces : List (CodePoint × Bool) → Text
  | [] => []
  | [p] => [p.1]
  | p :: q :: rest =>
    if p.2 && q.2 && p.1.isHighSurrogate && q.1.isLowSurrogate then
      joinSurrogates p.1.val q.1.val :: joinPieces rest
    else p.1 :: joinPieces (q :: rest)

/-- The text that the inside of a string literal denotes, `none` if it has a bad escape. -/
def unescape? (t : Text) : Option Text := (unescapePieces? t).map joinPieces

end Text

end Toplevel
