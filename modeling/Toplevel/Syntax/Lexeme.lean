import Toplevel.Grammar.Symbol
import Toplevel.Number.Notation

/-!
# Lexemes

How each kind of token is spelled. `Terminal.lexeme? t s` is the token of kind `t` at the front of
`s` and what follows it. A keyword is a whole word, so a longer word is not read as a keyword and
a rest. Blanks are runs of white space and comments; a comment ends at the first `*)`.
-/

namespace Toplevel

/-- A piece read from the front of a text, and what follows it. -/
abbrev Lexeme := Text × Text

namespace Lexeme

def prepend (cs : Text) (x : Lexeme) : Lexeme := (cs ++ x.1, x.2)

/-- A small letter or underscore and the word characters after it. -/
def word? : Text → Option Lexeme
  | [] => none
  | c :: t =>
    if c.isLower || c = ('_' : CodePoint) then
      some (c :: t.takeWhile CodePoint.isWord, t.dropWhile CodePoint.isWord)
    else none

/-- A backquote and at least one word character. -/
def tag? : Text → Option Lexeme
  | [] => none
  | c :: t =>
    if c = ('`' : CodePoint) && (t.head?.any CodePoint.isWord) then
      some (c :: t.takeWhile CodePoint.isWord, t.dropWhile CodePoint.isWord)
    else none

def number? (t : Text) : Option Lexeme :=
  (Decimal.scan? t).map fun (_, rest) => (t.take (t.length - rest.length), rest)

/-- The rest of a string literal, its closing quote included. A backslash takes the code point
after it along; a line feed may not occur. -/
def stringRest? : Text → Option Lexeme
  | [] => none
  | c :: t =>
    if c = ('"' : CodePoint) then some ([c], t)
    else if c = ('\n' : CodePoint) then none
    else if c = ('\\' : CodePoint) then
      match t with
      | [] => none
      | d :: t => if d = ('\n' : CodePoint) then none else (stringRest? t).map (prepend [c, d])
    else (stringRest? t).map (prepend [c])

def string? : Text → Option Lexeme
  | [] => none
  | c :: t => if c = ('"' : CodePoint) then (stringRest? t).map (prepend [c]) else none

/-- The first of some spellings that stands at the front. -/
def oneOf? (spellings : List Text) (t : Text) : Option Lexeme :=
  spellings.findSome? fun s => if s.isPrefixOf t then some (s, t.drop s.length) else none

/-- The rest of a comment, up to and with the first `*)`. -/
def commentRest? : Text → Option Lexeme
  | [] => none
  | c :: t =>
    if c = ('*' : CodePoint) && t.head? = some (')' : CodePoint) then some (c :: t.take 1, t.drop 1)
    else (commentRest? t).map (prepend [c])

def comment? (t : Text) : Option Lexeme :=
  if Text.ofChars ['(', '*'] |>.isPrefixOf t then
    (commentRest? (t.drop 2)).map (prepend (t.take 2))
  else none

/-- The white space between tokens: of ASCII alone, without the vertical tab. -/
def isBlank (c : CodePoint) : Bool :=
  c.val = 0x20 || c.val = 0x09 || c.val = 0x0A || c.val = 0x0C || c.val = 0x0D

def blank? (t : Text) : Option Lexeme :=
  if t.head?.any isBlank then some (t.takeWhile isBlank, t.dropWhile isBlank) else comment? t

end Lexeme

def Terminal.lexeme? (t : Terminal) (s : Text) : Option Lexeme :=
  match t with
  | .number => Lexeme.number? s
  | .string => Lexeme.string? s
  | .name => Lexeme.word? s
  | .tag => Lexeme.tag? s
  | t =>
    match t.keyword? with
    | some w => (Lexeme.word? s).filter fun x => x.1 = w
    | none => Lexeme.oneOf? t.marks s

end Toplevel
