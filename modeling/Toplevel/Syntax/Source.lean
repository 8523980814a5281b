import Toplevel.Grammar.Stack
import Toplevel.Syntax.Lexeme
import Toplevel.Text.Quoted

/-!
# From a source to its derivation

Reading alternates between the automaton and the source: only the kinds of tokens with which the
automaton can do something are tried at a place, so that `let in = 1 in in` is a program and
`fun` after a plus is a name. Where none of them stands, all kinds are tried, to tell a misplaced
token from a character that starts no token at all.

`Tree.ofSource` gives the derivation of a whole source or the first place where it stops being one.
-/

namespace Toplevel

/-- A place of a source and what stands there. -/
structure Cursor where
  offset : Nat
  position : Position
  rest : Text

namespace Cursor

def start (source : Text) : Cursor := ⟨0, Position.start, source⟩

def after (c : Cursor) (x : Lexeme) : Cursor :=
  ⟨c.offset + x.1.length, c.position.afterText x.1, x.2⟩

/-- The place after the blanks; each has at least one code point. -/
def skipBlanks : Nat → Cursor → Cursor
  | 0, c => c
  | fuel + 1, c =>
    match Lexeme.blank? c.rest with
    | none => c
    | some x => skipBlanks fuel (c.after x)

/-- The first kind of token that is admitted and stands here, and the place after it. -/
def token? (admitted : Terminal → Bool) (c : Cursor) : Option (Token × Cursor) :=
  Terminal.all.findSome? fun t =>
    if admitted t then
      (t.lexeme? c.rest).map fun x => (⟨t, x.1, c.offset, c.position⟩, c.after x)
    else none

end Cursor

/-- What stands where a source stops being a program. -/
inductive Problem where
  | character (c : CodePoint)
  | token (text : Text)
  | endOfInput
deriving DecidableEq

/-- The first place where a source stops being a program, with the text around it. -/
structure SyntaxError where
  problem : Problem
  offset : Nat
  position : Position
  before : Text
  after : Text
deriving DecidableEq

namespace SyntaxError

/-- How many code points are shown on each side of the place. -/
def span : Nat := 40

def ofPlace (source : Text) (problem : Problem) (offset : Nat) (position : Position) : SyntaxError where
  problem := problem
  offset := offset
  position := position
  before := ((Text.splitOn '\n' ((source.take offset).drop (offset - span))).getLast?).getD []
  after := (Text.cut '\n' ((source.drop offset).take span)).1

end SyntaxError

namespace Problem

def text : Problem → Text
  | character c => Text.concat ["unexpected character ", Text.quoted [c]]
  | token t => Text.concat ["unexpected token ", Text.quoted t]
  | endOfInput => "unexpected end of input"

end Problem

/-- The opening words of every message about a place. -/
def syntaxErrorAt (p : Position) : Text :=
  Text.concat
    ["Syntax error at line ", Text.ofNat p.line, ", column ", Text.ofNat p.column, ": "]

/-- What is wrong, the line around the place, and a caret below it. -/
def SyntaxError.message (e : SyntaxError) : Text :=
  Text.concat
    [syntaxErrorAt e.position, e.problem.text, "\n", e.before, e.after, "\n",
      List.replicate e.before.width ' ', "^"]

/-- Reads on at a place, with the symbols read so far and the last token. What is missing at the
end of the source is reported at the last token. -/
def readFrom (source : Text) :
    Nat → Cursor → Stack → Option Token → Except SyntaxError (Tree (.nonterminal .program))
  | 0, c, _, _ => .error (.ofPlace source .endOfInput c.offset c.position)
  | fuel + 1, c, stack, last =>
    let c := c.skipBlanks c.rest.length
    match c.rest with
    | [] =>
      match stack.complete? with
      | some tree => .ok tree
      | none =>
        match last with
        | some token => .error (.ofPlace source .endOfInput token.offset token.position)
        | none => .error (.ofPlace source .endOfInput 0 Position.start)
    | ch :: _ =>
      match c.token? stack.state.accepts with
      | some (token, c) =>
        match stack.feed? token with
        | some stack => readFrom source fuel c stack (some token)
        | none => .error (.ofPlace source (.token token.text) token.offset token.position)
      | none =>
        match c.token? fun _ => true with
        | some (token, _) => .error (.ofPlace source (.token token.text) token.offset token.position)
        | none => .error (.ofPlace source (.character ch) c.offset c.position)

/-- The derivation of a source; every step but the last reads a token. -/
def Tree.ofSource (source : Text) : Except SyntaxError (Tree (.nonterminal .program)) :=
  readFrom source (source.length + 1) (Cursor.start source) [] none

end Toplevel
