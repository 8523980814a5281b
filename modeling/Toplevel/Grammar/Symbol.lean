import Toplevel.Text.Position

/-!
# Symbols of the grammar

The terminals are the kinds of tokens, listed in the order in which they are tried at a place of
the source; a keyword comes before the names, so that it wins over the name it is spelled like.
-/

namespace Toplevel

inductive Terminal where
  | number
  | string
  | kwFun
  | kwLet
  | kwRec
  | kwIn
  | kwIf
  | kwThen
  | kwElse
  | kwMatch
  | kwWith
  | kwRef
  | kwTrue
  | kwFalse
  | name
  | tag
  | compareOp
  | arrow
  | becomes
  | productOp
  | bang
  | caret
  | dot
  | equals
  | leftBrace
  | leftParen
  | minus
  | plus
  | rightBrace
  | rightParen
  | semicolon
  | bar
deriving DecidableEq

/-- The phrases of the language, from whole programs down to atoms. -/
inductive Nonterminal where
  | program
  | statements
  | moreStatements
  | statement
  | expr
  | arms
  | arm
  | pattern
  | assign
  | compare
  | concat
  | sum
  | product
  | unary
  | call
  | tagged
  | simple
  | atom
  | moreFields
  | field
deriving DecidableEq

inductive Symbol where
  | terminal (t : Terminal)
  | nonterminal (n : Nonterminal)
deriving DecidableEq

namespace Terminal

/-- All kinds of tokens in the order in which they are tried. -/
def all : List Terminal :=
  [number, string, kwFun, kwLet, kwRec, kwIn, kwIf, kwThen, kwElse, kwMatch, kwWith, kwRef, kwTrue,
    kwFalse, name, tag, compareOp, arrow, becomes, productOp, bang, caret, dot, equals, leftBrace,
    leftParen, minus, plus, rightBrace, rightParen, semicolon, bar]

theorem mem_all (t : Terminal) : t ∈ all := by
  cases t <;> decide

def keyword? : Terminal → Option Text
  | kwFun => some ['f', 'u', 'n']
  | kwLet => some ['l', 'e', 't']
  | kwRec => some ['r', 'e', 'c']
  | kwIn => some ['i', 'n']
  | kwIf => some ['i', 'f']
  | kwThen => some ['t', 'h', 'e', 'n']
  | kwElse => some ['e', 'l', 's', 'e']
  | kwMatch => some ['m', 'a', 't', 'c', 'h']
  | kwWith => some ['w', 'i', 't', 'h']
  | kwRef => some ['r', 'e', 'f']
  | kwTrue => some ['t', 'r', 'u', 'e']
  | kwFalse => some ['f', 'a', 'l', 's', 'e']
  | _ => none

/-- The spellings of an operator or a mark, a longer one before a shorter one. -/
def marks : Terminal → List Text
  | compareOp => [['<', '='], ['>', '='], ['=', '='], ['!', '='], ['<'], ['>']]
  | arrow => [['-', '>']]
  | becomes => [[':', '=']]
  | productOp => [['*'], ['/'], ['%']]
  | bang => [['!']]
  | caret => [['^']]
  | dot => [['.']]
  | equals => [['=']]
  | leftBrace => [['{']]
  | leftParen => [['(']]
  | minus => [['-']]
  | plus => [['+']]
  | rightBrace => [['}']]
  | rightParen => [[')']]
  | semicolon => [[';']]
  | bar => [['|']]
  | _ => []

/-- What an outline calls a token of this kind, `none` if an outline leaves such tokens out. -/
def label? : Terminal → Option Text
  | number => some "NUMBER"
  | string => some "ESCAPED_STRING"
  | name => some "NAME"
  | tag => some "TAG"
  | compareOp => some "CMP_OP"
  | productOp => some "MUL_OP"
  | caret => some "CONCAT_OP"
  | minus => some "MINUS"
  | plus => some "PLUS"
  | _ => none

end Terminal

namespace Nonterminal

def all : List Nonterminal :=
  [program, statements, moreStatements, statement, expr, arms, arm, pattern, assign, compare,
    concat, sum, product, unary, call, tagged, simple, atom, moreFields, field]

theorem mem_all (n : Nonterminal) : n ∈ all := by
  cases n <;> decide

end Nonterminal

/-- A token of a source: its kind, its text and where it starts. -/
structure Token where
  kind : Terminal
  text : Text
  offset : Nat
  position : Position
deriving DecidableEq

end Toplevel
