import Toplevel.Grammar.Symbol

/-!
# The rules of the language

Each rule rewrites a phrase to a sequence of symbols. What may be left out or repeated is spelled
out: a rule for each way to write it, and a helper phrase of one or more repetitions. The forms
that extend as far to the right as they can (`fun`, `let`, `if`, `match`) stand at the top, so the
body of a match arm has to put them in parentheses.
-/

namespace Toplevel

inductive Production where
  | program
  | statementsMoreEnd
  | statementsMore
  | statementsEnd
  | statementsOne
  | moreStatementsOne
  | moreStatementsNext
  | define
  | defineRec
  | statementExpr
  | func
  | letIn
  | ifElse
  | matchWith
  | exprAssign
  | armsOne
  | armsNext
  | arm
  | tagPattern
  | anyPattern
  | assignCompare
  | assign
  | compareConcat
  | compare
  | concatSum
  | concat
  | sumProduct
  | plus
  | minus
  | productUnary
  | product
  | unaryCall
  | neg
  | deref
  | callSimple
  | apply
  | applyTagged
  | callTagged
  | newRef
  | taggedSimple
  | taggedTagged
  | simpleAtom
  | fieldAccess
  | number
  | string
  | trueLit
  | falseLit
  | var
  | recordEmpty
  | recordOne
  | recordOneEnd
  | recordMore
  | recordMoreEnd
  | updateOne
  | updateOneEnd
  | updateMore
  | updateMoreEnd
  | parens
  | moreFieldsOne
  | moreFieldsNext
  | field
deriving DecidableEq

namespace Production

open Toplevel.Symbol Terminal Nonterminal

def all : List Production :=
  [program, statementsMoreEnd, statementsMore, statementsEnd, statementsOne, moreStatementsOne,
    moreStatementsNext, define, defineRec, statementExpr, func, letIn, ifElse, matchWith,
    exprAssign, armsOne, armsNext, arm, tagPattern, anyPattern, assignCompare, assign,
    compareConcat, compare, concatSum, concat, sumProduct, plus, minus, productUnary, product,
    unaryCall, neg, deref, callSimple, apply, applyTagged, callTagged, newRef, taggedSimple,
    taggedTagged, simpleAtom, fieldAccess, number, string, trueLit, falseLit, var, recordEmpty,
    recordOne, recordOneEnd, recordMore, recordMoreEnd, updateOne, updateOneEnd, updateMore,
    updateMoreEnd, parens, moreFieldsOne, moreFieldsNext, field]

theorem mem_all (p : Production) : p ∈ all := by
  cases p <;> decide

def lhs : Production → Nonterminal
  | program => .program
  | statementsMoreEnd | statementsMore | statementsEnd | statementsOne => .statements
  | moreStatementsOne | moreStatementsNext => .moreStatements
  | define | defineRec | statementExpr => .statement
  | func | letIn | ifElse | matchWith | exprAssign => .expr
  | armsOne | armsNext => .arms
  | arm => .arm
  | tagPattern | anyPattern => .pattern
  | assignCompare | assign => .assign
  | compareConcat | compare => .compare
  | concatSum | concat => .concat
  | sumProduct | plus | minus => .sum
  | productUnary | product => .product
  | unaryCall | neg | deref => .unary
  | callSimple | apply | applyTagged | callTagged | newRef => .call
  | taggedSimple | taggedTagged => .tagged
  | simpleAtom | fieldAccess => .simple
  | number | string | trueLit | falseLit | var | recordEmpty | recordOne | recordOneEnd | recordMore
  | recordMoreEnd | updateOne | updateOneEnd | updateMore | updateMoreEnd | parens => .atom
  | moreFieldsOne | moreFieldsNext => .moreFields
  | field => .field

/-- The symbols that a rule writes in its place. -/
def rhs : Production → List Symbol
  | program => [nonterminal statements]
  | statementsMoreEnd =>
    [nonterminal statement, nonterminal moreStatements, terminal semicolon]
  | statementsMore => [nonterminal statement, nonterminal moreStatements]
  | statementsEnd => [nonterminal statement, terminal semicolon]
  | statementsOne => [nonterminal statement]
  | moreStatementsOne => [terminal semicolon, nonterminal statement]
  | moreStatementsNext =>
    [nonterminal moreStatements, terminal semicolon, nonterminal statement]
  | define => [terminal kwLet, terminal name, terminal equals, nonterminal expr]
  | defineRec => [terminal kwLet, terminal kwRec, terminal name, terminal equals, nonterminal expr]
  | statementExpr => [nonterminal expr]
  | func => [terminal kwFun, terminal name, terminal arrow, nonterminal expr]
  | letIn =>
    [terminal kwLet, terminal name, terminal equals, nonterminal expr, terminal kwIn,
      nonterminal expr]
  | ifElse =>
    [terminal kwIf, nonterminal expr, terminal kwThen, nonterminal expr, terminal kwElse,
      nonterminal expr]
  | matchWith => [terminal kwMatch, nonterminal expr, terminal kwWith, nonterminal arms]
  | exprAssign => [nonterminal .assign]
  | armsOne => [nonterminal .arm]
  | armsNext => [nonterminal arms, nonterminal .arm]
  | arm => [terminal bar, nonterminal pattern, terminal arrow, nonterminal .assign]
  | tagPattern => [terminal tag, terminal name]
  | anyPattern => [terminal name]
  | assignCompare => [nonterminal .compare]
  | assign => [nonterminal .compare, terminal becomes, nonterminal .compare]
  | compareConcat => [nonterminal .concat]
  | compare => [nonterminal .concat, terminal compareOp, nonterminal .concat]
  | concatSum => [nonterminal sum]
  | concat => [nonterminal sum, terminal caret, nonterminal .concat]
  | sumProduct => [nonterminal .product]
  | plus => [nonterminal sum, terminal .plus, nonterminal .product]
  | minus => [nonterminal sum, terminal .minus, nonterminal .product]
  | productUnary => [nonterminal unary]
  | product => [nonterminal .product, terminal productOp, nonterminal unary]
  | unaryCall => [nonterminal call]
  | neg => [terminal .minus, nonterminal unary]
  | deref => [terminal bang, nonterminal unary]
  | callSimple => [nonterminal simple]
  | apply => [nonterminal call, nonterminal simple]
  | applyTagged => [nonterminal call, nonterminal tagged]
  | callTagged => [nonterminal tagged]
  | newRef => [terminal kwRef, nonterminal simple]
  | taggedSimple => [terminal tag, nonterminal simple]
  | taggedTagged => [terminal tag, nonterminal tagged]
  | simpleAtom => [nonterminal atom]
  | fieldAccess => [nonterminal simple, terminal dot, terminal name]
  | number => [terminal .number]
  | string => [terminal .string]
  | trueLit => [terminal kwTrue]
  | falseLit => [terminal kwFalse]
  | var => [terminal name]
  | recordEmpty => [terminal leftBrace, terminal rightBrace]
  | recordOne => [terminal leftBrace, nonterminal .field, terminal rightBrace]
  | recordOneEnd =>
    [terminal leftBrace, nonterminal .field, terminal semicolon, terminal rightBrace]
  | recordMore =>
    [terminal leftBrace, nonterminal .field, nonterminal moreFields, terminal rightBrace]
  | recordMoreEnd =>
    [terminal leftBrace, nonterminal .field, nonterminal moreFields, terminal semicolon,
      terminal rightBrace]
  | updateOne =>
    [terminal leftBrace, nonterminal simple, terminal bar, nonterminal .field,
      terminal rightBrace]
  | updateOneEnd =>
    [terminal leftBrace, nonterminal simple, terminal bar, nonterminal .field,
      terminal semicolon, terminal rightBrace]
  | updateMore =>
    [terminal leftBrace, nonterminal simple, terminal bar, nonterminal .field,
      nonterminal moreFields, terminal rightBrace]
  | updateMoreEnd =>
    [terminal leftBrace, nonterminal simple, terminal bar, nonterminal .field,
      nonterminal moreFields, terminal semicolon, terminal rightBrace]
  | parens => [terminal leftParen, nonterminal expr, terminal rightParen]
  | moreFieldsOne => [terminal semicolon, nonterminal .field]
  | moreFieldsNext => [nonterminal moreFields, terminal semicolon, nonterminal .field]
  | field => [terminal name, terminal equals, nonterminal expr]

theorem rhs_ne_nil (p : Production) : p.rhs ≠ [] := by
  cases p <;> simp [rhs]

/-- What an outline calls a phrase built by this rule, `none` if it shows the parts in its
place. -/
def label? : Production → Option Text
  | program => some "start"
  | define => some "let_def"
  | defineRec => some "let_rec_def"
  | func => some "func"
  | letIn => some "let_in"
  | ifElse => some "if_expr"
  | matchWith => some "match_expr"
  | arm => some "arm"
  | tagPattern => some "tag_pattern"
  | anyPattern => some "any_pattern"
  | assign => some "assign"
  | compare | concat | plus | minus | product => some "binary_op"
  | neg => some "neg"
  | deref => some "deref"
  | apply | applyTagged => some "apply"
  | newRef => some "new_ref"
  | taggedSimple | taggedTagged => some "tagged"
  | fieldAccess => some "field_access"
  | number => some "number"
  | string => some "string"
  | trueLit => some "true"
  | falseLit => some "false"
  | var => some "var"
  | recordEmpty | recordOne | recordOneEnd | recordMore | recordMoreEnd => some "record"
  | updateOne | updateOneEnd | updateMore | updateMoreEnd => some "record_update"
  | field => some "field_def"
  | _ => none

end Production

end Toplevel
