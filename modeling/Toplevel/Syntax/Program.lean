import Toplevel.Number.Notation
import Toplevel.Syntax.Expr
import Toplevel.Syntax.Source

/-!
# Reading programs

`parse` reads a source as a program. The meaning of a derivation is computed rule by rule: each
phrase means a tree or a list of parts of one, and a string literal means the text it denotes. A
source can fail in two ways: it is not derivable, or one of its string literals has a bad escape.
-/

namespace Toplevel

structure BadEscape where
  literal : Token
deriving DecidableEq

inductive ParseError where
  | unexpected (e : SyntaxError)
  | badEscape (e : BadEscape)
deriving DecidableEq

namespace ParseError

def position : ParseError → Position
  | unexpected e => e.position
  | badEscape e => e.literal.position

def message : ParseError → Text
  | unexpected e => e.message
  | badEscape e =>
    Text.concat
      [syntaxErrorAt e.literal.position, "invalid escape in string ", e.literal.text]

end ParseError

/-- A token and the text it denotes: for a string literal what stands between its quotes, and
for any other token its spelling. -/
structure Word where
  text : Text
  position : Position

/-- What the symbols of the grammar mean. -/
def Meaning : Symbol → Type
  | .terminal _ => Word
  | .nonterminal .program => Program
  | .nonterminal .statements | .nonterminal .moreStatements => List Statement
  | .nonterminal .statement => Statement
  | .nonterminal .arms | .nonterminal .arm => Arms
  | .nonterminal .pattern => Option Text × Text
  | .nonterminal .moreFields | .nonterminal .field => Fields
  | _ => Expr

namespace Meaning

def ofToken (token : Token) : Except BadEscape Word :=
  if token.kind = .string then
    match Text.unescape? (token.text.drop 1).dropLast with
    | some s => .ok ⟨s, token.position⟩
    | none => .error ⟨token⟩
  else .ok ⟨token.text, token.position⟩

def binary (ops : List BinaryOp) (default : BinaryOp) (left : Expr) (op : Word) (right : Expr) :
    Expr :=
  .binary (BinaryOp.find ops op.text default) op.position left right

/-- What a phrase means, from the rule and the meanings of its parts. -/
def ofRule : (p : Production) → Parts Meaning p.rhs → Meaning (.nonterminal p.lhs)
  | .program, (ss, ()) => (⟨ss⟩ : Program)
  | .statementsMoreEnd, (s, ss, _, ()) => (s :: ss : List Statement)
  | .statementsMore, (s, ss, ()) => (s :: ss : List Statement)
  | .statementsEnd, (s, _, ()) => ([s] : List Statement)
  | .statementsOne, (s, ()) => ([s] : List Statement)
  | .moreStatementsOne, (_, s, ()) => ([s] : List Statement)
  | .moreStatementsNext, (ss, _, s, ()) => (List.append ss [s] : List Statement)
  | .define, (_, x, _, v, ()) => Statement.define (Word.text x) v false
  | .defineRec, (_, _, x, _, v, ()) => Statement.define (Word.text x) v true
  | .statementExpr, (e, ()) => Statement.expr e
  | .func, (_, x, _, b, ()) => Expr.func (Word.text x) b
  | .letIn, (_, x, _, v, _, b, ()) => Expr.letIn (Word.text x) v b
  | .ifElse, (_, c, _, y, _, n, ()) => Expr.ifElse c y n
  | .matchWith, (_, s, _, as, ()) => Expr.matchWith s as
  | .exprAssign, (e, ()) => e
  | .armsOne, (a, ()) => a
  | .armsNext, (as, a, ()) => Arms.append as a
  | .arm, (_, p, _, b, ()) => Arms.cons (Prod.fst p) (Prod.snd p) b .nil
  | .tagPattern, (t, x, ()) => ((some (Word.text t), Word.text x) : Option Text × Text)
  | .anyPattern, (x, ()) => ((none, Word.text x) : Option Text × Text)
  | .assignCompare, (e, ()) => e
  | .assign, (t, _, v, ()) => Expr.assign t v
  | .compareConcat, (e, ()) => e
  | .compare, (l, op, r, ()) => binary BinaryOp.comparisons .greater l op r
  | .concatSum, (e, ()) => e
  | .concat, (l, op, r, ()) => binary [.concat] .concat l op r
  | .sumProduct, (e, ()) => e
  | .plus, (l, op, r, ()) => binary [.plus] .plus l op r
  | .minus, (l, op, r, ()) => binary [.minus] .minus l op r
  | .productUnary, (e, ()) => e
  | .product, (l, op, r, ()) => binary BinaryOp.products .remainder l op r
  | .unaryCall, (e, ()) => e
  | .neg, (_, e, ()) => Expr.neg e
  | .deref, (_, e, ()) => Expr.deref e
  | .callSimple, (e, ()) => e
  | .apply, (f, a, ()) => Expr.apply f a
  | .applyTagged, (f, a, ()) => Expr.apply f a
  | .callTagged, (e, ()) => e
  | .newRef, (_, e, ()) => Expr.newRef e
  | .taggedSimple, (t, e, ()) => Expr.tagged (Word.text t) e
  | .taggedTagged, (t, e, ()) => Expr.tagged (Word.text t) e
  | .simpleAtom, (e, ()) => e
  | .fieldAccess, (e, _, x, ()) => Expr.field e (Word.text x)
  | .number, (n, ()) => Expr.number (floatOfLiteral (Word.text n))
  | .string, (s, ()) => Expr.string (Word.text s)
  | .trueLit, _ => Expr.bool true
  | .falseLit, _ => Expr.bool false
  | .var, (x, ()) => Expr.var (Word.text x) (Word.position x)
  | .recordEmpty, _ => Expr.record .nil
  | .recordOne, (_, f, _, ()) => Expr.record f
  | .recordOneEnd, (_, f, _, _, ()) => Expr.record f
  | .recordMore, (_, f, fs, _, ()) => Expr.record (Fields.append f fs)
  | .recordMoreEnd, (_, f, fs, _, _, ()) => Expr.record (Fields.append f fs)
  | .updateOne, (_, b, _, f, _, ()) => Expr.update b f
  | .updateOneEnd, (_, b, _, f, _, _, ()) => Expr.update b f
  | .updateMore, (_, b, _, f, fs, _, ()) => Expr.update b (Fields.append f fs)
  | .updateMoreEnd, (_, b, _, f, fs, _, _, ()) => Expr.update b (Fields.append f fs)
  | .parens, (_, e, _, ()) => e
  | .moreFieldsOne, (_, f, ()) => f
  | .moreFieldsNext, (fs, _, f, ()) => Fields.append fs f
  | .field, (x, _, v, ()) => Fields.cons (Word.text x) v .nil

end Meaning

/-- The meaning of a derivation, or the first of its string literals that denotes no text. -/
def Tree.meaning? {s : Symbol} (tree : Tree s) : Except BadEscape (Meaning s) :=
  tree.fold (M := Meaning) Meaning.ofToken Meaning.ofRule

def parse (source : Text) : Except ParseError Program :=
  match Tree.ofSource source with
  | .error e => .error (.unexpected e)
  | .ok tree =>
    match tree.meaning? with
    | .error e => .error (.badEscape e)
    | .ok program => .ok program

end Toplevel
