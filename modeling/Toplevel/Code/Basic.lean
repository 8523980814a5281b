import Toplevel.Text.Quoted
import Toplevel.Number.Notation

/-!
# Compiled code

A program compiles to one expression in which every name is resolved: a local name is bound by a
function around it, and a global name is numbered, so that a later definition of the same source
name has another global. `Code.text` is the expression as it is written; what it leaves to the
host are the helpers it calls for matching, records and references.

`Code.nesting` counts how many brackets are open at once in that text, string literals apart: the
host refuses text with more than two hundred.
-/

namespace Toplevel

/-- The name of a definition: the source name with the number of the definition. -/
structure Global where
  index : Nat
  name : Text
deriving DecidableEq

def Global.text (g : Global) : Text := Text.concat ["g", Text.ofNat g.index, "_", g.name]

/-- A local name as it is written; no global is written so. -/
def localText (name : Text) : Text := Text.concat ["v_", name]

inductive Operator where
  | less
  | lessEqual
  | greater
  | greaterEqual
  | equal
  | notEqual
  | plus
  | minus
  | times
  | divide
deriving DecidableEq

def Operator.text : Operator → Text
  | less => ['<']
  | lessEqual => ['<', '=']
  | greater => ['>']
  | greaterEqual => ['>', '=']
  | equal => ['=', '=']
  | notEqual => ['!', '=']
  | plus => ['+']
  | minus => ['-']
  | times => ['*']
  | divide => ['/']

mutual

inductive Code where
  | number (value : Float)
  | string (value : Text)
  | bool (value : Bool)
  | localVar (name : Text)
  | globalVar (g : Global)
  | lambda (param : Text) (body : Code)
  | call (func arg : Code)
  | ifElse (cond yes no : Code)
  | matchOn (subject : Code) (cases : Cases)
  | binary (op : Operator) (left right : Code)
  | remainder (left right : Code)
  | neg (operand : Code)
  | deref (operand : Code)
  | assign (target value : Code)
  | record (entries : Entries)
  | extend (base : Code) (entries : Entries)
  | field (base : Code) (name : Text)
  | tagged (tag : Text) (payload : Code)
  | newRef (value : Code)

/-- The handlers of a match: one for each tag, and at most one for all else at the end. -/
inductive Cases where
  | nil
  | otherwise (param : Text) (body : Code)
  | cons (tag param : Text) (body : Code) (rest : Cases)

inductive Entries where
  | nil
  | cons (name : Text) (value : Code) (rest : Entries)

end

/-- One statement: a definition or an expression to evaluate. -/
inductive Step where
  | define (g : Global) (value : Code)
  | expr (value : Code)

/-- A compiled program; its value is that of the last step. -/
structure Compiled where
  steps : List Step

/-! ### Its text -/

/-- A double as it stands in code; no numeral is infinite. -/
def numberText (x : Float) : Text :=
  match Binary.ofFloat x with
  | .nan => "_nan"
  | .infinite negative => if negative then "(-_inf)" else "_inf"
  | .finite .. => Text.ofFloat x

def Text.lambda (param body : Text) : Text :=
  Text.concat ["(lambda ", localText param, ": ", body, ")"]

def Text.braced (items : List Text) : Text :=
  Text.concat ["\x7b", Text.join ", " items, "\x7d"]

mutual

def Code.text : Code → Text
  | .number x => numberText x
  | .string s => s.quoted
  | .bool b => if b then "True" else "False"
  | .localVar x => localText x
  | .globalVar g => g.text
  | .lambda x b => Text.lambda x b.text
  | .call f a => Text.concat [f.text, "(", a.text, ")"]
  | .ifElse c y n => Text.concat ["(", y.text, " if ", c.text, " else ", n.text, ")"]
  | .matchOn s cs =>
    Text.concat ["_rt.match(", s.text, ", ", .braced cs.texts, cs.otherwiseText, ")"]
  | .binary op l r => Text.concat ["(", l.text, " ", op.text, " ", r.text, ")"]
  | .remainder l r => Text.concat ["_rt.mod(", l.text, ", ", r.text, ")"]
  | .neg a => Text.concat ["(-", a.text, ")"]
  | .deref a => Text.concat ["_rt.deref(", a.text, ")"]
  | .assign t v => Text.concat ["_rt.assign(", t.text, ", ", v.text, ")"]
  | .record es => Text.concat ["Record(", .braced es.texts, ")"]
  | .extend b es => Text.concat ["_rt.extend(", b.text, ", ", .braced es.texts, ")"]
  | .field b x => Text.concat ["_rt.field(", b.text, ", ", x.quoted, ")"]
  | .tagged t p => Text.concat ["Tagged(", t.quoted, ", ", p.text, ")"]
  | .newRef a => Text.concat ["Ref(", a.text, ")"]

def Cases.texts : Cases → List Text
  | .nil => []
  | .otherwise _ _ => []
  | .cons tag x b rest => Text.concat [tag.quoted, ": ", Text.lambda x b.text] :: rest.texts

/-- The handler for all else, as a further argument. -/
def Cases.otherwiseText : Cases → Text
  | .nil => []
  | .otherwise x b => Text.concat [", ", Text.lambda x b.text]
  | .cons _ _ _ rest => rest.otherwiseText

def Entries.texts : Entries → List Text
  | .nil => []
  | .cons x v rest => Text.concat [x.quoted, ": ", v.text] :: rest.texts

end

def Step.text : Step → Text
  | .define g v => Text.concat ["_define(", g.text.quoted, ", ", v.text, ")"]
  | .expr c => c.text

/-- A single step stands for itself; of several, the last of a tuple of them is taken. -/
def Compiled.text (c : Compiled) : Text :=
  match c.steps with
  | [s] => s.text
  | steps => Text.concat ["(", Text.join ", " (steps.map Step.text), ")[-1]"]

/-! ### Its nesting -/

mutual

/-- The greatest number of brackets open at once in the text of a piece of code. -/
def Code.nesting : Code → Nat
  | .number x => match Binary.ofFloat x with
    | .infinite true => 1
    | _ => 0
  | .string _ | .bool _ | .localVar _ | .globalVar _ => 0
  | .lambda _ b => 1 + b.nesting
  | .call f a => max f.nesting (1 + a.nesting)
  | .ifElse c y n => 1 + max y.nesting (max c.nesting n.nesting)
  | .matchOn s cs => 1 + max s.nesting (max 1 cs.nesting)
  | .binary _ l r => 1 + max l.nesting r.nesting
  | .remainder l r => 1 + max l.nesting r.nesting
  | .neg a => 1 + a.nesting
  | .deref a => 1 + a.nesting
  | .assign t v => 1 + max t.nesting v.nesting
  | .record es => 2 + es.nesting
  | .extend b es => 1 + max b.nesting (1 + es.nesting)
  | .field b _ => 1 + b.nesting
  | .tagged _ p => 1 + p.nesting
  | .newRef a => 1 + a.nesting

def Cases.nesting : Cases → Nat
  | .nil => 0
  | .otherwise _ b => 1 + b.nesting
  | .cons _ _ b rest => max (2 + b.nesting) rest.nesting

def Entries.nesting : Entries → Nat
  | .nil => 0
  | .cons _ v rest => max v.nesting rest.nesting

end

def Step.nesting : Step → Nat
  | .define _ v => 1 + v.nesting
  | .expr c => c.nesting

def Compiled.nesting (c : Compiled) : Nat :=
  match c.steps with
  | [s] => s.nesting
  | steps => 1 + steps.foldl (fun n s => max n s.nesting) 0

end Toplevel
