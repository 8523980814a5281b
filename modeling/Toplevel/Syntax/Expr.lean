import Toplevel.Text.Position

/-!
# Programs as trees

The syntax tree of a program. Variables and binary operators remember where they stand in the
source, for messages; `Program.same` compares trees without regard to places.
-/

namespace Toplevel

inductive BinaryOp where
  | less
  | lessEqual
  | greater
  | greaterEqual
  | equal
  | notEqual
  | concat
  | plus
  | minus
  | times
  | divide
  | remainder
deriving DecidableEq

namespace BinaryOp

def text : BinaryOp → Text
  | less => ['<']
  | lessEqual => ['<', '=']
  | greater => ['>']
  | greaterEqual => ['>', '=']
  | equal => ['=', '=']
  | notEqual => ['!', '=']
  | concat => ['^']
  | plus => ['+']
  | minus => ['-']
  | times => ['*']
  | divide => ['/']
  | remainder => ['%']

def comparisons : List BinaryOp := [lessEqual, greaterEqual, equal, notEqual, less, greater]

def products : List BinaryOp := [times, divide, remainder]

def find (ops : List BinaryOp) (t : Text) (default : BinaryOp) : BinaryOp :=
  (ops.find? fun op => op.text = t).getD default

theorem find_text {ops : List BinaryOp} {op default : BinaryOp} (h : op ∈ ops) :
    find ops op.text default = op := by
  have hinj : ∀ a b : BinaryOp, a.text = b.text → a = b := by
    intro a b
    cases a <;> cases b <;> decide
  have hsome : (ops.find? fun o => decide (o.text = op.text)).isSome := by
    simp only [List.find?_isSome, decide_eq_true_eq]
    exact ⟨op, h, rfl⟩
  obtain ⟨o, ho⟩ := Option.isSome_iff_exists.mp hsome
  have ht := List.find?_some ho
  simp only [decide_eq_true_eq] at ht
  simp [find, ho, hinj _ _ ht]

end BinaryOp

mutual

inductive Expr where
  | number (value : Float)
  | string (value : Text)
  | bool (value : Bool)
  | var (name : Text) (position : Position)
  | func (param : Text) (body : Expr)
  | apply (func arg : Expr)
  | letIn (name : Text) (value body : Expr)
  | ifElse (cond yes no : Expr)
  | matchWith (subject : Expr) (arms : Arms)
  | binary (op : BinaryOp) (position : Position) (left right : Expr)
  | neg (operand : Expr)
  | deref (operand : Expr)
  | assign (target value : Expr)
  | record (fields : Fields)
  | update (base : Expr) (fields : Fields)
  | field (base : Expr) (name : Text)
  | tagged (tag : Text) (payload : Expr)
  | newRef (value : Expr)

/-- Match arms in order. An arm without a tag takes any value, and binds it whole. -/
inductive Arms where
  | nil
  | cons (tag : Option Text) (name : Text) (body : Expr) (rest : Arms)

inductive Fields where
  | nil
  | cons (name : Text) (value : Expr) (rest : Fields)

end

namespace Arms

def append : Arms → Arms → Arms
  | nil, arms => arms
  | cons tag name body rest, arms => cons tag name body (rest.append arms)

end Arms

namespace Fields

def append : Fields → Fields → Fields
  | nil, fields => fields
  | cons name value rest, fields => cons name value (rest.append fields)

end Fields

/-- A definition for what follows, or an expression to evaluate. In a recursive definition the
name already means the new value. -/
inductive Statement where
  | define (name : Text) (value : Expr) (recursive : Bool)
  | expr (value : Expr)

/-- The value of a program is that of its last statement. -/
structure Program where
  statements : List Statement

mutual

/-- Equality of trees without regard to places. -/
def Expr.same : Expr → Expr → Bool
  | .number x, .number y => x == y
  | .string s, .string t => s == t
  | .bool a, .bool b => a == b
  | .var x _, .var y _ => x == y
  | .func x b, .func y c => x == y && b.same c
  | .apply f a, .apply g b => f.same g && a.same b
  | .letIn x v b, .letIn y w c => x == y && v.same w && b.same c
  | .ifElse a b c, .ifElse a' b' c' => a.same a' && b.same b' && c.same c'
  | .matchWith s as, .matchWith t bs => s.same t && as.same bs
  | .binary op _ l r, .binary op' _ l' r' => op == op' && l.same l' && r.same r'
  | .neg a, .neg b => a.same b
  | .deref a, .deref b => a.same b
  | .assign t v, .assign t' v' => t.same t' && v.same v'
  | .record fs, .record gs => fs.same gs
  | .update b fs, .update c gs => b.same c && fs.same gs
  | .field b x, .field c y => b.same c && x == y
  | .tagged s p, .tagged t q => s == t && p.same q
  | .newRef a, .newRef b => a.same b
  | _, _ => false

def Arms.same : Arms → Arms → Bool
  | .nil, .nil => true
  | .cons s x b as, .cons t y c bs => s == t && x == y && b.same c && as.same bs
  | _, _ => false

def Fields.same : Fields → Fields → Bool
  | .nil, .nil => true
  | .cons x v fs, .cons y w gs => x == y && v.same w && fs.same gs
  | _, _ => false

end

def Statement.same : Statement → Statement → Bool
  | .define x v r, .define y w q => x == y && v.same w && r == q
  | .expr a, .expr b => a.same b
  | _, _ => false

def Program.same (p q : Program) : Bool :=
  p.statements.length == q.statements.length
    && (List.zipWith Statement.same p.statements q.statements).all id

end Toplevel
