import Toplevel.Eval.Evaluate
import Toplevel.Proofs.Code.Scope

/-!
# What a program means

The meaning of a program, read off its syntax tree. Arguments are evaluated before calls and from
left to right. A name is looked up when it is met: among the local names around it, the innermost
first, and else in the scope, where it means its latest definition. A function remembers both. The
right side of a definition is in the scope before it, and that of a recursive one in the scope
behind it.

The functions of a machine need not come from programs: those that the host hands over are code.
-/

namespace Toplevel

/-- The body of a function: an expression in a scope, or code of the host. -/
inductive Body where
  | source (body : Expr) (scope : Scope)
  | host (code : Code)

/-- What a binary operator does; the remainder is no operator of the host's. -/
def BinaryOp.operator? : BinaryOp → Option Operator
  | .less => some .less
  | .lessEqual => some .lessEqual
  | .greater => some .greater
  | .greaterEqual => some .greaterEqual
  | .equal => some .equal
  | .notEqual => some .notEqual
  | .concat | .plus => some .plus
  | .minus => some .minus
  | .times => some .times
  | .divide => some .divide
  | .remainder => none

def Heap.binary {β : Type} (h : Heap β) (op : BinaryOp) (v w : Value) : Except Fault Value :=
  match op.operator? with
  | some o => h.operate o v w
  | none => h.remainder v w

def Run.resolve {β : Type} (scope : Scope) (env : Env) (x : Text) : Run β Value :=
  match env.lookup x with
  | some v => pure v
  | none =>
    match scope.find? x with
    | some g => .global g
    | none => .fail (.undefined x)

section
variable (scope : Scope) (apply : Value → Value → Run Body Value)

mutual

/-- The value of an expression. A function called where it is written takes no call. -/
def Expr.interpret (env : Env) : Expr → Run Body Value
  | .number x => pure (.float x)
  | .string s => pure (.string s)
  | .bool b => pure (.bool b)
  | .var x _ => .resolve scope env x
  | .func x b => .alloc (.closure x (.source b scope) env)
  | .apply (.func x b) a => do
    let v ← a.interpret env
    b.interpret ((x, v) :: env)
  | .apply f a => do
    let f ← f.interpret env
    let v ← a.interpret env
    apply f v
  | .letIn x v b => do
    let v ← v.interpret env
    b.interpret ((x, v) :: env)
  | .ifElse c y n => do
    let c ← c.interpret env
    if ← Run.ask fun h => .ok (h.truth c) then y.interpret env else n.interpret env
  | .matchWith s as => do
    let v ← s.interpret env
    as.interpret env v (← Run.variant? v)
  | .binary op _ l r => do
    let l ← l.interpret env
    let r ← r.interpret env
    Run.ask fun h => h.binary op l r
  | .neg a => do
    let a ← a.interpret env
    Run.ask fun h => h.negate a
  | .deref a => do
    Run.deref (← a.interpret env)
  | .assign t v => do
    let t ← t.interpret env
    let v ← v.interpret env
    Run.assign t v
  | .record fs => do
    let fields ← fs.interpret env
    Run.alloc (.record fields)
  | .update b fs => do
    let b ← b.interpret env
    let fields ← fs.interpret env
    Run.extend b fields
  | .field b x => do
    Run.field (← b.interpret env) x
  | .tagged tag p => do
    let p ← p.interpret env
    Run.alloc (.tagged tag p)
  | .newRef a => do
    let a ← a.interpret env
    Run.alloc (.ref a)

/-- Runs the first arm that takes a value, given its tag and payload if it has them. -/
def Arms.interpret (env : Env) (v : Value) (variant : Option (Text × Value)) :
    Arms → Run Body Value
  | .nil =>
    match variant with
    | some (tag, _) => .fail (.noArm tag)
    | none => .fail .matchOfOther
  | .cons none x b _ => b.interpret ((x, v) :: env)
  | .cons (some t) x b rest =>
    match variant with
    | some (tag, payload) =>
      if tag = t then b.interpret ((x, payload) :: env) else rest.interpret env v variant
    | none => rest.interpret env v variant

def Fields.interpret (env : Env) : Fields → Run Body Members
  | .nil => pure []
  | .cons x v rest => do
    let v ← v.interpret env
    let fields ← rest.interpret env
    pure ((x, v) :: fields)

end

end

theorem Expr.interpret_apply {scope : Scope} {apply : Value → Value → Run Body Value} {f : Expr}
    (hf : ∀ x b, f ≠ .func x b) (a : Expr) (env : Env) :
    (Expr.apply f a).interpret scope apply env = (do
      let f ← f.interpret scope apply env
      let v ← a.interpret scope apply env
      apply f v) := by
  cases f <;> first | exact absurd rfl (hf _ _) | simp only [Expr.interpret]

def Body.enter (apply : Value → Value → Run Body Value) (env : Env) : Body → Run Body Value
  | .source b scope => b.interpret scope apply env
  | .host c => c.eval .host apply env

/-- Calls a value with an argument, with room for `budget` calls within each other. -/
def Body.apply (budget : Nat) : Value → Value → Run Body Value := Run.apply Body.enter budget

section
variable (calls : Nat)

/-- Runs a statement in which at most `calls` calls are open within each other. -/
def Statement.interpret (scope : Scope) : Statement → Run Body Value
  | .expr e => e.interpret scope (Body.apply calls) []
  | .define x v recursive => do
    let v ← v.interpret (if recursive then scope.push x else scope) (Body.apply calls) []
    Run.define ⟨scope.length + 1, x⟩ v
    pure v

/-- Runs statements one after another; the value is that of the last. -/
def interpretAll (scope : Scope) : List Statement → Run Body Value
  | [] => pure .null
  | [s] => s.interpret calls scope
  | s :: ss => do
    let _ ← s.interpret calls scope
    interpretAll (s.after scope) ss

def Program.interpret (scope : Scope) (p : Program) : Run Body Value :=
  interpretAll calls scope p.statements

end

end Toplevel
