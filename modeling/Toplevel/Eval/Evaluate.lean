import Toplevel.Eval.Machine

/-!
# Evaluating compiled code

Evaluation is strict and goes from left to right, a function before its argument. A function called
where it is written, and the arm of a match, are evaluated in place and leave no object behind.

A call of a function from the heap runs the code that the heap holds, which may be anything. Such
calls are counted while they are open within each other: a program that opens more than `maxCalls`
of them fails, and so evaluation always ends.
-/

namespace Toplevel

abbrev Env := Members

/-- How many calls may be open within each other. -/
def maxCalls : Nat := 950

/-- How many brackets may be open within each other in the text of a program. -/
def maxBrackets : Nat := 200

namespace Run

variable {β : Type}

def lookup (env : Env) (name : Text) : Run β Value :=
  match env.lookup name with
  | some v => pure v
  | none => .fail (.undefined (localText name))

def field (v : Value) (name : Text) : Run β Value := do
  match ← object? v with
  | some (.record fields) =>
    match fields.lookup name with
    | some v => pure v
    | none => fail (.missingField name)
  | _ => fail (.fieldOfOther name)

/-- A new record with the fields of another, and with `news` put into it. -/
def extend (v : Value) (news : Members) : Run β Value := do
  match ← object? v with
  | some (.record fields) => alloc (.record (fields.putAll news))
  | _ => fail .updateOfOther

def deref (v : Value) : Run β Value := do
  match ← object? v with
  | some (.ref target) => pure target
  | _ => fail .derefOfOther

/-- Points a reference at another value, which is the value of the assignment too. -/
def assign (v target : Value) : Run β Value := do
  match v, ← object? v with
  | .object a, some (.ref _) => do
    setObject a (.ref target)
    pure target
  | _, _ => fail .assignToOther

def variant? (v : Value) : Run β (Option (Text × Value)) := do
  match ← object? v with
  | some (.tagged tag payload) => pure (some (tag, payload))
  | _ => pure none

/-- Calls a value with an argument, with room for `budget` calls within each other. `enter` runs
the body of a function, given what its own calls do. -/
def apply (enter : (Value → Value → Run β Value) → Env → β → Run β Value) (budget : Nat)
    (f v : Value) : Run β Value := do
  match ← object? f with
  | some (.closure x b env) =>
    match budget with
    | 0 => fail .tooDeep
    | budget + 1 => enter (apply enter budget) ((x, v) :: env) b
  | _ => fun m => (.error (.notCallable (m.heap.typeName f)), m)

end Run

section
variable {β : Type} (close : Code → β) (apply : Value → Value → Run β Value)

mutual

/-- The value of code. A function that is made keeps its body as `close` says. -/
def Code.eval (env : Env) : Code → Run β Value
  | .number x => pure (.float x)
  | .string s => pure (.string s)
  | .bool b => pure (.bool b)
  | .localVar x => .lookup env x
  | .globalVar g => .global g
  | .lambda x b => .alloc (.closure x (close b) env)
  | .call (.lambda x b) a => do
    let v ← a.eval env
    b.eval ((x, v) :: env)
  | .call f a => do
    let f ← f.eval env
    let v ← a.eval env
    apply f v
  | .ifElse c y n => do
    let c ← c.eval env
    if ← Run.ask fun h => .ok (h.truth c) then y.eval env else n.eval env
  | .matchOn s cs => do
    let v ← s.eval env
    cs.eval env v (← Run.variant? v)
  | .binary op l r => do
    let l ← l.eval env
    let r ← r.eval env
    Run.ask fun h => h.operate op l r
  | .remainder l r => do
    let l ← l.eval env
    let r ← r.eval env
    Run.ask fun h => h.remainder l r
  | .neg a => do
    let a ← a.eval env
    Run.ask fun h => h.negate a
  | .deref a => do
    Run.deref (← a.eval env)
  | .assign t v => do
    let t ← t.eval env
    let v ← v.eval env
    Run.assign t v
  | .record es => do
    let fields ← es.eval env
    Run.alloc (.record fields)
  | .extend b es => do
    let b ← b.eval env
    let fields ← es.eval env
    Run.extend b fields
  | .field b x => do
    Run.field (← b.eval env) x
  | .tagged tag p => do
    let p ← p.eval env
    Run.alloc (.tagged tag p)
  | .newRef a => do
    let a ← a.eval env
    Run.alloc (.ref a)

/-- Runs the arm for a value, given its tag and payload if it has them. -/
def Cases.eval (env : Env) (v : Value) (variant : Option (Text × Value)) : Cases → Run β Value
  | .nil =>
    match variant with
    | some (tag, _) => .fail (.noArm tag)
    | none => .fail .matchOfOther
  | .otherwise x b => b.eval ((x, v) :: env)
  | .cons t x b rest =>
    match variant with
    | some (tag, payload) =>
      if tag = t then b.eval ((x, payload) :: env) else rest.eval env v variant
    | none => rest.eval env v variant

def Entries.eval (env : Env) : Entries → Run β Members
  | .nil => pure []
  | .cons x c rest => do
    let v ← c.eval env
    let fields ← rest.eval env
    pure ((x, v) :: fields)

end

end

theorem Code.eval_call {β : Type} {close : Code → β} {apply : Value → Value → Run β Value}
    {f : Code} (hf : ∀ x b, f ≠ .lambda x b) (a : Code) (env : Env) :
    (Code.call f a).eval close apply env = (do
      let f ← f.eval close apply env
      let v ← a.eval close apply env
      apply f v) := by
  cases f <;> first | exact absurd rfl (hf _ _) | simp only [Code.eval]

/-- Calls a value with an argument, where functions keep their code as it is. -/
def Code.apply (budget : Nat) : Value → Value → Run Code Value := Run.apply (Code.eval id) budget

section
variable (calls : Nat)

/-- Evaluates a step in which at most `calls` calls are open within each other. -/
def Step.eval : Step → Run Code Value
  | .expr c => c.eval id (Code.apply calls) []
  | .define g c => do
    let v ← c.eval id (Code.apply calls) []
    Run.define g v
    pure v

/-- Runs steps one after another; the value is that of the last. -/
def evalSteps : List Step → Run Code Value
  | [] => pure .null
  | [s] => s.eval calls
  | s :: ss => do
    let _ ← s.eval calls
    evalSteps ss

def Compiled.eval (c : Compiled) : Run Code Value := evalSteps calls c.steps

end

/-- Evaluates a program, as a whole between brackets; nothing is run if its text opens too many. -/
def Compiled.evaluate (c : Compiled) : Run Code Value :=
  if maxBrackets < c.nesting + 1 then .fail .tooManyBrackets else c.eval maxCalls

end Toplevel
