import Toplevel.Code.Basic
import Toplevel.Syntax.Program

/-!
# Compiling programs

`Program.compile?` resolves the names of a program. A local name is looked up before the
definitions; a definition is visible from the next statement on, or in its own right side already
if it is recursive. Definitions are numbered in the order in which they are compiled.

The first mistake from left to right decides. A repeated field is met before its value, an arm
that cannot be reached before its body, and a repeated tag after the body of its arm.
-/

namespace Toplevel

inductive CompileError where
  | parse (e : ParseError)
  | unbound (name : Text) (position : Position)
  | repeatedField (name : Text)
  | unreachableArm
  | repeatedTag (tag : Text)
deriving DecidableEq

def CompileError.message : CompileError → Text
  | parse e => e.message
  | unbound x p =>
    Text.concat
      ["Unbound variable ", x, " at line ", Text.ofNat p.line, ", column ", Text.ofNat p.column]
  | repeatedField x => Text.concat ["Repeated field name ", x]
  | unreachableArm => "Match arm after a catch-all arm can never be reached"
  | repeatedTag t => Text.concat ["Repeated match arm for tag ", t]

/-- The definitions that can be named, each source name once. -/
abbrev Bindings := List (Text × Global)

namespace Bindings

def find? (b : Bindings) (name : Text) : Option Global := b.lookup name

/-- Names a new definition; an earlier one of the same name is hidden. -/
def set (b : Bindings) (name : Text) (g : Global) : Bindings :=
  (name, g) :: b.filter fun e => e.1 ≠ name

end Bindings

def BinaryOp.compile (op : BinaryOp) (left right : Code) : Code :=
  match op with
  | .less => .binary .less left right
  | .lessEqual => .binary .lessEqual left right
  | .greater => .binary .greater left right
  | .greaterEqual => .binary .greaterEqual left right
  | .equal => .binary .equal left right
  | .notEqual => .binary .notEqual left right
  | .concat => .binary .plus left right
  | .plus => .binary .plus left right
  | .minus => .binary .minus left right
  | .times => .binary .times left right
  | .divide => .binary .divide left right
  | .remainder => .remainder left right

section
variable (globals : Bindings)

def resolve (scope : List Text) (name : Text) (position : Position) : Except CompileError Code :=
  if name ∈ scope then .ok (.localVar name)
  else
    match globals.find? name with
    | some g => .ok (.globalVar g)
    | none => .error (.unbound name position)

mutual

def Expr.compile (scope : List Text) : Expr → Except CompileError Code
  | .number x => .ok (.number x)
  | .string s => .ok (.string s)
  | .bool b => .ok (.bool b)
  | .var x p => resolve globals scope x p
  | .func x b => do
    return .lambda x (← b.compile (x :: scope))
  | .apply f a => do
    let f ← f.compile scope
    let a ← a.compile scope
    return .call f a
  | .letIn x v b => do
    let v ← v.compile scope
    let b ← b.compile (x :: scope)
    return .call (.lambda x b) v
  | .ifElse c y n => do
    let c ← c.compile scope
    let y ← y.compile scope
    let n ← n.compile scope
    return .ifElse c y n
  | .matchWith s as => do
    let s ← s.compile scope
    let cs ← as.compile scope [] false
    return .matchOn s cs
  | .binary op _ l r => do
    let l ← l.compile scope
    let r ← r.compile scope
    return op.compile l r
  | .neg a => do
    return .neg (← a.compile scope)
  | .deref a => do
    return .deref (← a.compile scope)
  | .assign t v => do
    let t ← t.compile scope
    let v ← v.compile scope
    return .assign t v
  | .record fs => do
    return .record (← fs.compile scope [])
  | .update b fs => do
    let b ← b.compile scope
    let es ← fs.compile scope []
    return .extend b es
  | .field b x => do
    return .field (← b.compile scope) x
  | .tagged t p => do
    return .tagged t (← p.compile scope)
  | .newRef a => do
    return .newRef (← a.compile scope)

/-- The handlers of match arms, given the tags met so far and whether an arm for all else has been
met. -/
def Arms.compile (scope : List Text) (tags : List Text) (closed : Bool) :
    Arms → Except CompileError Cases
  | .nil => .ok .nil
  | .cons tag x b rest =>
    if closed then .error .unreachableArm
    else do
      let b ← b.compile (x :: scope)
      match tag with
      | none =>
        let _ ← rest.compile scope tags true
        return .otherwise x b
      | some t =>
        if t ∈ tags then .error (.repeatedTag t)
        else return .cons t x b (← rest.compile scope (t :: tags) false)

/-- The entries of record fields, given the names met so far. -/
def Fields.compile (scope : List Text) (names : List Text) : Fields → Except CompileError Entries
  | .nil => .ok .nil
  | .cons x v rest =>
    if x ∈ names then .error (.repeatedField x)
    else do
      let v ← v.compile scope
      return .cons x v (← rest.compile scope (x :: names))

end

end

/-- The definitions made so far: what can be named, and how many have been numbered. -/
structure Definitions where
  bindings : Bindings
  count : Nat

namespace Definitions

def empty : Definitions := ⟨[], 0⟩

/-- Names the definition numbered next. -/
def define (d : Definitions) (name : Text) : Definitions × Global :=
  let g : Global := ⟨d.count + 1, name⟩
  (⟨d.bindings.set name g, d.count + 1⟩, g)

end Definitions

def Statement.compile? (d : Definitions) :
    Statement → Except CompileError (Step × Definitions)
  | .expr e => do
    return (.expr (← e.compile d.bindings []), d)
  | .define x v recursive => do
    let (d', g) := d.define x
    let v ← v.compile (if recursive then d'.bindings else d.bindings) []
    return (.define g v, d')

def compileAll (d : Definitions) :
    List Statement → Except CompileError (List Step × Definitions)
  | [] => .ok ([], d)
  | s :: ss => do
    let (step, d) ← s.compile? d
    let (steps, d) ← compileAll d ss
    return (step :: steps, d)

/-- The code of a program and the definitions after it. -/
def Program.compile? (p : Program) (d : Definitions) :
    Except CompileError (Compiled × Definitions) := do
  let (steps, d) ← compileAll d p.statements
  return (⟨steps⟩, d)

def compileSource (source : Text) (d : Definitions) :
    Except CompileError (Compiled × Definitions) :=
  match parse source with
  | .error e => .error (.parse e)
  | .ok p => p.compile? d

end Toplevel
