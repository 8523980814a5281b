import Toplevel.Number.Notation
import Toplevel.Syntax.Expr
import Toplevel.Text.Quoted

/-!
# The constructor text of a tree

`Program.text` writes a tree out in full, places left out: the name of each node with its parts in
parentheses, lists in brackets, and the fields of a record as pairs.
-/

namespace Toplevel

namespace Text

def ofBool (b : Bool) : Text := if b then "True" else "False"

/-- A node: its name and its parts, each with what it is called. -/
def node (name : Text) (parts : List (Text × Text)) : Text :=
  Text.concat
    [name, "(", Text.join ", " (parts.map fun p => Text.concat [p.1, "=", p.2]), ")"]

def bracketed (items : List Text) : Text := Text.concat ["[", Text.join ", " items, "]"]

end Text

mutual

def Expr.text : Expr → Text
  | .number x => .node "Number" [("value", Text.ofFloat x)]
  | .string s => .node "String" [("value", s.quoted)]
  | .bool b => .node "Bool" [("value", Text.ofBool b)]
  | .var x _ => .node "Var" [("name", x.quoted)]
  | .func x b => .node "Func" [("param", x.quoted), ("body", b.text)]
  | .apply f a => .node "Apply" [("func", f.text), ("arg", a.text)]
  | .letIn x v b => .node "LetIn" [("name", x.quoted), ("value", v.text), ("body", b.text)]
  | .ifElse c y n => .node "If" [("cond", c.text), ("then", y.text), ("otherwise", n.text)]
  | .matchWith s as => .node "Match" [("subject", s.text), ("arms", .bracketed as.texts)]
  | .binary op _ l r =>
    .node "BinaryOp" [("op", op.text.quoted), ("left", l.text), ("right", r.text)]
  | .neg a => .node "Neg" [("operand", a.text)]
  | .deref a => .node "Deref" [("operand", a.text)]
  | .assign t v => .node "Assign" [("target", t.text), ("value", v.text)]
  | .record fs => .node "Record" [("fields", .bracketed fs.texts)]
  | .update b fs => .node "RecordUpdate" [("base", b.text), ("fields", .bracketed fs.texts)]
  | .field b x => .node "Field" [("base", b.text), ("name", x.quoted)]
  | .tagged t p => .node "Tag" [("tag", t.quoted), ("payload", p.text)]
  | .newRef a => .node "NewRef" [("value", a.text)]

def Arms.texts : Arms → List Text
  | .nil => []
  | .cons tag name body rest =>
    .node "Arm"
      [("tag", match tag with | none => "None" | some t => t.quoted), ("name", name.quoted),
        ("body", body.text)] :: rest.texts

def Fields.texts : Fields → List Text
  | .nil => []
  | .cons name value rest =>
    Text.concat ["(", name.quoted, ", ", value.text, ")"] :: rest.texts

end

def Statement.text : Statement → Text
  | .define x v r =>
    .node "Let" [("name", x.quoted), ("value", v.text), ("rec", Text.ofBool r)]
  | .expr e => e.text

def Program.text (p : Program) : Text :=
  .node "Program" [("statements", .bracketed (p.statements.map Statement.text))]

end Toplevel
