import Toplevel.Value.Display

/-!
# Looking at a value from outside

`Heap.inspect` names a value by its constructor. It shows the tag of a tagged value and the field
names of a record, but nothing that they hold; a list, a tuple or a mapping of a host is shown with
its items, each inspected in the same way, and a mark where it comes up inside itself. Records can
also be read and changed by the name of a field.
-/

namespace Toplevel

namespace CodePoint

/-- A byte as it is written between the quotes `quote`. -/
def escapeByte (quote : CodePoint) (b : Nat) : Text :=
  if b < 0x7F then escapeWithin quote (ofNat b) else '\\' :: 'x' :: Text.hex 2 b

end CodePoint

/-- Bytes between quotes: single ones, unless there are single quotes inside and no double ones. -/
def Text.ofBytes (content : List Nat) : Text :=
  let quote := Text.quoteFor (content.map CodePoint.ofNat)
  'b' :: Text.between quote (content.flatMap (CodePoint.escapeByte quote))

namespace Heap

variable {β : Type} (h : Heap β)

/-- A value without items, by its constructor and its outermost names. -/
def inspectAtom (v : Value) : Except DisplayError Text :=
  match v with
  | .bool b => .ok (if b then "True" else "False")
  | .int i => intText? i
  | .string t => .ok t.quoted
  | .null => .ok "None"
  | .undefined => .ok "UNDEFINED"
  | .bytes content => .ok (Text.ofBytes content)
  | .decimal _ d => .ok (Text.concat ["Decimal(", d.text.quoted, ")"])
  | .fraction f => do
    let num ← intText? f.num
    let den ← intText? f.den
    return Text.concat ["Fraction(", num, ", ", den, ")"]
  | .symbol _ name => .ok (Text.concat ["Symbol(", name.quoted, ")"])
  | .object a =>
    match h.get? a with
    | some (.tagged tag _) => .ok (Text.concat ["Tagged(", tag.quoted, ")"])
    | some (.ref _) => .ok "Ref(...)"
    | some (.record fields) =>
      .ok (Text.concat
        ["Record([", Text.join ", " (fields.map fun f => f.1.quoted), "])"])
    | some (.closure ..) => .ok "<function>"
    | _ => .ok "<object>"
  | v => v.atomText

/-- A value inside the objects at the addresses `around`, with at most `depth` more around items. -/
def inspectWithin : Nat → List Nat → Value → Except DisplayError Text
  | 0, _, _ => .error .tooDeep
  | depth + 1, around, v =>
    match v, h.object? v with
    | .object a, some (.list items) =>
      if a ∈ around then .ok "[...]"
      else do
        let texts ← items.mapM (inspectWithin depth (a :: around))
        return Text.concat ["[", Text.join ", " texts, "]"]
    | .object a, some (.tuple items) =>
      if a ∈ around then .ok "(...)"
      else do
        let texts ← items.mapM (inspectWithin depth (a :: around))
        return Text.concat
          ["(", Text.join ", " texts, if texts.length = 1 then ",)" else ")"]
    | .object a, some (.mapping entries) =>
      if a ∈ around then .ok "\x7b...\x7d"
      else do
        let texts ← entries.mapM fun e => do
          let key ← inspectWithin depth (a :: around) e.1
          let value ← inspectWithin depth (a :: around) e.2
          return Text.concat [key, ": ", value]
        return Text.concat ["\x7b", Text.join ", " texts, "\x7d"]
    | v, _ => h.inspectAtom v

/-- A value by its constructor. Objects within each other are all different. -/
def inspect (v : Value) : Except DisplayError Text := h.inspectWithin (h.size + 1) [] v

def fields? (v : Value) : Option Members :=
  match h.object? v with
  | some (.record fields) => some fields
  | _ => none

/-- Gives a field of a record a new value, or adds the field at the end. -/
def setField (v : Value) (name : Text) (x : Value) : Heap β :=
  match v, h.fields? v with
  | .object a, some fields => h.set a (.record (fields.put name x))
  | _, _ => h

end Heap

end Toplevel
