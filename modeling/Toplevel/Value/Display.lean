import Std.Data.HashSet
import Toplevel.Value.Basic
import Toplevel.Text.Quoted

/-!
# How a value is displayed

`Heap.display` writes a value and all that can be reached from it, each object once: where an
object comes up again there is only a mark. What is still to be written stands on a stack, so that
long chains of objects take no room elsewhere.

The key of a mapping is displayed for itself and does not know what has been written around it. A
key may lead back to its own mapping; keys within keys are followed only so far.
-/

namespace Toplevel

inductive DisplayError where
  | tooManyDigits
  | tooDeep
deriving DecidableEq

/-- How many keys are displayed within each other. -/
def maxKeyDepth : Nat := 320

/-- The digits of a whole number, if there are not too many. -/
def intText? (i : Int) : Except DisplayError Text :=
  if power 10 maxDigits ≤ i.natAbs then .error .tooManyDigits else .ok (Text.ofInt i)

namespace Value

def atomText : Value → Except DisplayError Text
  | .bool b => .ok (if b then "true" else "false")
  | .int i => intText? i
  | .float x => .ok (Text.ofFloat x)
  | .string t => .ok t.jsonQuoted
  | .null => .ok "null"
  | .undefined => .ok "<undefined>"
  | .undefinedFloat _ => .ok (Text.ofFloat Binary.notANumber)
  | .decimal _ d => .ok (Text.withPoint d.text)
  | .fraction f => do
    let _ ← intText? f.num
    let _ ← intText? f.den
    return Text.withPoint f.text
  | .complex _ z => .ok (Text.withPoint z.text)
  | .bytes _ => .ok "<bytes>"
  | .symbol .. => .ok "<sym>"
  | .builtin _ => .ok "<fun>"
  | .opaqueObject _ => .ok "<object>"
  | .object _ => .ok "<fun>"

end Value

inductive Work where
  | text (t : Text)
  | value (v : Value)

/-- A display in progress: the pieces of text, the latest first, and the addresses of the objects
written so far. -/
structure Display where
  pieces : List Text
  seen : Std.HashSet Nat

namespace Display

def empty : Display := ⟨[], ∅⟩

def text (d : Display) : Text := d.pieces.reverse.flatten

def write (d : Display) (t : Text) : Display := { d with pieces := t :: d.pieces }

def mark (d : Display) (a : Nat) : Display := { d with seen := d.seen.insert a }

end Display

section
variable {β : Type} (h : Heap β) (keyText : Value → Except DisplayError Text)

/-- Entries between braces. The text of the last key is found first. -/
def entriesWork (before : Text) : List (Value × Value) → Except DisplayError (List Work)
  | [] => .ok [.text "\x7d"]
  | e :: es => do
    let rest ← entriesWork "; " es
    let key ← keyText e.1
    return .text (Text.concat [before, key, "="]) :: .value e.2 :: rest

def Members.entries (m : Members) : List (Value × Value) := m.map fun e => (.string e.1, e.2)

def itemEntries (items : List Value) : List (Value × Value) :=
  items.zipIdx.map fun e => (.int e.2, e.1)

def Object.work : Object β → Except DisplayError (List Work)
  | .tagged tag payload =>
    .ok [.text (if h.isStructured payload then tag else Text.concat [tag, " "]), .value payload]
  | .ref target => .ok [.text "ref ", .value target]
  | .closure .. => .ok [.text "<fun>"]
  | .record fields => braced fields.entries
  | .attributes members => braced members.entries
  | .list items => braced (itemEntries items)
  | .tuple items => braced (itemEntries items)
  | .mapping entries => braced entries
where
  braced (entries : List (Value × Value)) : Except DisplayError (List Work) := do
    return .text "\x7b" :: (← entriesWork keyText [] entries)

/-- Writes up to the next object that has not been written yet; gives its address and what is to
be written behind it. -/
def drain (d : Display) : List Work → Except DisplayError (Display × Option (Nat × List Work))
  | [] => .ok (d, none)
  | .text t :: stack => drain (d.write t) stack
  | .value v :: stack =>
    match v with
    | .object a =>
      if h.isStructured v then
        if d.seen.contains a then drain (d.write "...") stack else .ok (d, some (a, stack))
      else drain (d.write "<fun>") stack
    | v => do
      drain (d.write (← v.atomText)) stack

/-- Writes a stack of work in which at most `budget` objects are met for the first time. -/
def writeAll : Nat → Display → List Work → Except DisplayError Display
  | 0, d, _ => .ok d
  | budget + 1, d, stack => do
    let (d, next) ← drain h d stack
    match next with
    | none => return d
    | some (a, rest) =>
      let work ← match h.get? a with
        | some o => o.work h keyText
        | none => .ok []
      writeAll budget (d.mark a) (work ++ rest)

end

namespace Display

variable {β : Type} (h : Heap β)

/-- Writes a value behind what has been written, following keys at most `depth` deep. -/
def addWithin : Nat → Display → Value → Except DisplayError Display
  | 0, _, _ => .error .tooDeep
  | depth + 1, d, v =>
    let keyText := fun
      | .string t => .ok t
      | key => do return (← addWithin depth empty key).text
    writeAll h keyText (h.size + 1) d [.value v]

def add (d : Display) (v : Value) : Except DisplayError Display :=
  addWithin h (maxKeyDepth + 1) d v

end Display

def Heap.display {β : Type} (h : Heap β) (v : Value) : Except DisplayError Text := do
  return (← Display.empty.add h v).text

end Toplevel
