import Toplevel.Proofs.Value.PlainData

/-!
# Data

Data are truth values, numbers and texts, and the records and tagged values that are built from
them: plain data without references. A value that holds data (`Heap.Holds`) is displayed as the data
is (`Heap.Holds.display`).
-/

namespace Toplevel

mutual

inductive Data where
  | bool (b : Bool)
  | number (x : Float)
  | string (t : Text)
  | record (fields : DataFields)
  | tagged (tag : Text) (payload : Data)

inductive DataFields where
  | nil
  | cons (name : Text) (value : Data) (rest : DataFields)

end

/-! ### Values that hold data -/

section

variable {β : Type} (h : Heap β)

mutual

/-- A value is some data, with objects at these addresses: each in front of those that it leads to,
and as often as it comes up. -/
inductive Data.HeldAt : Data → Value → List Nat → Prop
  | bool (b : Bool) : Data.HeldAt (.bool b) (.bool b) []
  | number (x : Float) : Data.HeldAt (.number x) (.float x) []
  | string (t : Text) : Data.HeldAt (.string t) (.string t) []
  | record {fields : DataFields} {members : Members} {a : Nat} {as : List Nat}
    (ha : h.get? a = some (.record members)) (hfields : DataFields.HeldAt fields members as) :
    Data.HeldAt (.record fields) (.object a) (a :: as)
  | tagged {tag : Text} {payload : Data} {v : Value} {a : Nat} {as : List Nat}
    (ha : h.get? a = some (.tagged tag v)) (hpayload : Data.HeldAt payload v as) :
    Data.HeldAt (.tagged tag payload) (.object a) (a :: as)

inductive DataFields.HeldAt : DataFields → Members → List Nat → Prop
  | nil : DataFields.HeldAt .nil [] []
  | cons {x : Text} {d : Data} {rest : DataFields} {v : Value} {members : Members}
    {as bs : List Nat} (hd : Data.HeldAt d v as) (hrest : DataFields.HeldAt rest members bs) :
    DataFields.HeldAt (.cons x d rest) ((x, v) :: members) (as ++ bs)

end

/-- A value holds data in a heap: no object of it comes up twice. -/
def Heap.Holds (v : Value) (d : Data) : Prop := ∃ as, d.HeldAt h v as ∧ as.Nodup

end

/-! ### The text of data -/

def Data.isComposite : Data → Bool
  | .record _ | .tagged .. => true
  | _ => false

/-- A tag in front of its payload, with a blank between them if the payload has no structure. -/
def Data.tagText (payload : Data) (tag : Text) : Text :=
  if payload.isComposite then tag else Text.concat [tag, " "]

mutual

/-- How data is displayed. -/
def Data.text : Data → Text
  | .bool b => if b then "true" else "false"
  | .number x => Text.ofFloat x
  | .string t => t.jsonQuoted
  | .record fields => ('\x7b' : CodePoint) :: fields.text []
  | .tagged tag payload => payload.tagText tag ++ payload.text

/-- Fields with `before` in front of the first and a semicolon in front of the others, and the brace
that closes them. -/
def DataFields.text (before : Text) : DataFields → Text
  | .nil => "\x7d"
  | .cons x d rest => Text.concat [before, x, "="] ++ (d.text ++ rest.text "; ")

end

/-! ### Data are plain data -/

mutual

def Data.plain : Data → PlainData
  | .bool b => .bool b
  | .number x => .number x
  | .string t => .string t
  | .record fields => .record fields.plain
  | .tagged tag payload => .tagged tag payload.plain

def DataFields.plain : DataFields → PlainFields
  | .nil => .nil
  | .cons x d rest => .cons x d.plain rest.plain

end

theorem Data.tagText_plain (payload : Data) (tag : Text) :
    payload.plain.tagText tag = payload.tagText tag := by
  cases payload <;> rfl

mutual

theorem Data.text_plain : ∀ d : Data, d.plain.text = d.text
  | .bool _ | .number _ | .string _ => rfl
  | .record fields => congrArg (('\x7b' : CodePoint) :: ·) (fields.text_plain [])
  | .tagged tag payload => congrArg₂ (· ++ ·) (payload.tagText_plain tag) payload.text_plain

theorem DataFields.text_plain : ∀ (fs : DataFields) (before : Text),
    fs.plain.text before = fs.text before
  | .nil, _ => rfl
  | .cons x d rest, before => by
    rw [DataFields.plain, PlainFields.text, DataFields.text, d.text_plain, rest.text_plain]

end

section

variable {β : Type} {h : Heap β}

mutual

theorem Data.heldAt_plain : ∀ {d : Data} {v : Value} {as : List Nat}, d.HeldAt h v as →
    d.plain.HeldAt h v as
  | _, _, _, .bool b => .bool b
  | _, _, _, .number x => .number x
  | _, _, _, .string t => .string t
  | _, _, _, .record ha hfields => .record ha (DataFields.heldAt_plain hfields)
  | _, _, _, .tagged ha hpayload => .tagged ha (Data.heldAt_plain hpayload)

theorem DataFields.heldAt_plain : ∀ {fs : DataFields} {members : Members} {as : List Nat},
    fs.HeldAt h members as → fs.plain.HeldAt h members as
  | _, _, _, .nil => .nil
  | _, _, _, .cons hd hrest => .cons (Data.heldAt_plain hd) (DataFields.heldAt_plain hrest)

end

/-- A value that holds data is displayed as the data is. -/
theorem Heap.Holds.display {v : Value} {d : Data} (hd : h.Holds v d) :
    h.display v = .ok d.text := by
  obtain ⟨as, hd, hnodup⟩ := hd
  have hunfolds : h.Unfolds v d.plain := ⟨as, Data.heldAt_plain hd, hnodup⟩
  rw [hunfolds.display, d.text_plain]

end

end Toplevel
