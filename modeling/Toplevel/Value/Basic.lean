import Toplevel.Number.Foreign

/-!
# Values and the heap

A value is an atom or the address of an object. Whatever has an identity stands in the heap:
records, tagged values, references and functions, and the lists, tuples, mappings and objects with
attributes that a host may hand over. Two addresses are equal exactly when they are the same
object, and an object may hold its own address.

A number that a host hands over may be undefined, and then it is not equal to itself. What is known
of it is which one it is; `undefinedFloat`, `decimal` and `complex` say so.

The type parameter of `Object` and `Heap` is the form in which a function keeps its body.
-/

namespace Toplevel

inductive Value where
  | bool (b : Bool)
  | int (i : Int)
  | float (x : Float)
  | string (t : Text)
  | null
  | undefined
  | undefinedFloat (id : Nat)
  | decimal (id : Nat) (d : DecimalValue)
  | fraction (f : Fraction)
  | complex (id : Nat) (z : Complex)
  | bytes (content : List Nat)
  | symbol (id : Nat) (name : Text)
  | builtin (id : Nat)
  | opaqueObject (id : Nat)
  | object (a : Nat)

instance : Inhabited Value := ⟨.null⟩

/-- A double as a host hands it over. -/
def Value.ofFloat (id : Nat) (x : Float) : Value :=
  if Binary.ofFloat x = .nan then .undefinedFloat id else .float x

abbrev Members := List (Text × Value)

namespace Members

/-- Replaces the value of a name where it stands, or adds the name at the end. -/
def put (m : Members) (name : Text) (v : Value) : Members :=
  match m with
  | [] => [(name, v)]
  | e :: m => if e.1 = name then (name, v) :: m else e :: put m name v

/-- Puts the entries of `news` one after another. -/
def putAll (m news : Members) : Members := news.foldl (fun m e => m.put e.1 e.2) m

theorem lookup_put (m : Members) (x y : Text) (v : Value) :
    (m.put x v).lookup y = if y = x then some v else m.lookup y := by
  induction m with
  | nil =>
    by_cases h : y = x
    · simp [put, h]
    · have hb : (y == x) = false := by simpa using h
      simp [put, List.lookup_cons, h, hb]
  | cons e m ih =>
    obtain ⟨k, w⟩ := e
    simp only [put]
    by_cases hk : k = x
    · subst hk
      by_cases h : y = k
      · simp [h]
      · have hb : (y == k) = false := by simpa using h
        simp [h, List.lookup_cons, hb]
    · by_cases h : y = k
      · subst h
        simp [hk]
      · have hb : (y == k) = false := by simpa using h
        simp [hk, List.lookup_cons, hb, ih]

end Members

inductive Object (β : Type) where
  | tagged (tag : Text) (payload : Value)
  | ref (target : Value)
  | record (fields : Members)
  | closure (param : Text) (body : β) (env : Members)
  | list (items : List Value)
  | tuple (items : List Value)
  | mapping (entries : List (Value × Value))
  | attributes (members : Members)

structure Heap (β : Type) where
  objects : Array (Object β)

namespace Heap

variable {β : Type}

def empty : Heap β := ⟨#[]⟩

def size (h : Heap β) : Nat := h.objects.size

def get? (h : Heap β) (a : Nat) : Option (Object β) := h.objects[a]?

def alloc (h : Heap β) (o : Object β) : Nat × Heap β := (h.size, ⟨h.objects.push o⟩)

def set (h : Heap β) (a : Nat) (o : Object β) : Heap β := ⟨h.objects.setIfInBounds a o⟩

def isEmptyTuple : Object β → Bool
  | .tuple [] => true
  | _ => false

/-- Puts a tuple at an address. All empty tuples are one object. -/
def tuple (h : Heap β) (items : List Value) : Nat × Heap β :=
  match items, h.objects.findIdx? isEmptyTuple with
  | [], some a => (a, h)
  | items, _ => h.alloc (.tuple items)

theorem get?_eq_none {h : Heap β} {a : Nat} : h.get? a = none ↔ h.size ≤ a := by
  simp [get?, size]

theorem lt_of_get? {h : Heap β} {a : Nat} {o : Object β} (ho : h.get? a = some o) :
    a < h.size := by
  refine Nat.lt_of_not_le fun hle => ?_
  rw [get?_eq_none.2 hle] at ho
  cases ho

@[simp]
theorem size_alloc (h : Heap β) (o : Object β) : (h.alloc o).2.size = h.size + 1 := by
  simp [alloc, size]

@[simp]
theorem size_set (h : Heap β) (a : Nat) (o : Object β) : (h.set a o).size = h.size := by
  simp [set, size]

theorem get?_alloc (h : Heap β) (o : Object β) : (h.alloc o).2.get? (h.alloc o).1 = some o := by
  simp [alloc, get?, size]

theorem get?_alloc_of_lt {h : Heap β} {a : Nat} (ha : a < h.size) (o : Object β) :
    (h.alloc o).2.get? a = h.get? a := by
  have hne : ¬a = h.objects.size := Nat.ne_of_lt ha
  simp [alloc, get?, Array.getElem?_push, hne]

theorem get?_set_self {h : Heap β} {a : Nat} (ha : a < h.size) (o : Object β) :
    (h.set a o).get? a = some o := by
  have ha' : a < h.objects.size := ha
  simp [set, get?, ha']

theorem get?_set_of_ne {h : Heap β} {a b : Nat} (hne : a ≠ b) (o : Object β) :
    (h.set a o).get? b = h.get? b := by
  simp [set, get?, hne]

def object? (h : Heap β) : Value → Option (Object β)
  | .object a => h.get? a
  | _ => none

/-- A value with an identity and a structure to look into: any object but a function. -/
def isStructured (h : Heap β) (v : Value) : Bool :=
  match h.object? v with
  | some (.closure ..) => false
  | some _ => true
  | none => false

/-- What counts as true: all but false, zero, the empty text and what is empty or absent. -/
def truth (h : Heap β) (v : Value) : Bool :=
  match v with
  | .bool b => b
  | .int i => i ≠ 0
  | .float x => !(x == Float.ofBits 0)
  | .string t => !t.isEmpty
  | .null | .undefined => false
  | .decimal _ (.finite _ d) => d.digits ≠ 0
  | .undefinedFloat _ | .decimal .. => true
  | .fraction f => f.num ≠ 0
  | .complex _ z => !(z.re == Float.ofBits 0 && z.im == Float.ofBits 0)
  | .bytes content => !content.isEmpty
  | .symbol .. | .builtin _ | .opaqueObject _ => true
  | .object a =>
    match h.get? a with
    | some (.record fields) => !fields.isEmpty
    | some (.list items) | some (.tuple items) => !items.isEmpty
    | some (.mapping entries) => !entries.isEmpty
    | _ => true

def typeName (h : Heap β) (v : Value) : Text :=
  match v with
  | .bool _ => "bool"
  | .int _ => "int"
  | .float _ | .undefinedFloat _ => "float"
  | .string _ => "str"
  | .null => "NoneType"
  | .undefined => "_Undefined"
  | .decimal .. => "decimal.Decimal"
  | .fraction _ => "Fraction"
  | .complex .. => "complex"
  | .bytes _ => "bytes"
  | .symbol .. => "Symbol"
  | .builtin _ => "builtin_function_or_method"
  | .opaqueObject _ => "object"
  | .object a =>
    match h.get? a with
    | some (.tagged ..) => "Tagged"
    | some (.ref _) => "Ref"
    | some (.record _) => "Record"
    | some (.closure ..) => "function"
    | some (.list _) => "list"
    | some (.tuple _) => "tuple"
    | some (.mapping _) => "dict"
    | _ => "object"

end Heap

end Toplevel
