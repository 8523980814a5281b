import Toplevel.Value.Basic

/-!
# Keys of mappings

A mapping finds a value by its key. Numbers of one value are one key whatever their types, texts
are compared by content and tuples item by item, and what has an identity is its own key. Lists and
mappings are no keys. A number that is undefined has no value, so it is its own key too.

The value of a number is written as a quotient of which all factors ten are taken out. That form is
unique, and it is short for a decimal with an exponent far from zero.

A key is flat: the parts of a tuple stand between two brackets, so that keys are compared part by
part.
-/

namespace Toplevel

inductive ExactNumber where
  /-- The number `value * 10 ^ tens`; neither side of `value` can be divided by ten. -/
  | finite (value : Fraction) (tens : Int)
  | infinite (negative : Bool)
  | undefined (id : Option Nat)
deriving DecidableEq

namespace ExactNumber

def zero : ExactNumber := finite ⟨0, 1⟩ 0

/-- Divides by `b` as often as it can be done without a remainder, at most `limit` times; `count`
divisions came before. -/
def divideOut (b : Nat) : Nat → Nat → Nat → Nat × Nat
  | 0, n, count => (n, count)
  | limit + 1, n, count =>
    if n % b = 0 then divideOut b limit (n / b) (count + 1) else (n, count)

def signed (negative : Bool) (n : Nat) : Int := if negative then -n else n

def ofFraction (f : Fraction) : ExactNumber :=
  let n := f.num.natAbs
  if n = 0 then zero
  else
    let (num, up) := divideOut 10 n.log2 n 0
    let (den, down) := divideOut 10 f.den.log2 f.den 0
    finite ⟨signed (f.num < 0) num, den⟩ (up - down)

def ofInt (i : Int) : ExactNumber := ofFraction ⟨i, 1⟩

/-- The value of a decimal. Of its digits, without the zeros at the end, two or five is no
factor. -/
def ofDecimal (negative : Bool) (d : Decimal) : ExactNumber :=
  if d.digits = 0 then zero
  else
    let (c, zeros) := divideOut 10 d.digits.log2 d.digits 0
    let e := d.exponent + zeros
    if 0 ≤ e then finite ⟨signed negative c, 1⟩ e
    else
      let (c, twos) := divideOut 2 (-e).toNat c 0
      let (c, fives) := divideOut 5 (-e).toNat c 0
      finite ⟨signed negative c, power 2 fives * power 5 twos⟩ (e + twos + fives)

/-- The value of a double, given which one it is if that is known. -/
def ofFloat (id : Option Nat) (x : Float) : ExactNumber :=
  match Binary.ofFloat x with
  | .nan => undefined id
  | .infinite negative => infinite negative
  | .finite negative m q =>
    ofFraction (Fraction.reduce (signed negative (m * power 2 q)) (power 2 (-q)))

end ExactNumber

inductive KeyPart where
  | number (n : ExactNumber)
  | complex (re im : ExactNumber)
  | string (t : Text)
  | bytes (content : List Nat)
  | null
  | undefined
  | symbol (id : Nat)
  | builtin (id : Nat)
  | opaqueObject (id : Nat)
  | object (a : Nat)
  | opening
  | closing
deriving DecidableEq

/-- A complex number on the real line is the key that its real part is. -/
def KeyPart.ofComplex (id : Nat) (z : Complex) : KeyPart :=
  let im := ExactNumber.ofFloat id z.im
  if im = .zero then number (.ofFloat id z.re) else complex (.ofFloat id z.re) im

abbrev Key := List KeyPart

inductive KeyError where
  | list
  | mapping
  | signalingNumber
deriving DecidableEq

def KeyError.message : KeyError → Text
  | list => "unhashable type: 'list'"
  | mapping => "unhashable type: 'dict'"
  | signalingNumber => "Cannot hash a signaling NaN value"

namespace Heap

variable {β : Type} (h : Heap β)

/-- The key that a value is, with tuples at most `depth` deep in each other. -/
def keyWithin : Nat → Value → Except KeyError Key
  | 0, _ => .ok []
  | depth + 1, v =>
    match v with
    | .bool b => .ok [.number (.ofInt (if b then 1 else 0))]
    | .int i => .ok [.number (.ofInt i)]
    | .float x => .ok [.number (.ofFloat none x)]
    | .undefinedFloat id => .ok [.number (.undefined id)]
    | .string t => .ok [.string t]
    | .null => .ok [.null]
    | .undefined => .ok [.undefined]
    | .decimal _ (.finite negative d) => .ok [.number (.ofDecimal negative d)]
    | .decimal _ (.infinite negative) => .ok [.number (.infinite negative)]
    | .decimal id (.nan _ signaling _) =>
      if signaling then .error .signalingNumber else .ok [.number (.undefined id)]
    | .fraction f => .ok [.number (.ofFraction f)]
    | .complex id z => .ok [.ofComplex id z]
    | .bytes content => .ok [.bytes content]
    | .symbol id _ => .ok [.symbol id]
    | .builtin id => .ok [.builtin id]
    | .opaqueObject id => .ok [.opaqueObject id]
    | .object a =>
      match h.get? a with
      | some (.list _) => .error .list
      | some (.mapping _) => .error .mapping
      | some (.tuple items) => do
        let keys ← items.mapM (keyWithin depth)
        return .opening :: (keys.flatten ++ [.closing])
      | _ => .ok [.object a]

/-- The key that a value is; tuples are built before what holds them. -/
def key (v : Value) : Except KeyError Key := h.keyWithin (h.size + 1) v

def hasKey (k : Key) (v : Value) : Bool :=
  match h.key v with
  | .ok l => k = l
  | .error _ => false

end Heap

/-- Replaces the value behind the first key that `found` accepts, or adds an entry at the end; the
key that stands there stays. -/
def putEntry (found : Value → Bool) (k v : Value) : List (Value × Value) → List (Value × Value)
  | [] => [(k, v)]
  | e :: es => if found e.1 then (e.1, v) :: es else e :: putEntry found k v es

def Heap.insert {β : Type} (h : Heap β) (a : Nat) (k v : Value) : Except KeyError (Heap β) := do
  let key ← h.key k
  match h.get? a with
  | some (.mapping entries) => return h.set a (.mapping (putEntry (h.hasKey key) k v entries))
  | _ => return h

end Toplevel
