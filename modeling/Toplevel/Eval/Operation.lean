import Toplevel.Eval.Fault

/-!
# Operators on values

Numbers are doubles, and truth values count as the whole numbers zero and one: what is computed of
whole numbers alone is exact, and a quotient is always a double. A text can be extended by a text
and repeated a whole number of times. All values can be compared for equality, but only two
numbers or two texts have an order.
-/

namespace Toplevel

inductive Numeric where
  | int (i : Int)
  | float (x : Float)

namespace Numeric

def ofValue? : Value → Option Numeric
  | .bool b => some (int (if b then 1 else 0))
  | .int i => some (int i)
  | .float x => some (float x)
  | _ => none

def toFloat : Numeric → Except Fault Float
  | float x => .ok x
  | int i =>
    match floatOfInt? i with
    | some x => .ok x
    | none => .error .tooLargeForFloat

/-- Whole numbers are combined exactly, anything else as doubles; the left one is converted
first. -/
def combine (onInts : Int → Int → Except Fault Value) (onFloats : Float → Float → Except Fault Value)
    (a b : Numeric) : Except Fault Value :=
  match a, b with
  | int i, int j => onInts i j
  | a, b => do
    let x ← a.toFloat
    let y ← b.toFloat
    onFloats x y

def add : Numeric → Numeric → Except Fault Value :=
  combine (fun i j => .ok (.int (i + j))) fun x y => .ok (.float (x + y))

def sub : Numeric → Numeric → Except Fault Value :=
  combine (fun i j => .ok (.int (i - j))) fun x y => .ok (.float (x - y))

def mul : Numeric → Numeric → Except Fault Value :=
  combine (fun i j => .ok (.int (i * j))) fun x y => .ok (.float (x * y))

/-- The quotient of two whole numbers, correctly rounded; a negative divisor gives zero a sign. -/
def divideInts (i j : Int) : Except Fault Value :=
  if j = 0 then .error .divisionByZero
  else
    match floatOfRatio? (decide (i < 0) != decide (j < 0)) i.natAbs j.natAbs with
    | some x => .ok (.float x)
    | none => .error .quotientTooLarge

def div : Numeric → Numeric → Except Fault Value :=
  combine divideInts fun x y =>
    if y == Float.ofBits 0 then .error .floatDivisionByZero else .ok (.float (x / y))

/-- How two numbers compare; neither way if one of them is undefined. -/
def order? : Numeric → Numeric → Option Ordering
  | int i, int j => some (compare i j)
  | float x, int j => compareWithInt? x j
  | int i, float y => (compareWithInt? y i).map Ordering.swap
  | float x, float y =>
    if x < y then some .lt else if x == y then some .eq else if y < x then some .gt else none

end Numeric

/-- Whether a comparison holds of two values that compare so. -/
def Operator.holds (op : Operator) (o : Option Ordering) : Bool :=
  match op with
  | .less => o = some .lt
  | .lessEqual => o = some .lt || o = some .eq
  | .greater => o = some .gt
  | .greaterEqual => o = some .gt || o = some .eq
  | .equal => o = some .eq
  | .notEqual => o ≠ some .eq
  | _ => false

def Text.order (s t : Text) : Ordering := if s = t then .eq else if Text.lt s t then .lt else .gt

/-- Equality of values; two objects are equal if they are the same. -/
def Value.equal (v w : Value) : Bool :=
  match Numeric.ofValue? v, Numeric.ofValue? w with
  | some a, some b => a.order? b = some .eq
  | _, _ =>
    match v, w with
    | .string s, .string t => s = t
    | .object a, .object b => a = b
    | .null, .null | .undefined, .undefined => true
    | .symbol i _, .symbol j _ | .builtin i, .builtin j | .opaqueObject i, .opaqueObject j => i = j
    | _, _ => false

/-- The number of code points of the longest text that has a length. -/
def maxLength : Nat := power 2 63 - 1

/-- The number of code points of the longest text that there is room for. -/
def maxRoom : Nat := power 2 24

/-- A text as often as a whole number says; not at all if that is negative. -/
def Text.repeated (t : Text) (count : Int) : Except Fault Text :=
  if count < -(maxLength + 1) ∨ maxLength < count then .error .countTooLarge
  else
    let n := count.toNat
    if maxLength < t.length * n then .error .textTooLong
    else if maxRoom < t.length * n then .error .outOfMemory
    else if t.isEmpty then .ok []
    else .ok (List.replicate n t).flatten

namespace Heap

variable {β : Type} (h : Heap β)

def compared (op : Operator) (v w : Value) : Except Fault Value :=
  match Numeric.ofValue? v, Numeric.ofValue? w with
  | some a, some b => .ok (.bool (op.holds (a.order? b)))
  | _, _ =>
    match v, w with
    | .string s, .string t => .ok (.bool (op.holds (some (s.order t))))
    | _, _ => .error (.notOrdered op (h.typeName v) (h.typeName w))

def repeatText (t : Text) (count : Value) : Except Fault Value :=
  match Numeric.ofValue? count with
  | some (.int i) => do return .string (← t.repeated i)
  | _ => .error (.notRepeatable (h.typeName count))

def operate (op : Operator) (v w : Value) : Except Fault Value :=
  match op with
  | .equal => .ok (.bool (v.equal w))
  | .notEqual => .ok (.bool !v.equal w)
  | .less | .lessEqual | .greater | .greaterEqual => h.compared op v w
  | .plus | .minus | .times | .divide =>
    match Numeric.ofValue? v, Numeric.ofValue? w with
    | some a, some b => arithmetic op a b
    | _, _ =>
      match op, v, w with
      | .plus, .string s, .string t => .ok (.string (s ++ t))
      | .plus, .string _, w => .error (.notConcatenable (h.typeName w))
      | .times, .string s, w => h.repeatText s w
      | .times, v, .string t => h.repeatText t v
      | _, _, _ => .error (.unsupportedOperands op (h.typeName v) (h.typeName w))
where
  arithmetic : Operator → Numeric → Numeric → Except Fault Value
    | .plus => Numeric.add
    | .minus => Numeric.sub
    | .times => Numeric.mul
    | _ => Numeric.div

def real (v : Value) : Except Fault Float :=
  match Numeric.ofValue? v with
  | some a => a.toFloat
  | none => .error (.notReal (h.typeName v))

/-- The remainder of two numbers, always a double. -/
def remainder (v w : Value) : Except Fault Value := do
  let x ← h.real v
  let y ← h.real w
  match floatRemainder? x y with
  | some r => return .float r
  | none => throw .remainderUndefined

def negate (v : Value) : Except Fault Value :=
  match Numeric.ofValue? v with
  | some (.int i) => .ok (.int (-i))
  | some (.float x) => .ok (.float (-x))
  | none => .error (.notNegatable (h.typeName v))

end Heap

end Toplevel
