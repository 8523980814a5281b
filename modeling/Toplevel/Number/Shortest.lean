import Toplevel.Number.Binary

/-!
# The shortest decimal that reads back

The reals that round to the double `m * 2 ^ q` form an interval, closed exactly when `m` is even.
`shortest m q` looks for a decimal in it on the grid of one digit, of two, and so on; the first
grid that has one decides, and of two points on it the nearer wins, the even one on a tie. Only
the two neighbours of the double on a grid need looking at.
-/

namespace Toplevel

/-- The interval of the reals that round to a double, with the double itself, all three as
numerators over `den`. -/
structure Rounding where
  low : Nat
  value : Nat
  high : Nat
  den : Nat
  closed : Bool

/-- Below a power of two the doubles lie twice as dense, so the lower half gap is halved. -/
def Rounding.of (m : Nat) (q : Int) : Rounding :=
  let gap := if m = power 2 52 ∧ -1074 < q then 1 else 2
  let scale := power 2 (q - 2)
  { low := (4 * m - gap) * scale
    value := 4 * m * scale
    high := (4 * m + 2) * scale
    den := power 2 (2 - q)
    closed := m % 2 = 0 }

namespace Rounding

variable (r : Rounding)

/-- Whether `c * 10 ^ t` rounds to the double. -/
def holds (c : Nat) (t : Int) : Bool :=
  let x := c * power 10 t * r.den
  let k := power 10 (-t)
  if r.closed then r.low * k ≤ x && x ≤ r.high * k else r.low * k < x && x < r.high * k

/-- The greatest point of the grid of unit `10 ^ t` that is not above the double. -/
def floorAt (t : Int) : Nat := r.value * power 10 (-t) / (r.den * power 10 t)

/-- How far the double lies above that point: less than half a unit, half of one, or more. -/
def sideAt (t : Int) : Ordering :=
  compare (2 * (r.value * power 10 (-t) % (r.den * power 10 t))) (r.den * power 10 t)

/-- The point of the grid of unit `10 ^ t` that reads back and is nearest, if one reads back. -/
def pointAt? (t : Int) : Option Nat :=
  let n := r.floorAt t
  match r.holds n t, r.holds (n + 1) t with
  | true, true =>
    match r.sideAt t with
    | .lt => some n
    | .gt => some (n + 1)
    | .eq => some (n + n % 2)
  | true, false => some n
  | false, true => some (n + 1)
  | false, false => none

/-- The place of the leading decimal digit of `m * 2 ^ q`. -/
def leadingPlace (m : Nat) (q : Int) : Int :=
  let e := ((m.log2 : Int) + q) * 30103 / 100000
  if power 10 (e + 1) * power 2 (-q) ≤ m * power 2 q * power 10 (-(e + 1)) then e + 1
  else e

end Rounding

/-- The shortest decimal `c * 10 ^ t` that rounds to `m * 2 ^ q`, for positive `m`. Seventeen
digits always read back. -/
def shortest (m : Nat) (q : Int) : Nat × Int :=
  let r := Rounding.of m q
  let place := Rounding.leadingPlace m q
  let points := (List.range 17).findSome? fun (k : Nat) =>
    (r.pointAt? (place - (k : Int))).map fun c => (c, place - (k : Int))
  points.getD (r.floorAt (place - 16), place - 16)

end Toplevel
