import Toplevel.Number.Power

/-!
# Binary floating point, exactly

A finite double is a whole number of units `2 ^ q`. `Binary` shows the number and the unit, and
`floatOfRatio?` goes the other way: it rounds an exact quotient to the nearest double, a tie to
the even one. Remainders, comparisons with whole numbers and decimal text are all computed on this
exact form.
-/

namespace Toplevel

/-- What a double stands for; `finite negative m q` is `m * 2 ^ q` with a sign. -/
inductive Binary where
  | nan
  | infinite (negative : Bool)
  | finite (negative : Bool) (significand : Nat) (exponent : Int)
deriving DecidableEq

namespace Binary

def ofFloat (x : Float) : Binary :=
  let bits : Nat := x.toBits.toNat
  let negative := decide (power 2 63 ≤ bits)
  let biased : Nat := bits / power 2 52 % power 2 11
  let fraction : Nat := bits % power 2 52
  if biased = 2047 then
    if fraction = 0 then .infinite negative else .nan
  else if biased = 0 then .finite negative fraction (-1074)
  else .finite negative (power 2 52 + fraction) ((biased : Int) - 1075)

end Binary

/-- The whole number nearest to a quotient, the even one if two are equally near. -/
def roundDiv (num den : Nat) : Nat :=
  if 2 * (num % den) < den then num / den
  else if den < 2 * (num % den) then num / den + 1
  else num / den + num / den % 2

theorem roundDiv_mul_self {n d : Nat} (h : 0 < d) : roundDiv (n * d) d = n := by
  simp [roundDiv, Nat.mul_mod_left, h]

/-- The unit in which the double nearest to `num / den` counts: at least `2 ^ 52` and less than
`2 ^ 53` units, unless that unit is too small to have. -/
def unitExponent (num den : Nat) : Int :=
  let e : Int := (num.log2 : Int) - den.log2
  let q := if num * power 2 (-e) < den * power 2 e then e - 53 else e - 52
  max q (-1074)

def signBit (negative : Bool) : Nat := if negative then power 2 63 else 0

/-- The double nearest to `num / den` with the given sign, `none` if it is beyond all doubles. -/
def floatOfRatio? (negative : Bool) (num den : Nat) : Option Float :=
  if num = 0 then some (Float.ofBits (UInt64.ofNat (signBit negative)))
  else
    let q := unitExponent num den
    let units := roundDiv (num * power 2 (-q)) (den * power 2 q)
    let bits := (q + 1074).toNat * power 2 52 + units
    if bits < 2047 * power 2 52 then some (Float.ofBits (UInt64.ofNat (signBit negative + bits)))
    else none

def floatOfInt? (i : Int) : Option Float := floatOfRatio? (i < 0) i.natAbs 1

def Binary.infinity (negative : Bool) : Float :=
  Float.ofBits (UInt64.ofNat (signBit negative + 2047 * power 2 52))

def Binary.notANumber : Float := Float.ofBits (UInt64.ofNat (2047 * power 2 52 + power 2 51))

/-- The remainder of the division that truncates, with the sign of the dividend. There is none of
an infinite dividend or by zero, unless the other number is undefined already. -/
def floatRemainder? (x y : Float) : Option Float :=
  match Binary.ofFloat x, Binary.ofFloat y with
  | .nan, _ => some x
  | _, .nan => some y
  | .infinite _, _ => none
  | .finite .., .infinite _ => some x
  | .finite negative m q, .finite _ n r =>
    let unit := min q r
    let divisor := n * power 2 (r - unit)
    if divisor = 0 then none
    else
      let rest := m * power 2 (q - unit) % divisor
      floatOfRatio? negative (rest * power 2 unit) (power 2 (-unit))

/-- How a double compares with a whole number; neither way if it is not a number. -/
def compareWithInt? (x : Float) (i : Int) : Option Ordering :=
  match Binary.ofFloat x with
  | .nan => none
  | .infinite negative => some (if negative then .lt else .gt)
  | .finite negative m q =>
    let n : Int := if negative then -(m : Int) else m
    some (compare (n * power 2 q) (i * power 2 (-q)))

end Toplevel
