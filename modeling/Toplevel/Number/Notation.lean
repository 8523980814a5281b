import Toplevel.Text.Basic
import Toplevel.Number.Shortest

/-!
# Written numbers

`Text.ofFloat` writes a double with the fewest digits that read back: with a point while the
leading digit stands between the fourth place after the point and the sixteenth before it, and
with an exponent of at least two digits otherwise. `Decimal.scan?` reads an unsigned decimal from
the front of a text, and `Decimal.toFloat` rounds it to the nearest double.
-/

namespace Toplevel

namespace Text

def zeros (n : Nat) : Text := List.replicate n '0'

/-- Digits with the point after the first `point` of them; `whole` is put behind a number that
has no digit after the point. -/
def placePoint (digits : Text) (point : Int) (whole : Text) : Text :=
  if point ≤ 0 then '0' :: '.' :: (zeros (-point).toNat ++ digits)
  else
    let n := point.toNat
    if digits.length ≤ n then digits ++ zeros (n - digits.length) ++ whole
    else digits.take n ++ (('.' : CodePoint) :: digits.drop n)

def exponent (e : Int) : Text :=
  let digits := ofNat e.natAbs
  'e' :: (if e < 0 then '-' else '+') :: (zeros (2 - digits.length) ++ digits)

/-- One digit, the point and the other digits, if there are others. -/
def leadingDigit : Text → Text
  | [] => []
  | [d] => [d]
  | d :: ds => d :: '.' :: ds

/-- The decimal `c * 10 ^ t`, with `whole` behind it where it is a whole number written without
an exponent. -/
def ofDecimal (c : Nat) (t : Int) (whole : Text) : Text :=
  let all := ofNat c
  let digits := (all.reverse.dropWhile fun d => d.val == '0'.toNat).reverse
  let point : Int := all.length + t
  if -4 < point ∧ point ≤ 16 then placePoint digits point whole
  else leadingDigit digits ++ exponent (point - 1)

/-- The size of a double without its sign. -/
def ofMagnitude (m : Nat) (q : Int) (whole : Text) : Text :=
  if m = 0 then '0' :: whole
  else
    let (c, t) := shortest m q
    ofDecimal c t whole

def signed (negative : Bool) (t : Text) : Text := if negative then '-' :: t else t

/-- A double in words or digits, with `whole` behind a whole number. -/
def ofFloatWith (whole : Text) (x : Float) : Text :=
  match Binary.ofFloat x with
  | .nan => ['n', 'a', 'n']
  | .infinite negative => signed negative ['i', 'n', 'f']
  | .finite negative m q => signed negative (ofMagnitude m q whole)

/-- A double as it is displayed and as it stands in code: always with a point or an exponent. -/
def ofFloat (x : Float) : Text := ofFloatWith ['.', '0'] x

end Text

structure Decimal where
  digits : Nat
  exponent : Int
deriving DecidableEq

namespace Decimal

/-- A point and digits after it, or neither. -/
def scanFraction : Text → Text × Text
  | [] => ([], [])
  | c :: t =>
    if c = ('.' : CodePoint) then (t.takeWhile CodePoint.isDigit, t.dropWhile CodePoint.isDigit)
    else ([], c :: t)

/-- An exponent at the front of a text, zero if there is none. -/
def scanExponent : Text → Int × Text
  | [] => (0, [])
  | c :: t =>
    if c = ('e' : CodePoint) || c = ('E' : CodePoint) then
      let negative := t.head? == some ('-' : CodePoint)
      let t' := if negative || t.head? == some ('+' : CodePoint) then t.drop 1 else t
      let digits := t'.takeWhile CodePoint.isDigit
      if digits.isEmpty then (0, c :: t)
      else
        let e : Int := Text.digitsValue digits
        (if negative then -e else e, t'.dropWhile CodePoint.isDigit)
    else (0, c :: t)

/-- An unsigned decimal at the front of a text and what follows it. -/
def scan? (t : Text) : Option (Decimal × Text) :=
  let whole := t.takeWhile CodePoint.isDigit
  let (fraction, t) := scanFraction (t.dropWhile CodePoint.isDigit)
  if whole.isEmpty && fraction.isEmpty then none
  else
    let (e, t) := scanExponent t
    some (⟨Text.digitsValue (whole ++ fraction), e - fraction.length⟩, t)

/-- The nearest double, infinite beyond them all. An exponent far outside the range of doubles
is not multiplied out. -/
def toFloat (d : Decimal) : Float :=
  let places : Int := (Text.ofNat d.digits).length + d.exponent
  if d.digits = 0 || places < -400 then Float.ofBits 0
  else if 400 < places then Binary.infinity false
  else
    (floatOfRatio? false (d.digits * power 10 d.exponent) (power 10 (-d.exponent))).getD
      (Binary.infinity false)

end Decimal

/-- The double that a number literal denotes. -/
def floatOfLiteral (t : Text) : Float :=
  match Decimal.scan? t with
  | some (d, _) => d.toFloat
  | none => Float.ofBits 0

end Toplevel
