import Toplevel.Number.Notation
import Toplevel.Text.Digits

/-!
# Numbers that programs do not have

A host may hand over decimals, fractions and complex numbers. They are only read, compared as keys
of a mapping, and displayed.

A decimal keeps its trailing zeros and its exponent. It is written out while its exponent is not
positive and its leading digit is not past the sixth place after the point.
-/

namespace Toplevel

namespace Text

/-- Removes each underscore between two digits; `none` if there is one elsewhere. -/
def dropUnderscores? : Bool → Text → Option Text
  | _, [] => some []
  | afterDigit, c :: t =>
    if c = ('_' : CodePoint) then
      if afterDigit && t.head?.any CodePoint.isDigit then dropUnderscores? false t else none
    else (dropUnderscores? c.isDigit t).map (c :: ·)

def takeSign : Text → Option Bool × Text
  | [] => (none, [])
  | c :: t =>
    if c = ('-' : CodePoint) then (some true, t)
    else if c = ('+' : CodePoint) then (some false, t)
    else (none, c :: t)

/-- A number whose text is digits alone gets a point, so that it does not look like an integer. -/
def withPoint (t : Text) : Text :=
  let digits := (takeSign t).2
  if !digits.isEmpty && t.head? ≠ some ('+' : CodePoint) && digits.all CodePoint.isDigit then
    concat [t, ".0"]
  else t

end Text

/-- The longest whole number that is read or written out has this many digits. -/
def maxDigits : Nat := 4300

inductive IntError where
  | malformed
  | tooLong (digits : Nat)
deriving DecidableEq

/-- Refuses digits if there are too many of them. -/
def checkLength (digits : Text) : Except IntError Unit :=
  if maxDigits < digits.length then .error (.tooLong digits.length) else .ok ()

/-- Reads a whole number: an optional sign, then digits, with single underscores between them. What
follows the digits is looked at last. -/
def readInt (t : Text) : Except IntError Int :=
  let (negative, t) := Text.takeSign t.plainNumber
  let isPart := fun (c : CodePoint) => c.isDigit || c = ('_' : CodePoint)
  match Text.dropUnderscores? false (t.takeWhile isPart) with
  | none | some [] => .error .malformed
  | some digits => do
    checkLength digits
    if (t.dropWhile isPart).isEmpty then
      let n : Int := Text.digitsValue digits
      return if negative = some true then -n else n
    else throw .malformed

/-- Reads a double from the front of a text: an infinity, not a number, or a decimal. -/
def scanFloat? (t : Text) : Option (Float × Text) :=
  let (negative, t) := Text.takeSign t
  let sign := fun (x : Float) => if negative = some true then -x else x
  let lower := t.toLower
  if (Text.ofString "infinity").isPrefixOf lower then some (sign (Binary.infinity false), t.drop 8)
  else if (Text.ofString "inf").isPrefixOf lower then some (sign (Binary.infinity false), t.drop 3)
  else if (Text.ofString "nan").isPrefixOf lower then some (Binary.notANumber, t.drop 3)
  else (Decimal.scan? t).map fun (d, t) => (sign d.toFloat, t)

/-- Reads a double that is the whole of a text, blanks around it apart. -/
def readFloat? (t : Text) : Option Float := do
  let t ← Text.dropUnderscores? false t.plainNumber
  let (x, rest) ← scanFloat? t
  if rest.isEmpty then some x else none

/-- A decimal number with a sign of its own, or one of the values that are not numbers. -/
inductive DecimalValue where
  | finite (negative : Bool) (value : Decimal)
  | infinite (negative : Bool)
  | nan (negative signaling : Bool) (payload : Text)
deriving DecidableEq

namespace DecimalValue

inductive ReadError where
  | malformed
  | outOfRange
deriving DecidableEq

/-- The greatest exponent that the leading digit of a decimal can have. -/
def maxExponent : Int := 999999999999999999

/-- The least exponent that the last digit of a decimal can have. -/
def minExponent : Int := -1999999999999999997

/-- Whether the exponents of a decimal are within the bounds. -/
def inRange (d : Decimal) : Bool :=
  minExponent ≤ d.exponent && d.exponent + ((Text.ofNat d.digits).length - 1) ≤ maxExponent

def readSpecial? (negative : Bool) (t : Text) : Option DecimalValue :=
  if t = "inf" || t = "infinity" then some (infinite negative)
  else
    let signaling := t.head? = some ('s' : CodePoint)
    let t := if signaling then t.drop 1 else t
    if (Text.ofString "nan").isPrefixOf t && (t.drop 3).all CodePoint.isDigit then
      some (nan negative signaling ((t.drop 3).dropWhile fun d => d.val = '0'.toNat))
    else none

/-- Reads a decimal. Underscores mean nothing wherever they stand. -/
def read (t : Text) : Except ReadError DecimalValue :=
  let t := Text.plainDigits (t.strip.filter fun c => c ≠ ('_' : CodePoint))
  let (sign, t) := Text.takeSign t
  let negative := sign = some true
  match readSpecial? negative t.toLower with
  | some d => .ok d
  | none =>
    match Decimal.scan? t with
    | some (d, []) => if inRange d then .ok (finite negative d) else .error .outOfRange
    | _ => .error .malformed

/-- An exponent behind a decimal, with its sign. -/
def exponentText (e : Int) : Text :=
  if e = 0 then []
  else Text.concat ["E", if 0 < e then "+" else [], Text.ofInt e]

def text : DecimalValue → Text
  | finite negative d =>
    let digits := Text.ofNat d.digits
    let left := d.exponent + digits.length
    let point := if d.exponent ≤ 0 ∧ -6 < left then left else 1
    Text.signed negative
      (Text.concat [Text.placePoint digits point [], exponentText (left - point)])
  | infinite negative => Text.signed negative "Infinity"
  | nan negative signaling payload =>
    Text.signed negative (Text.concat [if signaling then "sNaN" else "NaN", payload])

end DecimalValue

structure Fraction where
  num : Int
  den : Nat
deriving DecidableEq

namespace Fraction

def reduce (num : Int) (den : Nat) : Fraction :=
  let g := Nat.gcd num.natAbs den
  ⟨num / g, den / g⟩

inductive ReadError where
  | malformed
  | tooLong (digits : Nat)
  | zeroDenominator (num : Int)
deriving DecidableEq

def ReadError.ofInt : IntError → ReadError
  | .malformed => malformed
  | .tooLong digits => tooLong digits

/-- The quotient of two runs of digits. -/
def readQuotient (sign : Int) (num den : Text) : Except ReadError Fraction := do
  (checkLength num).mapError ReadError.ofInt
  (checkLength den).mapError ReadError.ofInt
  let n := sign * (Text.digitsValue num : Int)
  if Text.digitsValue den = 0 then throw (.zeroDenominator n)
  return reduce n (Text.digitsValue den)

/-- A decimal as a fraction; its parts are whole numbers of their own. -/
def readDecimal (sign : Int) (t : Text) : Except ReadError Fraction :=
  match Decimal.scan? t with
  | some (d, []) => do
    let (fraction, exponent) := Decimal.scanFraction (t.dropWhile CodePoint.isDigit)
    (checkLength (t.takeWhile CodePoint.isDigit)).mapError ReadError.ofInt
    (checkLength fraction).mapError ReadError.ofInt
    (checkLength (exponent.filter CodePoint.isDigit)).mapError ReadError.ofInt
    return reduce (sign * (d.digits * power 10 d.exponent)) (power 10 (-d.exponent))
  | _ => .error .malformed

/-- Reads a fraction: two whole numbers with a slash between them, or a decimal. -/
def read (t : Text) : Except ReadError Fraction :=
  let (negative, t) := Text.takeSign t.strip.plainDigits
  let sign : Int := if negative = some true then -1 else 1
  match Text.dropUnderscores? false t with
  | none => .error .malformed
  | some t =>
    match Text.cut '/' t with
    | (num, some den) =>
      if num.isEmpty || den.isEmpty || !num.all CodePoint.isDigit || !den.all CodePoint.isDigit then
        .error .malformed
      else readQuotient sign num den
    | (_, none) => readDecimal sign t

def text (f : Fraction) : Text :=
  if f.den = 1 then Text.ofInt f.num
  else Text.concat [Text.ofInt f.num, "/", Text.ofNat f.den]

end Fraction

structure Complex where
  re : Float
  im : Float

namespace Complex

def isUnit (c : CodePoint) : Bool := c = ('j' : CodePoint) || c = ('J' : CodePoint)

/-- The coefficient in front of the imaginary unit; a sign alone stands for one. -/
def scanImaginary? (t : Text) : Option (Float × Text) :=
  match scanFloat? t with
  | some r => some r
  | none =>
    let (negative, rest) := Text.takeSign t
    if rest.head?.any isUnit then
      some (if negative = some true then -(floatOfLiteral "1") else floatOfLiteral "1", rest)
    else none

def parenless (t : Text) : Text :=
  if t.head? = some ('(' : CodePoint) && t.getLast? = some (')' : CodePoint) then
    Text.trim CodePoint.isPlainSpace (t.drop 1).dropLast
  else t

/-- The complex number that a text without underscores denotes: a real part, an imaginary part with
its unit, or both. -/
def ofText? (t : Text) : Option Complex := do
  let zero := Float.ofBits 0
  let (x, rest) ← scanImaginary? (parenless t.trimPlain)
  match rest with
  | [] => return ⟨x, zero⟩
  | c :: more =>
    if isUnit c then
      if more.isEmpty then return ⟨zero, x⟩ else none
    else if (Text.takeSign rest).1.isSome then
      let (y, rest) ← scanImaginary? rest
      match rest with
      | [c] => if isUnit c then return ⟨x, y⟩ else none
      | _ => none
    else none

inductive ReadError where
  | malformed
  | misplacedUnderscore
deriving DecidableEq

/-- A code point that a number can be read over. -/
def isReadable (c : CodePoint) : Bool := c.val ≠ 0 && (c.val < 0x80 || c.isSpace)

/-- Reads a complex number. Underscores are looked at first, up to what cannot be read over; where
a text has underscores, a null is counted as one out of place. -/
def read (t : Text) : Except ReadError Complex :=
  let t := t.plainDigits
  let visible := t.takeWhile isReadable
  match Text.dropUnderscores? false visible, (t.dropWhile isReadable).head? with
  | none, _ => .error .misplacedUnderscore
  | some plain, none =>
    match ofText? plain with
    | some z => .ok z
    | none => .error .malformed
  | some _, some c =>
    .error
      (if c.val = 0 && visible.contains ('_' : CodePoint) then .misplacedUnderscore
      else .malformed)

def isPositiveZero (x : Float) : Bool := Binary.ofFloat x = .finite false 0 (-1074)

def text (z : Complex) : Text :=
  let im := Text.ofFloatWith [] z.im
  if isPositiveZero z.re then Text.concat [im, "j"]
  else
    let sign : Text := if im.head? = some ('-' : CodePoint) then [] else "+"
    Text.concat ["(", Text.ofFloatWith [] z.re, sign, im, "j)"]

end Complex

end Toplevel
