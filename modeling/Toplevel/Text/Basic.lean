/-!
# Text

A text is a list of code points. Every number below `0x110000` is a code point, the surrogates
included: a string literal can name one half of a surrogate pair, and a text keeps it as it is.
Positions, columns and lengths all count code points.
-/

namespace Toplevel

/-- A Unicode code point, surrogates included. -/
structure CodePoint where
  val : Nat
  isLt : val < 0x110000
deriving DecidableEq

namespace CodePoint

theorem ext {a b : CodePoint} (h : a.val = b.val) : a = b := by
  cases a
  cases b
  simpa using h

def ofChar (c : Char) : CodePoint where
  val := c.toNat
  isLt := by
    have h := c.valid
    simp only [UInt32.isValidChar, Nat.isValidChar] at h
    change c.val.toNat < 0x110000
    omega

instance : Coe Char CodePoint := ⟨ofChar⟩

/-- The code point with a given number, or the replacement character if there is none. -/
def ofNat (n : Nat) : CodePoint :=
  if h : n < 0x110000 then ⟨n, h⟩ else ⟨0xFFFD, by decide⟩

theorem val_ofNat {n : Nat} (h : n < 0x110000) : (ofNat n).val = n := by
  simp [ofNat, h]

instance : Inhabited CodePoint := ⟨ofNat 0⟩

/-- Between two characters, both included. -/
def within (c : CodePoint) (lo hi : Char) : Bool :=
  lo.toNat ≤ c.val && c.val ≤ hi.toNat

def isDigit (c : CodePoint) : Bool := c.within '0' '9'

def isLower (c : CodePoint) : Bool := c.within 'a' 'z'

def isUpper (c : CodePoint) : Bool := c.within 'A' 'Z'

/-- A letter, a digit or an underscore, of ASCII alone. -/
def isWord (c : CodePoint) : Bool :=
  c.isLower || c.isUpper || c.isDigit || c.val == '_'.toNat

/-- The value of a hexadecimal digit of either case. -/
def hexValue? (c : CodePoint) : Option Nat :=
  if c.within '0' '9' then some (c.val - '0'.toNat)
  else if c.within 'a' 'f' then some (c.val - 'a'.toNat + 10)
  else if c.within 'A' 'F' then some (c.val - 'A'.toNat + 10)
  else none

def isHighSurrogate (c : CodePoint) : Bool := 0xD800 ≤ c.val && c.val ≤ 0xDBFF

def isLowSurrogate (c : CodePoint) : Bool := 0xDC00 ≤ c.val && c.val ≤ 0xDFFF

def isSurrogate (c : CodePoint) : Bool := 0xD800 ≤ c.val && c.val ≤ 0xDFFF

/-- Code points that Unicode counts as white space, and the four separators `U+001C` to
`U+001F`. -/
def isSpace (c : CodePoint) : Bool :=
  (0x09 ≤ c.val && c.val ≤ 0x0D) || (0x1C ≤ c.val && c.val ≤ 0x20) || c.val == 0x85
    || c.val == 0xA0 || c.val == 0x1680 || (0x2000 ≤ c.val && c.val ≤ 0x200A)
    || c.val == 0x2028 || c.val == 0x2029 || c.val == 0x202F || c.val == 0x205F
    || c.val == 0x3000

/-- White space of ASCII, the separators apart. -/
def isPlainSpace (c : CodePoint) : Bool := (0x09 ≤ c.val && c.val ≤ 0x0D) || c.val == 0x20

/-- A code point at which a text breaks into lines when it is logged. -/
def isLineBreak (c : CodePoint) : Bool :=
  (0x0A ≤ c.val && c.val ≤ 0x0D) || (0x1C ≤ c.val && c.val ≤ 0x1E) || c.val == 0x85
    || c.val == 0x2028 || c.val == 0x2029

def toLower (c : CodePoint) : CodePoint :=
  if c.isUpper then ofNat (c.val + 32) else c

end CodePoint

abbrev Text := List CodePoint

namespace Text

instance instLawfulBEq : LawfulBEq Text := inferInstance

def ofChars (cs : List Char) : Text := cs.map CodePoint.ofChar

def ofString (s : String) : Text := ofChars s.toList

instance : Coe String Text := ⟨ofString⟩

/-- For display alone: a surrogate is shown as the replacement character. -/
def toString (t : Text) : String :=
  String.ofList (t.map fun c => if c.isSurrogate then Char.ofNat 0xFFFD else Char.ofNat c.val)

/-- Without the code points at both ends that are of some kind. -/
def trim (kind : CodePoint → Bool) (t : Text) : Text :=
  ((t.dropWhile kind).reverse.dropWhile kind).reverse

def strip (t : Text) : Text := t.trim CodePoint.isSpace

/-- Capital letters of ASCII made small; all else stays. -/
def toLower (t : Text) : Text := t.map CodePoint.toLower

/-- The text up to the first `sep`, and what follows it, if there is one. -/
def cut (sep : CodePoint) : Text → Text × Option Text
  | [] => ([], none)
  | c :: t =>
    if c = sep then ([], some t)
    else
      let r := cut sep t
      (c :: r.1, r.2)

/-- The pieces between the occurrences of `sep`; a text without one is a single piece. -/
def splitOn (sep : CodePoint) : Text → List Text
  | [] => [[]]
  | c :: t =>
    if c = sep then [] :: splitOn sep t
    else
      match splitOn sep t with
      | [] => [[c]]
      | piece :: pieces => (c :: piece) :: pieces

/-- The first line, as lines are logged. -/
def firstLine (t : Text) : Text := t.takeWhile fun c => !c.isLineBreak

def concat (ts : List Text) : Text := ts.flatten

def join (sep : Text) (ts : List Text) : Text := (ts.intersperse sep).flatten

def ofNat (n : Nat) : Text := ofChars (Nat.toDigits 10 n)

def ofInt : Int → Text
  | .ofNat n => ofNat n
  | .negSucc n => '-' :: ofNat (n + 1)

/-- The number that a run of digits denotes. -/
def digitsValue (t : Text) : Nat := t.foldl (fun n c => 10 * n + (c.val - '0'.toNat)) 0

def hexDigit (n : Nat) : CodePoint := CodePoint.ofNat (if n < 10 then 48 + n else 87 + n)

/-- The lowest `width` hexadecimal digits of a number, in small letters. -/
def hex : Nat → Nat → Text
  | 0, _ => []
  | width + 1, n => hex width (n / 16) ++ [hexDigit (n % 16)]

def lt : Text → Text → Bool
  | _, [] => false
  | [], _ :: _ => true
  | a :: s, b :: t => a.val < b.val || (a.val == b.val && lt s t)

theorem ofChars_append (a b : List Char) : ofChars (a ++ b) = ofChars a ++ ofChars b :=
  List.map_append

theorem join_cons (sep s : Text) (ss : List Text) :
    join sep (s :: ss) = s ++ ss.flatMap fun t => sep ++ t := by
  induction ss generalizing s with
  | nil => rfl
  | cons t ss ih =>
    rw [List.flatMap_cons, List.append_assoc, ← ih]
    rfl

theorem cut_fst (sep : CodePoint) (t : Text) : (cut sep t).1 = t.takeWhile (· ≠ sep) := by
  induction t with
  | nil => rfl
  | cons c t ih => by_cases hc : c = sep <;> simp [cut, hc, ih]

theorem cut_snd (sep : CodePoint) (t : Text) :
    (cut sep t).2.getD [] = (t.dropWhile (· ≠ sep)).tail := by
  induction t with
  | nil => rfl
  | cons c t ih => by_cases hc : c = sep <;> simp [cut, hc, ih]

theorem splitOn_ne_nil (sep : CodePoint) (t : Text) : splitOn sep t ≠ [] := by
  cases t with
  | nil => simp [splitOn]
  | cons c t =>
    simp only [splitOn]
    split
    · simp
    · split <;> simp

end Text

end Toplevel
