import Toplevel.Text.Basic

/-!
# Decimal digits

The decimal digits of Unicode 14 come in runs of ten, from zero to nine, one run for each script
and style. `digitZeros` lists the zeros. A number that is handed over as a text may be written with
any of them; a program is written with those of ASCII.
-/

namespace Toplevel

/-- The zeros of the runs of decimal digits, in increasing order. -/
def digitZeros : List Nat :=
  [0x30, 0x660, 0x6F0, 0x7C0, 0x966, 0x9E6, 0xA66, 0xAE6, 0xB66, 0xBE6, 0xC66, 0xCE6, 0xD66,
    0xDE6, 0xE50, 0xED0, 0xF20, 0x1040, 0x1090, 0x17E0, 0x1810, 0x1946, 0x19D0, 0x1A80, 0x1A90,
    0x1B50, 0x1BB0, 0x1C40, 0x1C50, 0xA620, 0xA8D0, 0xA900, 0xA9D0, 0xA9F0, 0xAA50, 0xABF0,
    0xFF10, 0x104A0, 0x10D30, 0x11066, 0x110F0, 0x11136, 0x111D0, 0x112F0, 0x11450, 0x114D0,
    0x11650, 0x116C0, 0x11730, 0x118E0, 0x11950, 0x11C50, 0x11D50, 0x11DA0, 0x16A60, 0x16AC0,
    0x16B50, 0x1D7CE, 0x1D7D8, 0x1D7E2, 0x1D7EC, 0x1D7F6, 0x1E140, 0x1E2F0, 0x1E950, 0x1FBF0]

namespace CodePoint

def decimalValue? (c : CodePoint) : Option Nat :=
  (digitZeros.find? fun z => z ≤ c.val && c.val < z + 10).map (c.val - ·)

def isDecimal (c : CodePoint) : Bool := c.decimalValue?.isSome

/-- The digit of ASCII of the same value, for a decimal digit; all else stays. -/
def plainDigit (c : CodePoint) : CodePoint :=
  match c.decimalValue? with
  | some d => ofNat ('0'.toNat + d)
  | none => c

theorem decimalValue?_lt {c : CodePoint} {d : Nat} (h : c.decimalValue? = some d) : d < 10 := by
  obtain ⟨z, hfind, rfl⟩ := Option.map_eq_some_iff.1 h
  have hrun := List.find?_some hfind
  simp only [Bool.and_eq_true, decide_eq_true_eq] at hrun
  omega

end CodePoint

namespace Text

def plainDigits (t : Text) : Text := t.map CodePoint.plainDigit

/-- Without the white space at both ends; the separators `U+001C` to `U+001F` are not taken off. -/
def trimPlain (t : Text) : Text :=
  t.trim fun c => c.isPlainSpace || (0x80 ≤ c.val && c.isSpace)

/-- A text as a number in it is looked for. -/
def plainNumber (t : Text) : Text := t.plainDigits.trimPlain

end Text

end Toplevel
