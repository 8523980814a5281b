import Toplevel.Text.Basic

/-!
# Bytes that are no text

A file is text if its bytes are UTF-8. Where they stop being UTF-8 there is the start of a
character that does not go on: `Decoding.failure?` is the first of them, with the number of its
bytes and what is wrong with it.
-/

namespace Toplevel

namespace Decoding

/-- How many bytes follow the first byte of a character. -/
def following? (b : Nat) : Option Nat :=
  if b < 0x80 then some 0
  else if 0xC2 ≤ b && b ≤ 0xDF then some 1
  else if 0xE0 ≤ b && b ≤ 0xEF then some 2
  else if 0xF0 ≤ b && b ≤ 0xF4 then some 3
  else none

/-- A character of which not all bytes have been read: its offset, its first byte, how many bytes
have been read behind that, and how many there are to be. -/
structure Begun where
  start : Nat
  first : Nat
  done : Nat
  needed : Nat

/-- Whether a character goes on with a byte. A long spelling of a short character, a surrogate and
a number beyond the last code point show in the second byte. -/
def Begun.goesOn (c : Begun) (b : Nat) : Bool :=
  let second := c.done = 0
  let low := if second && c.first = 0xE0 then 0xA0
    else if second && c.first = 0xF0 then 0x90 else 0x80
  let high := if second && c.first = 0xED then 0x9F
    else if second && c.first = 0xF4 then 0x8F else 0xBF
  low ≤ b && b ≤ high

structure Failure where
  start : Nat
  length : Nat
  first : Nat
  reason : Text

def Begun.failure (c : Begun) (reason : Text) : Failure := ⟨c.start, c.done + 1, c.first, reason⟩

/-- The first failure in bytes from the offset `i` on, given the character that has begun. -/
def failureFrom? (i : Nat) (begun : Option Begun) : List Nat → Option Failure
  | [] => begun.map fun c => c.failure "unexpected end of data"
  | b :: bs =>
    match begun with
    | none =>
      match following? b with
      | none => some ⟨i, 1, b, "invalid start byte"⟩
      | some 0 => failureFrom? (i + 1) none bs
      | some n => failureFrom? (i + 1) (some ⟨i, b, 0, n⟩) bs
    | some c =>
      if !c.goesOn b then some (c.failure "invalid continuation byte")
      else if c.done + 1 = c.needed then failureFrom? (i + 1) none bs
      else failureFrom? (i + 1) (some { c with done := c.done + 1 }) bs

def failure? (bytes : List Nat) : Option Failure := failureFrom? 0 none bytes

def Failure.message (f : Failure) : Text :=
  Text.concat
    ["'utf-8' codec can't decode byte",
      if f.length = 1 then
        Text.concat [" 0x", Text.hex 2 f.first, " in position ", Text.ofNat f.start]
      else
        Text.concat
          ["s in position ", Text.ofNat f.start, "-", Text.ofNat (f.start + f.length - 1)],
      ": ", f.reason]

end Decoding

end Toplevel
