/-!
# Powers

Exact arithmetic on doubles and decimals multiplies by powers whose exponent has either sign.
`power b e` is the part of such a power above the line of a fraction, and `power b (-e)` the part
below it.
-/

namespace Toplevel

/-- The power of a number to a whole exponent, or one if the exponent is negative. -/
def power (base : Nat) (e : Int) : Nat := Nat.pow base e.toNat

theorem power_of_neg {e : Int} (h : e ≤ 0) (base : Nat) : power base e = 1 := by
  simp [power, Int.toNat_of_nonpos h]

theorem power_pos {base : Nat} (h : 0 < base) (e : Int) : 0 < power base e :=
  Nat.pow_pos h

end Toplevel
