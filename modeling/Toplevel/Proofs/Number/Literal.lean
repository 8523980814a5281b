import Toplevel.Proofs.Number.Numeral

/-!
# What number literals denote

The double that a number literal denotes has no sign and is defined
(`Binary.unsigned_floatOfLiteral`): its bits, as a number, are at most those of infinity. The bits
of a double are only known by way of the form in which it is computed with, so it is shown that none
of this is lost there.
-/

namespace Toplevel

open Float.Model Float.Model.UnpackedFloat

/-! ### Bits -/

/-- Neither undefined nor with a sign. -/
def Unmarked : UnpackedFloat → Prop
  | .notANumber => False
  | .infinity s | .zero s | .finite s _ _ _ => s = .positive

theorem toNat_unpackExponent (v : BitVec 64) :
    (@unpackExponent Format.binary64 v).toNat = v.toNat / 2 ^ 52 % 2 ^ 11 := by
  simp [unpackExponent, Nat.shiftRight_eq_div_pow]

theorem toNat_unpackMantissa (v : BitVec 64) :
    (@unpackMantissa Format.binary64 v).toNat = v.toNat % 2 ^ 52 := by
  simp [unpackMantissa]

theorem toNat_unpackSign (v : BitVec 64) :
    (@unpackSign Format.binary64 v).toNat = v.toNat / 2 ^ 63 % 2 := by
  change (v.toNat >>> 63) % 2 = _
  rw [Nat.shiftRight_eq_div_pow]

theorem toNat_packComponents (e : BitVec 11) (m : BitVec 52) :
    (packComponents Format.binary64 .positive e m).toNat = e.toNat * 2 ^ 52 + m.toNat := by
  change (0#1 ++ e ++ m).toNat = _
  rw [BitVec.toNat_append, BitVec.toNat_append, BitVec.toNat_ofNat, Nat.zero_mod,
    Nat.zero_shiftLeft, Nat.zero_or, Nat.shiftLeft_eq, Nat.mul_comm,
    ← Nat.two_pow_add_eq_or_of_lt m.isLt]

theorem unmarked_unpack {v : BitVec 64} (hv : v.toNat ≤ 2047 * 2 ^ 52) :
    Unmarked (UnpackedFloat.unpack Format.binary64 v) := by
  have hbit : @unpackSign Format.binary64 v = 0#1 := by
    refine BitVec.eq_of_toNat_eq ?_
    rw [toNat_unpackSign, Nat.div_eq_of_lt (by omega)]
    rfl
  have hsign : Sign.ofBitVec (@unpackSign Format.binary64 v) = .positive := by
    rw [hbit]
    rfl
  unfold UnpackedFloat.unpack
  dsimp only
  by_cases he : @unpackExponent Format.binary64 v = -1#_
  · have hexponent := congrArg BitVec.toNat he
    rw [toNat_unpackExponent] at hexponent
    change _ = 2047 at hexponent
    have hm : @unpackMantissa Format.binary64 v = 0#_ := by
      refine BitVec.eq_of_toNat_eq ?_
      rw [toNat_unpackMantissa]
      change _ = 0
      omega
    rw [if_pos he, if_pos hm]
    exact hsign
  · rw [if_neg he]
    by_cases hzero : @unpackExponent Format.binary64 v = 0#_
    · rw [if_pos hzero]
      by_cases hm : @unpackMantissa Format.binary64 v = 0#_
      · rw [dif_pos hm]
        exact hsign
      · rw [dif_neg hm]
        exact hsign
    · rw [if_neg hzero]
      exact hsign

theorem exists_packComponents {f : UnpackedFloat} (hf : Unmarked f) :
    ∃ (e : BitVec 11) (m : BitVec 52), UnpackedFloat.pack Format.binary64 f
        = packComponents Format.binary64 .positive e m ∧ (e.toNat = 2047 → m.toNat = 0) := by
  have hinfinity : ∃ (e : BitVec 11) (m : BitVec 52), packedInfinity Format.binary64 .positive
      = packComponents Format.binary64 .positive e m ∧ (e.toNat = 2047 → m.toNat = 0) :=
    ⟨_, _, rfl, fun _ => rfl⟩
  match f, hf with
  | .infinity _, rfl => exact hinfinity
  | .zero _, rfl => exact ⟨_, _, rfl, fun _ => rfl⟩
  | .finite _ m e _, rfl =>
    unfold UnpackedFloat.pack
    dsimp only
    split
    · exact hinfinity
    · split
      · refine ⟨_, _, rfl, fun h => ?_⟩
        rw [BitVec.toNat_ofNat] at h
        omega
      · exact ⟨_, _, rfl, nofun⟩

namespace Binary

theorem unsigned_ofBits {n : Nat} (hn : n ≤ 2047 * 2 ^ 52) :
    (ofFloat (Float.ofBits (UInt64.ofNat n))).Unsigned := by
  have hunpack : Unmarked (UnpackedFloat.unpack Format.binary64 (UInt64.ofNat n).toBitVec) := by
    refine unmarked_unpack ?_
    change (UInt64.ofNat n).toNat ≤ _
    rw [UInt64.toNat_ofNat_of_lt' (Nat.lt_of_le_of_lt hn (by decide))]
    exact hn
  obtain ⟨e, m, hpack, hdefined⟩ := exists_packComponents hunpack
  have hbits : (Float.ofBits (UInt64.ofNat n)).toBits.toNat = e.toNat * 2 ^ 52 + m.toNat := by
    rw [← toNat_packComponents, ← hpack]
    rfl
  have he := e.isLt
  have hm := m.isLt
  have h52 : power 2 52 = 2 ^ 52 := rfl
  have h11 : power 2 11 = 2 ^ 11 := rfl
  have h63 : power 2 63 = 2 ^ 63 := rfl
  simp only [ofFloat, hbits, h52, h11, h63]
  split
  · rw [if_pos (by omega)]
    exact decide_eq_false (by omega)
  · split <;> exact decide_eq_false (by omega)

/-- The double that a number literal denotes has no sign and is defined. -/
theorem unsigned_floatOfLiteral (t : Text) : (ofFloat (floatOfLiteral t)).Unsigned := by
  have hinfinity : (ofFloat (infinity false)).Unsigned := unsigned_ofBits (Nat.le_refl _)
  rw [floatOfLiteral]
  split
  · rename_i d _ _
    rw [Decimal.toFloat]
    split
    · exact unsigned_ofBits (Nat.zero_le _)
    · split
      · exact hinfinity
      · rw [floatOfRatio?]
        split
        · exact unsigned_ofBits (Nat.zero_le _)
        · dsimp only
          split
          · rename_i hlt
            exact unsigned_ofBits ((Nat.zero_add _).trans_le hlt.le)
          · exact hinfinity
  · exact unsigned_ofBits (Nat.zero_le _)

end Binary

end Toplevel
