import Toplevel.Proofs.Number.Literal
import Toplevel.Proofs.Number.Distinct

/-!
# Doubles that are equal

Equality of doubles is decided on the form in which they are computed with. Among doubles without a
sign it is the equality of the doubles themselves (`Binary.beq_iff`).
-/

namespace Toplevel

open Float.Model Float.Model.UnpackedFloat

/-! ### Doubles as they are computed with -/

/-- The parts of bits without a sign. -/
structure IsPacked (v : BitVec 64) (e m : Nat) : Prop where
  sign : Sign.ofBitVec (@unpackSign Format.binary64 v) = .positive
  exponent : (@unpackExponent Format.binary64 v).toNat = e
  mantissa : (@unpackMantissa Format.binary64 v).toNat = m

theorem isPacked {v : BitVec 64} {e m : Nat} (hv : v.toNat = e * 2 ^ 52 + m) (he : e < 2 ^ 11)
    (hm : m < 2 ^ 52) : IsPacked v e m := by
  have hbit : @unpackSign Format.binary64 v = 0#1 := by
    refine BitVec.eq_of_toNat_eq ?_
    rw [toNat_unpackSign, Nat.div_eq_of_lt (by omega)]
    rfl
  refine ⟨by rw [hbit]; rfl, ?_, ?_⟩
  · rw [toNat_unpackExponent]
    omega
  · rw [toNat_unpackMantissa]
    omega

namespace IsPacked

variable {v : BitVec 64} {e m : Nat}

theorem exponent_eq_iff (h : IsPacked v e m) (w : BitVec 11) :
    @unpackExponent Format.binary64 v = w ↔ e = w.toNat := by
  rw [← h.exponent]
  exact BitVec.toNat_inj.symm

theorem mantissa_eq_iff (h : IsPacked v e m) (w : BitVec 52) :
    @unpackMantissa Format.binary64 v = w ↔ m = w.toNat := by
  rw [← h.mantissa]
  exact BitVec.toNat_inj.symm

theorem unpack_infinity (h : IsPacked v 2047 0) :
    unpack Format.binary64 v = .infinity .positive := by
  unfold UnpackedFloat.unpack
  dsimp only
  rw [if_pos ((h.exponent_eq_iff _).2 rfl), if_pos ((h.mantissa_eq_iff _).2 rfl), h.sign]

theorem unpack_zero (h : IsPacked v 0 0) : unpack Format.binary64 v = .zero .positive := by
  unfold UnpackedFloat.unpack
  dsimp only
  rw [if_neg (mt (h.exponent_eq_iff _).1 (by decide)), if_pos ((h.exponent_eq_iff _).2 rfl),
    dif_pos ((h.mantissa_eq_iff _).2 rfl), h.sign]

theorem unpack_subnormal (h : IsPacked v 0 m) (hm : 0 < m) :
    unpack Format.binary64 v = .finite .positive m (-1074) hm := by
  unfold UnpackedFloat.unpack
  dsimp only
  rw [if_neg (mt (h.exponent_eq_iff _).1 (by decide)), if_pos ((h.exponent_eq_iff _).2 rfl),
    dif_neg (mt (h.mantissa_eq_iff 0#52).1 hm.ne'), UnpackedFloat.finite.injEq]
  refine ⟨h.sign, h.mantissa, ?_⟩
  rw [h.exponent]
  rfl

theorem unpack_normal (h : IsPacked v e m) (hpos : 0 < e) (he : e < 2047) (hm : m < 2 ^ 52) :
    unpack Format.binary64 v
      = .finite .positive (2 ^ 52 + m) (e - 1075) (Nat.add_pos_left (by decide) m) := by
  unfold UnpackedFloat.unpack
  dsimp only
  rw [if_neg (mt (h.exponent_eq_iff (-1#11)).1 he.ne),
    if_neg (mt (h.exponent_eq_iff 0#11).1 hpos.ne'), UnpackedFloat.finite.injEq]
  have hmantissa : (1#1 ++ @unpackMantissa Format.binary64 v).toNat = 2 ^ 52 + m := by
    rw [BitVec.toNat_append, h.mantissa]
    exact (Nat.two_pow_add_eq_or_of_lt hm 1).symm
  refine ⟨h.sign, hmantissa, ?_⟩
  rw [h.exponent]
  rfl

end IsPacked

namespace Binary

variable {x y : Float}

theorem unpack_infinite (h : ofFloat x = .infinite false) :
    x.toModel.unpack = .infinity .positive := by
  refine (isPacked ?_ (by decide) (by decide)).unpack_infinity
  rw [eq_infinity h]
  exact toBits_infinity

/-- The form of a finite double without a sign. -/
theorem unpack_finite {m : Nat} {q : Int} (h : ofFloat x = .finite false m q) :
    x.toModel.unpack = if hm : m = 0 then .zero .positive
      else .finite .positive m q (Nat.pos_of_ne_zero hm) := by
  obtain ⟨hlt, hlow, hhigh, hfull⟩ := canonical_of_ofFloat h
  have hv : x.toModel.toBits.toBitVec.toNat = 0 + ((q + 1074).toNat * 2 ^ 52 + m) :=
    toBits_of_ofFloat h
  by_cases hnormal : 2 ^ 52 ≤ m
  · obtain ⟨n, rfl⟩ := Nat.exists_eq_add_of_le hnormal
    obtain ⟨e, rfl⟩ : ∃ e : Nat, q = e - 1075 := ⟨(q + 1075).toNat, by omega⟩
    have hpacked : IsPacked _ e n := isPacked (hv.trans (by omega)) (by omega) (by omega)
    rw [dif_neg (by omega)]
    exact hpacked.unpack_normal (by omega) (by omega) (by omega)
  · have hpacked : IsPacked _ 0 m := isPacked (hv.trans (by omega)) (by decide) (by omega)
    obtain rfl : q = -1074 := by omega
    by_cases hm : m = 0
    · rw [dif_pos hm]
      subst hm
      exact hpacked.unpack_zero
    · rw [dif_neg hm]
      exact hpacked.unpack_subnormal _

/-! ### Equality -/

theorem Unsigned.cases {b : Binary} (h : b.Unsigned) :
    b = .infinite false ∨ ∃ m q, b = .finite false m q := by
  match b, h with
  | .infinite _, rfl => exact .inl rfl
  | .finite _ m q, rfl => exact .inr ⟨m, q, rfl⟩

theorem beq_eq_compare (x y : Float) :
    (x == y) = (x.toModel.unpack.compare y.toModel.unpack == some .eq) :=
  rfl

theorem compare_finite {m n : Nat} {q r : Int} (hx : ofFloat x = .finite false m q)
    (hy : ofFloat y = .finite false n r) :
    x.toModel.unpack.compare y.toModel.unpack = some .eq ↔ m = n ∧ q = r := by
  have hzero : ∀ {m : Nat} {q : Int}, Canonical m q → m = 0 → q = -1074 := by
    rintro m q ⟨-, hlow, -, hfull⟩ rfl
    omega
  rw [unpack_finite hx, unpack_finite hy]
  by_cases hm : m = 0 <;> by_cases hn : n = 0
  · rw [dif_pos hm, dif_pos hn, hm, hn, hzero (canonical_of_ofFloat hx) hm,
      hzero (canonical_of_ofFloat hy) hn]
    exact iff_of_true rfl ⟨rfl, rfl⟩
  · rw [dif_pos hm, dif_neg hn]
    exact iff_of_false (by rintro ⟨⟩) fun h => hn (h.1.symm.trans hm)
  · rw [dif_neg hm, dif_pos hn]
    exact iff_of_false (by rintro ⟨⟩) fun h => hm (h.1.trans hn)
  · rw [dif_neg hm, dif_neg hn]
    change some ((compare q r).then (compare m n)) = some .eq ↔ _
    rw [Option.some.injEq, Ordering.then_eq_eq, Std.compare_eq_iff_eq, Std.compare_eq_iff_eq,
      and_comm]

theorem not_compare_infinite {m : Nat} {q : Int} (hx : ofFloat x = .infinite false)
    (hy : ofFloat y = .finite false m q) :
    x.toModel.unpack.compare y.toModel.unpack ≠ some .eq
      ∧ y.toModel.unpack.compare x.toModel.unpack ≠ some .eq := by
  rw [unpack_infinite hx, unpack_finite hy]
  by_cases hm : m = 0
  · rw [dif_pos hm]
    exact ⟨(by rintro ⟨⟩), (by rintro ⟨⟩)⟩
  · rw [dif_neg hm]
    exact ⟨(by rintro ⟨⟩), (by rintro ⟨⟩)⟩

/-- Doubles without a sign are equal if they are the same. -/
theorem beq_iff (hx : (ofFloat x).Unsigned) (hy : (ofFloat y).Unsigned) : x == y ↔ x = y := by
  have hother : ∀ {x y : Float} {m : Nat} {q : Int}, ofFloat x = .infinite false →
      ofFloat y = .finite false m q → x ≠ y := by
    rintro x _ m q hx hy rfl
    cases hx.symm.trans hy
  rw [beq_eq_compare, beq_iff_eq]
  rcases hx.cases with hx | ⟨m, q, hx⟩ <;> rcases hy.cases with hy | ⟨n, r, hy⟩
  · rw [unpack_infinite hx, unpack_infinite hy, eq_infinity hx, eq_infinity hy]
    exact ⟨fun _ => rfl, fun _ => rfl⟩
  · exact iff_of_false (not_compare_infinite hx hy).1 (hother hx hy)
  · exact iff_of_false (not_compare_infinite hy hx).2 (hother hy hx).symm
  · rw [compare_finite hx hy]
    constructor
    · rintro ⟨rfl, rfl⟩
      exact eq_of_ofFloat_eq hx hy
    · rintro rfl
      obtain ⟨-, rfl, rfl⟩ := Binary.finite.inj (hx.symm.trans hy)
      exact ⟨rfl, rfl⟩

end Binary

end Toplevel
