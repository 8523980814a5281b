import Toplevel.Proofs.Number.Written

/-!
# Doubles that are written alike

No real rounds to two doubles (`RoundsTo.unique`). What is written for a finite double stands for a
number that rounds to it, and so two finite doubles that are written alike are the same
(`Text.eq_of_ofFloat_eq`).
-/

namespace Toplevel

/-! ### Doubles -/

/-- How a finite double is represented: with as many bits as there are, unless the unit is the
smallest. -/
structure Canonical (m : Nat) (q : Int) : Prop where
  lt : m < 2 ^ 53
  low : -1074 ≤ q
  high : q ≤ 971
  full : -1074 < q → 2 ^ 52 ≤ m

/-- The intervals of two doubles have at most an end in common, which only one of them has. -/
theorem Canonical.highest_le {m m' : Nat} {q q' : Int} (h : Canonical m q) (h' : Canonical m' q')
    (hbefore : q < q' ∨ q = q' ∧ m < m') : highest m q ≤ lowest m' q'
      ∧ (m % 2 = 0 → m' % 2 = 0 → highest m q < lowest m' q') := by
  have h52 : power 2 52 = 2 ^ 52 := rfl
  obtain ⟨hlt, hlow, -, -⟩ := h
  obtain ⟨hlt', hlow', -, hfull'⟩ := h'
  have hpos := quarter_pos q
  rcases hbefore with hq | ⟨rfl, hm⟩
  · have hm' := hfull' (by omega)
    have hle : 4 * m + 2 ≤ (4 * m' - gapBelow m' q') * 2
        ∧ (m % 2 = 0 → 4 * m + 2 < (4 * m' - gapBelow m' q') * 2) := by
      unfold gapBelow
      split <;> omega
    have hdouble : lowest m' q' ≥ ((4 * m' - gapBelow m' q') * 2 : Nat) * 2 ^ (q - 2) := by
      have hpow : (2 : ℚ) ^ (q - 2 + 1) ≤ 2 ^ (q' - 2) :=
        zpow_le_zpow_right₀ (by norm_num) (by omega)
      rw [zpow_add_one₀ (by norm_num)] at hpow
      calc (((4 * m' - gapBelow m' q') * 2 : Nat) : ℚ) * 2 ^ (q - 2)
          = (4 * m' - gapBelow m' q' : Nat) * (2 ^ (q - 2) * 2) := by push_cast; ring
        _ ≤ lowest m' q' := mul_le_mul_of_nonneg_left hpow (Nat.cast_nonneg _)
    refine ⟨?_, fun heven _ => ?_⟩
    · exact (mul_le_mul_of_nonneg_right (Nat.cast_le.2 hle.1) hpos.le).trans hdouble
    · exact (mul_lt_mul_of_pos_right (Nat.cast_lt.2 (hle.2 heven)) hpos).trans_le hdouble
  · have hle : 4 * m + 2 ≤ 4 * m' - gapBelow m' q
        ∧ (m % 2 = 0 → m' % 2 = 0 → 4 * m + 2 < 4 * m' - gapBelow m' q) := by
      unfold gapBelow
      split <;> omega
    exact ⟨mul_le_mul_of_nonneg_right (Nat.cast_le.2 hle.1) hpos.le, fun heven heven' =>
      mul_lt_mul_of_pos_right (Nat.cast_lt.2 (hle.2 heven heven')) hpos⟩

theorem Canonical.not_both {m m' : Nat} {q q' : Int} (h : Canonical m q) (h' : Canonical m' q')
    (hbefore : q < q' ∨ q = q' ∧ m < m') {v : ℚ} (hv : RoundsTo m q v) : ¬ RoundsTo m' q' v := by
  intro hv'
  obtain ⟨hle, hlt⟩ := h.highest_le h' hbefore
  unfold RoundsTo at hv hv'
  split at hv <;> split at hv'
  · rename_i heven heven'
    linarith only [hlt heven heven', hv.2, hv'.1]
  all_goals linarith only [hle, hv.2, hv'.1]

/-- No real rounds to two doubles. -/
theorem RoundsTo.unique {m m' : Nat} {q q' : Int} (h : Canonical m q) (h' : Canonical m' q') {v : ℚ}
    (hv : RoundsTo m q v) (hv' : RoundsTo m' q' v) : m = m' ∧ q = q' := by
  have hbefore : ¬ (q < q' ∨ q = q' ∧ m < m') := fun hb => h.not_both h' hb hv hv'
  have hafter : ¬ (q' < q ∨ q' = q ∧ m' < m) := fun hb => h'.not_both h hb hv' hv
  omega

theorem Binary.canonical_of_ofFloat {x : Float} {negative : Bool} {m : Nat} {q : Int}
    (h : Binary.ofFloat x = .finite negative m q) : Canonical m q := by
  obtain ⟨hlt, hlow, hhigh⟩ := Binary.bounds_of_ofFloat h
  refine ⟨hlt, hlow, hhigh, fun hq => ?_⟩
  have h52 : power 2 52 = 2 ^ 52 := rfl
  simp only [Binary.ofFloat] at h
  split at h
  · split at h <;> cases h
  · split at h <;> cases h <;> omega

/-- The bits of a finite double, from its exact form. -/
theorem Binary.toBits_of_ofFloat {x : Float} {negative : Bool} {m : Nat} {q : Int}
    (h : Binary.ofFloat x = .finite negative m q) :
    x.toBits.toNat = signBit negative + ((q + 1074).toNat * 2 ^ 52 + m) := by
  have hlt := x.toBits.toNat_lt
  have h52 : power 2 52 = 2 ^ 52 := rfl
  have h11 : power 2 11 = 2 ^ 11 := rfl
  have h63 : power 2 63 = 2 ^ 63 := rfl
  simp only [Binary.ofFloat, h52, h11, h63] at h
  split at h
  · split at h <;> cases h
  · have hsign : signBit (decide (2 ^ 63 ≤ x.toBits.toNat))
        = if 2 ^ 63 ≤ x.toBits.toNat then 2 ^ 63 else 0 := by
      simp only [signBit, decide_eq_true_eq, h63]
    split at h <;> cases h <;> rw [hsign] <;> split <;> omega

/-- A finite double is determined by its exact form. -/
theorem Binary.eq_of_ofFloat_eq {x y : Float} {negative : Bool} {m : Nat} {q : Int}
    (hx : Binary.ofFloat x = .finite negative m q) (hy : Binary.ofFloat y = .finite negative m q) :
    x = y := by
  refine toBits_injective (UInt64.toNat_inj.1 ?_)
  rw [Binary.toBits_of_ofFloat hx, Binary.toBits_of_ofFloat hy]

/-! ### Texts -/

namespace Text

theorem exists_standsFor_ofMagnitude {m : Nat} {q : Int} (h : Canonical m q) :
    ∃ v, (ofMagnitude m q ['.', '0']).StandsFor v ∧ RoundsTo m q v := by
  rw [ofMagnitude]
  split
  · rename_i hm
    subst hm
    refine ⟨0, ⟨⟨0, -1⟩, by decide, by simp [Decimal.value]⟩, ?_⟩
    have hpos := quarter_pos q
    simp only [RoundsTo, lowest, highest, Nat.zero_mod, if_true, Nat.mul_zero, Nat.zero_sub,
      Nat.zero_add]
    constructor <;> push_cast <;> linarith only [hpos]
  · rename_i hm
    have hpos := Nat.pos_iff_ne_zero.2 hm
    exact ⟨_, standsFor_ofDecimal (shortest_ne_zero hpos h.lt h.low h.high) _,
      roundsTo_shortest hpos h.lt h.low h.high⟩

theorem IsNumeral.ne_minus {t : Text} (h : t.IsNumeral) (s : Text) :
    ('-' : CodePoint) :: s ≠ t := by
  obtain ⟨whole, fraction, exponent, hne, hwhole, -, -, rfl⟩ := h
  match whole, hne with
  | d :: ds, _ =>
    intro heq
    have hminus : CodePoint.isDigit '-' = true := by
      rw [(List.cons.inj heq).1]
      exact hwhole d List.mem_cons_self
    exact absurd hminus (by decide)

theorem signed_inj {negative negative' : Bool} {s t : Text} (hs : s.IsNumeral) (ht : t.IsNumeral)
    (h : signed negative s = signed negative' t) : negative = negative' ∧ s = t := by
  cases negative <;> cases negative'
  · exact ⟨rfl, h⟩
  · exact absurd h.symm (hs.ne_minus t)
  · exact absurd h (ht.ne_minus s)
  · exact ⟨rfl, (List.cons.inj h).2⟩

/-- Two finite doubles that are written alike are the same. -/
theorem eq_of_ofFloat_eq {x y : Float} {negative negative' : Bool} {m m' : Nat} {q q' : Int}
    (hx : Binary.ofFloat x = .finite negative m q) (hy : Binary.ofFloat y = .finite negative' m' q')
    (h : ofFloat x = ofFloat y) : x = y := by
  have hm := Binary.canonical_of_ofFloat hx
  have hm' := Binary.canonical_of_ofFloat hy
  rw [ofFloat, ofFloat, ofFloatWith, ofFloatWith, hx, hy] at h
  obtain ⟨rfl, htext⟩ := signed_inj (isNumeral_ofMagnitude hm.lt hm.low hm.high)
    (isNumeral_ofMagnitude hm'.lt hm'.low hm'.high) h
  obtain ⟨v, hv, hround⟩ := exists_standsFor_ofMagnitude hm
  obtain ⟨v', hv', hround'⟩ := exists_standsFor_ofMagnitude hm'
  rw [← htext] at hv'
  obtain rfl := hv.unique hv'
  obtain ⟨rfl, rfl⟩ := hround.unique hm hm' hround'
  exact Binary.eq_of_ofFloat_eq hx hy

end Text

end Toplevel
