import Mathlib.Algebra.Order.Field.Power
import Mathlib.Algebra.Order.Field.Rat
import Mathlib.Tactic.Linarith
import Mathlib.Tactic.Ring
import Toplevel.Number.Shortest

/-!
# The shortest decimal reads back

The shortest decimal of a double rounds to it (`roundsTo_shortest`). The powers above and below the
line that are compared are powers with an exponent of either sign, and the grid of seventeen digits
is finer than the interval of the reals that round to the double, so that one of the two points that
are looked at there lies in it.
-/

namespace Toplevel

/-! ### The reals that round to a double -/

theorem cast_power {b : Nat} (hb : b ≠ 0) (e : Int) :
    (power b e : ℚ) = (b : ℚ) ^ e * power b (-e) := by
  rcases Int.le_total 0 e with he | he
  · obtain ⟨n, rfl⟩ := Int.eq_ofNat_of_zero_le he
    rw [power_of_neg (Int.neg_nonpos_of_nonneg he), Nat.cast_one, mul_one]
    exact (Nat.cast_pow ..).trans (zpow_natCast ..).symm
  · obtain ⟨n, hn⟩ := Int.eq_ofNat_of_zero_le (Int.neg_nonneg_of_nonpos he)
    have hpow : (power b (-e) : ℚ) = (b : ℚ) ^ (-e) := by
      rw [hn]
      exact (Nat.cast_pow ..).trans (zpow_natCast ..).symm
    rw [power_of_neg he, hpow, ← zpow_add₀ (Nat.cast_ne_zero.2 hb), add_neg_cancel, zpow_zero,
      Nat.cast_one]

/-- Half the distance to the double below, in quarters of a unit. -/
def gapBelow (m : Nat) (q : Int) : Nat := if m = power 2 52 ∧ -1074 < q then 1 else 2

def lowest (m : Nat) (q : Int) : ℚ := (4 * m - gapBelow m q : Nat) * 2 ^ (q - 2)

def highest (m : Nat) (q : Int) : ℚ := (4 * m + 2 : Nat) * 2 ^ (q - 2)

/-- The real rounds to the double `m * 2 ^ q`, a tie to the even one. -/
def RoundsTo (m : Nat) (q : Int) (v : ℚ) : Prop :=
  if m % 2 = 0 then lowest m q ≤ v ∧ v ≤ highest m q else lowest m q < v ∧ v < highest m q

theorem RoundsTo.of_lt {m : Nat} {q : Int} {v : ℚ} (hlow : lowest m q < v)
    (hhigh : v < highest m q) : RoundsTo m q v := by
  unfold RoundsTo
  split
  · exact ⟨hlow.le, hhigh.le⟩
  · exact ⟨hlow, hhigh⟩

theorem four_quarters (m : Nat) (q : Int) : (m : ℚ) * 2 ^ q = (4 * m : Nat) * 2 ^ (q - 2) := by
  rw [zpow_sub₀ (by norm_num)]
  push_cast
  ring

theorem quarter_pos (q : Int) : (0 : ℚ) < 2 ^ (q - 2) := by positivity

theorem lowest_le (m : Nat) (q : Int) : lowest m q ≤ m * 2 ^ q := by
  rw [four_quarters, lowest]
  exact mul_le_mul_of_nonneg_right (Nat.cast_le.2 (Nat.sub_le _ _)) (quarter_pos q).le

theorem lt_highest (m : Nat) (q : Int) : (m : ℚ) * 2 ^ q < highest m q := by
  rw [four_quarters, highest]
  exact mul_lt_mul_of_pos_right (Nat.cast_lt.2 (by omega)) (quarter_pos q)

namespace Rounding

variable {m : Nat} {q : Int}

theorem den_pos (m : Nat) (q : Int) : (0 : ℚ) < (of m q).den :=
  Nat.cast_pos.2 (power_pos (by decide) _)

theorem scale_pos (m : Nat) (q t : Int) : (0 : ℚ) < (of m q).den * power 10 (-t) :=
  mul_pos (den_pos m q) (Nat.cast_pos.2 (power_pos (by decide) _))

/-- The power above the line and the power below it. -/
theorem cast_scale (q : Int) : (power 2 (q - 2) : ℚ) = 2 ^ (q - 2) * power 2 (2 - q) := by
  have h := cast_power (b := 2) (by decide) (q - 2)
  rwa [neg_sub] at h

theorem low_eq (m : Nat) (q : Int) : ((of m q).low : ℚ) = lowest m q * (of m q).den := by
  change ((((4 * m - gapBelow m q) * power 2 (q - 2) : Nat)) : ℚ) = _ * (power 2 (2 - q) : Nat)
  rw [lowest, Nat.cast_mul, cast_scale, mul_assoc]

theorem high_eq (m : Nat) (q : Int) : ((of m q).high : ℚ) = highest m q * (of m q).den := by
  change ((((4 * m + 2) * power 2 (q - 2) : Nat)) : ℚ) = _ * (power 2 (2 - q) : Nat)
  rw [highest, Nat.cast_mul, cast_scale, mul_assoc]

theorem value_eq (m : Nat) (q : Int) : ((of m q).value : ℚ) = m * 2 ^ q * (of m q).den := by
  change (((4 * m * power 2 (q - 2) : Nat)) : ℚ) = _ * (power 2 (2 - q) : Nat)
  rw [Nat.cast_mul, Nat.cast_mul, cast_scale, zpow_sub₀ (by norm_num)]
  push_cast
  ring

theorem holds_iff {c : Nat} {t : Int} : (of m q).holds c t = true ↔ RoundsTo m q (c * 10 ^ t) := by
  have hten : (power 10 t : ℚ) = 10 ^ t * power 10 (-t) := cast_power (by decide) t
  have hx : ((c * power 10 t * (of m q).den : Nat) : ℚ)
      = c * 10 ^ t * ((of m q).den * power 10 (-t)) := by
    rw [Nat.cast_mul, Nat.cast_mul, hten]
    ring
  have hscale := scale_pos m q t
  have hlow : (((of m q).low * power 10 (-t) : Nat) : ℚ)
      = lowest m q * ((of m q).den * power 10 (-t)) := by
    rw [Nat.cast_mul, low_eq, mul_assoc]
  have hhigh : (((of m q).high * power 10 (-t) : Nat) : ℚ)
      = highest m q * ((of m q).den * power 10 (-t)) := by
    rw [Nat.cast_mul, high_eq, mul_assoc]
  have hclosed : (of m q).closed = decide (m % 2 = 0) := rfl
  simp only [holds, RoundsTo, hclosed, decide_eq_true_eq]
  split <;> rw [Bool.and_eq_true, decide_eq_true_eq, decide_eq_true_eq]
  · rw [← @Nat.cast_le ℚ, ← @Nat.cast_le ℚ, hx, hlow, hhigh,
      mul_le_mul_iff_of_pos_right hscale, mul_le_mul_iff_of_pos_right hscale]
  · rw [← @Nat.cast_lt ℚ, ← @Nat.cast_lt ℚ, hx, hlow, hhigh,
      mul_lt_mul_iff_of_pos_right hscale, mul_lt_mul_iff_of_pos_right hscale]

/-! ### The grid of seventeen digits -/

theorem roundsTo_of_pointAt? {c : Nat} {t : Int} (h : (of m q).pointAt? t = some c) :
    RoundsTo m q (c * 10 ^ t) := by
  rw [← holds_iff]
  simp only [pointAt?] at h
  split at h
  · rename_i hfloor hnext
    split at h <;> cases h
    · exact hfloor
    · exact hnext
    · rcases Nat.mod_two_eq_zero_or_one ((of m q).floorAt t) with heven | hodd
      · rwa [heven]
      · rwa [hodd]
  · rename_i hfloor _
    cases h
    exact hfloor
  · rename_i _ hnext
    cases h
    exact hnext
  · cases h

/-- The double lies between the two points of the grid that are looked at. -/
theorem floorAt_bounds (m : Nat) (q t : Int) :
    ((of m q).floorAt t : ℚ) * 10 ^ t ≤ m * 2 ^ q
      ∧ (m : ℚ) * 2 ^ q < ((of m q).floorAt t + 1 : Nat) * 10 ^ t := by
  have hten : (power 10 t : ℚ) = 10 ^ t * power 10 (-t) := cast_power (by decide) t
  have hscale := scale_pos m q t
  have hunit : 0 < (of m q).den * power 10 t :=
    Nat.mul_pos (power_pos (by decide) _) (power_pos (by decide) _)
  have hfloor : (of m q).floorAt t * ((of m q).den * power 10 t) ≤ (of m q).value * power 10 (-t) :=
    Nat.div_mul_le_self ..
  have hnext : (of m q).value * power 10 (-t)
      < ((of m q).floorAt t + 1) * ((of m q).den * power 10 t) := by
    rw [Nat.mul_comm (_ + 1)]
    exact Nat.lt_mul_div_succ _ hunit
  rw [← @Nat.cast_le ℚ] at hfloor
  rw [← @Nat.cast_lt ℚ] at hnext
  simp only [Nat.cast_mul, value_eq, hten] at hfloor hnext
  constructor
  · refine le_of_mul_le_mul_right ?_ hscale
    linarith only [hfloor]
  · refine lt_of_mul_lt_mul_right ?_ hscale.le
    linarith only [hnext]

/-- A grid that is finer than the interval has a point in it. -/
theorem exists_pointAt? {t : Int} (h : (10 : ℚ) ^ t < highest m q - lowest m q) :
    ∃ c, (of m q).pointAt? t = some c := by
  obtain ⟨hfloor, hnext⟩ := floorAt_bounds m q t
  have hpoint : (of m q).holds ((of m q).floorAt t) t = true
      ∨ (of m q).holds ((of m q).floorAt t + 1) t = true := by
    rw [holds_iff, holds_iff]
    rcases lt_or_ge (lowest m q) ((of m q).floorAt t * 10 ^ t) with hlow | hlow
    · exact Or.inl (.of_lt hlow (hfloor.trans_lt (lt_highest m q)))
    · refine Or.inr (.of_lt ((lowest_le m q).trans_lt hnext) ?_)
      push_cast
      linarith only [h, hlow]
  rw [← Option.isSome_iff_exists, pointAt?]
  rcases hpoint with hpoint | hpoint <;> rw [hpoint]
  · cases (of m q).holds ((of m q).floorAt t + 1) t with
    | true => dsimp only; split <;> rfl
    | false => rfl
  · cases (of m q).holds ((of m q).floorAt t) t with
    | true => dsimp only; split <;> rfl
    | false => rfl

theorem width_eq {m : Nat} (hm : 0 < m) (q : Int) :
    highest m q - lowest m q = (gapBelow m q + 2 : Nat) * 2 ^ (q - 2) := by
  have hgap : gapBelow m q ≤ 4 * m := by
    unfold gapBelow
    split <;> omega
  rw [highest, lowest, Nat.cast_sub hgap]
  push_cast
  ring

theorem two_pow_bounds : ∀ l < 1075, 10 ^ (l * 30103 / 100000) ≤ 2 ^ l
    ∧ 2 ^ l ≤ 10 ^ ((l * 30103 + 99999) / 100000) := by
  decide +kernel

/-- The place of the leading digit of a power of two, or one below it. -/
theorem ten_zpow_le_two_zpow {l : Int} (hlow : -1074 ≤ l) (hhigh : l ≤ 1023) :
    (10 : ℚ) ^ (l * 30103 / 100000) ≤ 2 ^ l := by
  rcases Int.le_total 0 l with hl | hl
  · obtain ⟨n, rfl⟩ := Int.eq_ofNat_of_zero_le hl
    have hpow := (two_pow_bounds n (by omega)).1
    have he : (n : Int) * 30103 / 100000 = ((n * 30103 / 100000 : Nat) : Int) := by omega
    rw [he, zpow_natCast, zpow_natCast]
    exact_mod_cast hpow
  · obtain ⟨n, hn⟩ := Int.eq_ofNat_of_zero_le (Int.neg_nonneg_of_nonpos hl)
    have hpow := (two_pow_bounds n (by omega)).2
    have he : l * 30103 / 100000 = -(((n * 30103 + 99999) / 100000 : Nat) : Int) := by omega
    rw [he, ← neg_neg l, hn, zpow_neg, zpow_neg, zpow_natCast, zpow_natCast]
    exact inv_anti₀ (by positivity) (by exact_mod_cast hpow)

theorem ten_zpow_leadingPlace_le (hm : 0 < m) (hlow : -1074 ≤ m.log2 + q)
    (hhigh : m.log2 + q ≤ 1023) : (10 : ℚ) ^ leadingPlace m q ≤ m * 2 ^ q := by
  simp only [leadingPlace]
  generalize he : (m.log2 + q) * 30103 / 100000 = e
  split
  · rename_i hle
    have hscale : (0 : ℚ) < power 2 (-q) * power 10 (-(e + 1)) :=
      mul_pos (Nat.cast_pos.2 (power_pos (by decide) _)) (Nat.cast_pos.2 (power_pos (by decide) _))
    rw [← @Nat.cast_le ℚ] at hle
    simp only [Nat.cast_mul, cast_power (b := 10) (by decide) (e + 1),
      cast_power (b := 2) (by decide) q] at hle
    refine le_of_mul_le_mul_right ?_ hscale
    push_cast at hle
    linarith only [hle]
  · have hlog : 2 ^ m.log2 ≤ m := Nat.log2_self_le (Nat.pos_iff_ne_zero.1 hm)
    calc (10 : ℚ) ^ e ≤ 2 ^ (m.log2 + q) := he ▸ ten_zpow_le_two_zpow hlow hhigh
      _ = 2 ^ m.log2 * 2 ^ q := by rw [zpow_add₀ (by norm_num), zpow_natCast]
      _ ≤ m * 2 ^ q := mul_le_mul_of_nonneg_right (by exact_mod_cast hlog) (by positivity)

/-- Seventeen digits are enough. -/
theorem ten_zpow_lt_width (hm : 0 < m) (hlt : m < 2 ^ 53) {t : Int}
    (ht : (10 : ℚ) ^ (t + 16) ≤ m * 2 ^ q) : (10 : ℚ) ^ t < highest m q - lowest m q := by
  rw [zpow_add₀ (by norm_num), four_quarters] at ht
  rw [width_eq hm]
  have hgap : 4 * m < (gapBelow m q + 2) * 10 ^ 16 := by
    have h52 : power 2 52 = 2 ^ 52 := rfl
    unfold gapBelow
    split <;> omega
  have hquarter :=
    mul_lt_mul_of_pos_right (Nat.cast_lt.2 hgap : ((4 * m : Nat) : ℚ) < _) (quarter_pos q)
  rw [Nat.cast_mul] at hquarter
  norm_num at ht hquarter ⊢
  linarith only [ht, hquarter]

end Rounding

/-- The shortest decimal rounds to the double. -/
theorem roundsTo_shortest {m : Nat} {q : Int} (hm : 0 < m) (hlt : m < 2 ^ 53) (hlow : -1074 ≤ q)
    (hhigh : q ≤ 971) : RoundsTo m q ((shortest m q).1 * 10 ^ (shortest m q).2) := by
  have hlog : m.log2 < 53 := (Nat.log2_lt (Nat.pos_iff_ne_zero.1 hm)).2 hlt
  obtain ⟨c, hc⟩ := Rounding.exists_pointAt? (t := Rounding.leadingPlace m q - 16)
    (Rounding.ten_zpow_lt_width hm hlt (by
      rw [sub_add_cancel]
      exact Rounding.ten_zpow_leadingPlace_le hm (by omega) (by omega)))
  simp only [shortest]
  cases hpoints : (List.range 17).findSome? fun (k : Nat) =>
    ((Rounding.of m q).pointAt? (Rounding.leadingPlace m q - (k : Int))).map fun c =>
      (c, Rounding.leadingPlace m q - (k : Int)) with
  | some r =>
    obtain ⟨k, -, hk⟩ := List.exists_of_findSome?_eq_some hpoints
    obtain ⟨c, hc, rfl⟩ := Option.map_eq_some_iff.1 hk
    exact Rounding.roundsTo_of_pointAt? hc
  | none =>
    have hlast := List.findSome?_eq_none_iff.1 hpoints 16 (by decide)
    have hc' : (Rounding.of m q).pointAt? (Rounding.leadingPlace m q - (16 : Nat)) = some c := hc
    rw [hc'] at hlast
    cases hlast

theorem RoundsTo.pos {m : Nat} {q : Int} {v : ℚ} (h : RoundsTo m q v) (hm : 0 < m) : 0 < v := by
  have hlow : 0 < lowest m q := by
    refine mul_pos (Nat.cast_pos.2 ?_) (quarter_pos q)
    unfold gapBelow
    split <;> omega
  unfold RoundsTo at h
  split at h <;> linarith only [hlow, h.1]

/-- The shortest decimal that reads back as a positive double has a digit that is not zero. -/
theorem shortest_ne_zero {m : Nat} {q : Int} (hm : 0 < m) (hlt : m < 2 ^ 53) (hlow : -1074 ≤ q)
    (hhigh : q ≤ 971) : (shortest m q).1 ≠ 0 := by
  intro hzero
  have hpos := (roundsTo_shortest hm hlt hlow hhigh).pos hm
  rw [hzero, Nat.cast_zero, zero_mul] at hpos
  exact lt_irrefl _ hpos

end Toplevel
