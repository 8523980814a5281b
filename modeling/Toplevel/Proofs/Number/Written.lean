import Mathlib.Data.List.Induction
import Toplevel.Proofs.Number.Numeral

/-!
# The number that a numeral stands for

A decimal is written without the zeros at its end, with a point that is moved or with an exponent.
What is scanned from the text has other digits and another exponent, but the value is that of the
decimal (`Text.standsFor_ofDecimal`).
-/

namespace Toplevel

def Decimal.value (d : Decimal) : ℚ := d.digits * 10 ^ d.exponent

/-- Zeros behind the digits are taken back by the exponent. -/
theorem Decimal.value_zeros (digits n : Nat) (e : Int) :
    value ⟨digits * 10 ^ n, e⟩ = digits * 10 ^ (n + e) := by
  rw [value, zpow_add₀ (by norm_num), zpow_natCast, Nat.cast_mul, Nat.cast_pow, mul_assoc]
  rfl

namespace Text

/-- The text is a decimal as a whole, of this value. -/
def StandsFor (t : Text) (v : ℚ) : Prop := ∃ d, Decimal.scan? t = some (d, []) ∧ d.value = v

theorem StandsFor.unique {t : Text} {v w : ℚ} (hv : t.StandsFor v) (hw : t.StandsFor w) :
    v = w := by
  obtain ⟨d, hd, rfl⟩ := hv
  obtain ⟨d', hd', rfl⟩ := hw
  rw [hd] at hd'
  cases hd'
  rfl

/-! ### The value of digits -/

theorem digitsValue_snoc (t : Text) (c : CodePoint) :
    digitsValue (t ++ [c]) = 10 * digitsValue t + (c.val - '0'.toNat) := by
  simp [digitsValue]

theorem digitsValue_append (s t : Text) :
    digitsValue (s ++ t) = digitsValue s * 10 ^ t.length + digitsValue t := by
  induction t using List.reverseRecOn with
  | nil => simp [digitsValue]
  | append_singleton t c ih =>
    rw [← List.append_assoc, digitsValue_snoc, digitsValue_snoc, ih, List.length_append,
      List.length_singleton, pow_succ]
    ring

theorem length_zeros (n : Nat) : (zeros n).length = n := List.length_replicate

theorem digitsValue_zeros (n : Nat) : digitsValue (zeros n) = 0 :=
  digitsValue_of_zeros fun c hc => by
    rw [List.eq_of_mem_replicate hc]
    rfl

theorem digitsValue_zeros_append (n : Nat) (t : Text) :
    digitsValue (zeros n ++ t) = digitsValue t := by
  rw [digitsValue_append, digitsValue_zeros, Nat.zero_mul, Nat.zero_add]

theorem digitsValue_append_zeros (t : Text) (n : Nat) :
    digitsValue (t ++ zeros n) = digitsValue t * 10 ^ n := by
  rw [digitsValue_append, digitsValue_zeros, length_zeros, Nat.add_zero]

/-- Only zeros have been left out. -/
theorem exists_significant (c : Nat) : ∃ n, ofNat c = significant c ++ zeros n := by
  let isZero (d : CodePoint) : Bool := d.val == '0'.toNat
  let cut := (ofNat c).reverse.takeWhile isZero
  have hcut : cut = zeros cut.length := by
    refine List.eq_replicate_iff.2 ⟨rfl, fun d hd => ?_⟩
    have hval := List.mem_takeWhile_imp (p := isZero) hd
    exact CodePoint.ext (beq_iff_eq.1 hval)
  refine ⟨cut.length, ?_⟩
  calc ofNat c = (cut ++ (ofNat c).reverse.dropWhile isZero).reverse := by
        rw [List.takeWhile_append_dropWhile, List.reverse_reverse]
    _ = significant c ++ cut.reverse := by rw [List.reverse_append, significant]
    _ = significant c ++ zeros cut.length := by
        conv_lhs => rw [hcut, zeros, List.reverse_replicate]
        rfl

/-- The value of the digits that are written, with the point where it was. -/
theorem value_significant (c : Nat) (t : Int) :
    (digitsValue (significant c) : ℚ) * 10 ^ (((ofNat c).length : Int) + t - (significant c).length)
      = c * 10 ^ t := by
  obtain ⟨n, hn⟩ := exists_significant c
  have hvalue : digitsValue (significant c) * 10 ^ n = c := by
    rw [← digitsValue_append_zeros, ← hn, digitsValue_ofNat]
  have hplace : ((ofNat c).length : Int) + t - (significant c).length = n + t := by
    rw [hn, List.length_append, length_zeros]
    omega
  rw [hplace, zpow_add₀ (by norm_num), zpow_natCast, ← mul_assoc]
  exact_mod_cast congrArg (fun c : Nat => (c : ℚ) * 10 ^ t) hvalue

/-! ### Writing -/

theorem scanExponent_exponent (e : Int) : Decimal.scanExponent (exponent e) = (e, []) := by
  have hdigits : AllDigits (zeros (2 - (ofNat e.natAbs).length) ++ ofNat e.natAbs) :=
    (allDigits_zeros _).append (allDigits_ofNat _)
  have hne : zeros (2 - (ofNat e.natAbs).length) ++ ofNat e.natAbs ≠ [] :=
    List.append_ne_nil_of_right_ne_nil _ (ofNat_ne_nil _)
  rw [exponent, scanExponent_signed (by split <;> simp) hne hdigits, digitsValue_zeros_append,
    digitsValue_ofNat]
  refine Prod.ext ?_ rfl
  by_cases h : e < 0
  · rw [if_pos h, if_pos rfl]
    omega
  · rw [if_neg h, if_neg (by decide)]
    omega

theorem standsFor_placePoint {digits : Text} (hdigits : digits.AllDigits) (point : Int) :
    (placePoint digits point ['.', '0']).StandsFor
      (digitsValue digits * 10 ^ (point - digits.length)) := by
  have hscan {whole ds : Text} (hne : whole ≠ []) (hwhole : whole.AllDigits) (hds : ds.AllDigits) :=
    scan?_point hne hwhole hds (Or.inl rfl) rfl
  simp only [List.append_nil] at hscan
  have hzero : AllDigits ['0'] := List.forall_mem_singleton.2 rfl
  simp only [placePoint]
  split
  · rename_i hpoint
    refine ⟨_, hscan (List.cons_ne_nil _ _) hzero ((allDigits_zeros _).append hdigits), ?_⟩
    have hdv := digitsValue_zeros_append ((-point).toNat + 1) digits
    rw [zeros, List.replicate_succ, List.cons_append] at hdv
    rw [Decimal.value, List.cons_append, List.nil_append, zeros, hdv, List.length_append,
      List.length_replicate]
    dsimp only
    congr 2
    omega
  · split
    · rename_i hpoint hlength
      have hall := hdigits.append (allDigits_zeros (point.toNat - digits.length))
      refine ⟨_, hscan ?_ hall hzero, ?_⟩
      · rw [← List.length_pos_iff, List.length_append, length_zeros]
        omega
      · have hdv := digitsValue_append_zeros digits (point.toNat - digits.length + 1)
        rw [zeros, List.replicate_succ', ← List.append_assoc] at hdv
        rw [zeros, hdv, Decimal.value_zeros]
        congr 2
        rw [List.length_singleton]
        omega
    · rename_i hpoint hlength
      refine ⟨_, hscan ?_ (fun c hc => hdigits c (List.mem_of_mem_take hc))
        (fun c hc => hdigits c (List.mem_of_mem_drop hc)), ?_⟩
      · rw [← List.length_pos_iff, List.length_take]
        omega
      · rw [Decimal.value, List.take_append_drop, List.length_drop]
        dsimp only
        congr 2
        omega

theorem standsFor_leadingDigit {digits : Text} (hne : digits ≠ []) (hdigits : digits.AllDigits)
    (e : Int) : (leadingDigit digits ++ exponent e).StandsFor
      (digitsValue digits * 10 ^ (e + 1 - digits.length)) := by
  have hu := isExponent_exponent e
  have he := scanExponent_exponent e
  match digits, hne, hdigits with
  | [d], _, hdigits =>
    refine ⟨_, scan?_whole (List.cons_ne_nil _ _) hdigits hu he, ?_⟩
    simp [Decimal.value, leadingDigit]
  | d :: d' :: ds, _, hdigits =>
    obtain ⟨hd, hds⟩ := List.forall_mem_cons.1 hdigits
    refine ⟨_, scan?_point (List.cons_ne_nil _ _) (List.forall_mem_singleton.2 hd) hds hu he, ?_⟩
    rw [Decimal.value]
    congr 2
    simp only [List.length_cons]
    omega

/-- The text of a decimal stands for it. -/
theorem standsFor_ofDecimal {c : Nat} (hc : c ≠ 0) (t : Int) :
    (ofDecimal c t ['.', '0']).StandsFor (c * 10 ^ t) := by
  rw [← value_significant, ofDecimal]
  split
  · exact standsFor_placePoint (allDigits_significant c) _
  · have h := standsFor_leadingDigit (significant_ne_nil hc) (allDigits_significant c)
      ((ofNat c).length + t - 1)
    rwa [sub_add_cancel] at h

end Text

end Toplevel
