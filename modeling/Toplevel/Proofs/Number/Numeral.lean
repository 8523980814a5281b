import Mathlib.Data.List.TakeWhile
import Toplevel.Proofs.Number.Shortest
import Toplevel.Proofs.Syntax.Lexeme

/-!
# Numerals

A finite double without a sign is written as a numeral (`Text.isNumeral_ofFloat`), and a numeral is
read as one token (`Text.IsNumeral.spells`). There is always a digit in front, since the shortest
decimal that reads back is not zero (`shortest_ne_zero`).
-/

namespace Toplevel

/-! ### Runs of digits -/

/-- A run of digits, which may be empty. -/
def Text.AllDigits (t : Text) : Prop := ∀ c ∈ t, c.isDigit = true

namespace Text

theorem allDigits_ofNat (n : Nat) : (ofNat n).AllDigits := by
  intro c hc
  obtain ⟨d, hd, rfl⟩ := List.mem_map.1 hc
  have hdigit := Nat.isDigit_of_mem_toDigits (by decide) (by decide) hd
  rw [Char.isDigit, Bool.and_eq_true, decide_eq_true_eq, decide_eq_true_eq] at hdigit
  rw [CodePoint.isDigit, CodePoint.within, Bool.and_eq_true, decide_eq_true_eq, decide_eq_true_eq]
  exact ⟨UInt32.le_iff_toNat_le.1 hdigit.1, UInt32.le_iff_toNat_le.1 hdigit.2⟩

theorem allDigits_zeros (n : Nat) : (zeros n).AllDigits := by
  intro c hc
  rw [List.eq_of_mem_replicate hc]
  rfl

theorem ofNat_ne_nil (n : Nat) : ofNat n ≠ [] :=
  List.map_eq_nil_iff.not.2 Nat.toDigits_ne_nil

theorem digitsValue_ofNat (n : Nat) : digitsValue (ofNat n) = n := by
  have hdigits := Nat.ofDigitChars_ten_toDigits (n := n)
  rw [Nat.ofDigitChars_eq_foldl] at hdigits
  rw [digitsValue, ofNat, ofChars, List.foldl_map]
  exact hdigits

theorem digitsValue_of_zeros {t : Text} (h : ∀ c ∈ t, c.val = '0'.toNat) : digitsValue t = 0 := by
  have hfold : ∀ t : Text, (∀ c ∈ t, c.val = '0'.toNat) →
      t.foldl (fun n c => 10 * n + (c.val - '0'.toNat)) 0 = 0 := by
    intro t
    induction t with
    | nil => exact fun _ => rfl
    | cons c t ih =>
      intro h
      rw [List.foldl_cons, h c List.mem_cons_self, Nat.sub_self]
      exact ih fun d hd => h d (List.mem_cons_of_mem _ hd)
  exact hfold t h

/-- The digits of a number without the zeros at their end. -/
def significant (c : Nat) : Text :=
  ((ofNat c).reverse.dropWhile fun d => d.val == '0'.toNat).reverse

theorem allDigits_significant (c : Nat) : (significant c).AllDigits := by
  intro d hd
  exact allDigits_ofNat c d
    (List.mem_reverse.1 ((List.dropWhile_suffix _).subset (List.mem_reverse.1 hd)))

theorem significant_ne_nil {c : Nat} (hc : c ≠ 0) : significant c ≠ [] := by
  intro h
  rw [significant, List.reverse_eq_nil_iff, List.dropWhile_eq_nil_iff] at h
  have hzeros := digitsValue_of_zeros fun d hd => of_decide_eq_true (h d (List.mem_reverse.2 hd))
  rw [digitsValue_ofNat] at hzeros
  exact hc hzeros

end Text

/-! ### Numerals -/

namespace Text

/-- A point and digits, or nothing. -/
def IsFraction (t : Text) : Prop :=
  t = [] ∨ ∃ ds : Text, ds.AllDigits ∧ t = ('.' : CodePoint) :: ds

/-- An exponent with its sign, or nothing. -/
def IsExponent (t : Text) : Prop :=
  t = [] ∨ ∃ (sign : CodePoint) (ds : Text), (sign = '+' ∨ sign = '-') ∧ ds ≠ [] ∧ ds.AllDigits
    ∧ t = ('e' : CodePoint) :: sign :: ds

/-- Digits, which may have a fraction and an exponent behind them. -/
def IsNumeral (t : Text) : Prop :=
  ∃ whole fraction exponent : Text, whole ≠ [] ∧ whole.AllDigits ∧ fraction.IsFraction
    ∧ exponent.IsExponent ∧ t = whole ++ (fraction ++ exponent)

theorem IsNumeral.exists_cons {t : Text} (h : t.IsNumeral) :
    ∃ c s, t = c :: s ∧ c.isDigit = true := by
  obtain ⟨whole, fraction, exponent, hne, hwhole, -, -, rfl⟩ := h
  match whole, hne with
  | c :: s, _ => exact ⟨c, _, rfl, hwhole c List.mem_cons_self⟩

theorem AllDigits.append {s t : Text} (hs : s.AllDigits) (ht : t.AllDigits) :
    AllDigits (s ++ t) :=
  List.forall_mem_append.2 ⟨hs, ht⟩

/-- Digits with a point among them. -/
theorem isNumeral_point {whole ds : Text} (hne : whole ≠ []) (hwhole : whole.AllDigits)
    (hds : ds.AllDigits) : IsNumeral (whole ++ ('.' : CodePoint) :: ds) :=
  ⟨whole, _, [], hne, hwhole, Or.inr ⟨ds, hds, rfl⟩, Or.inl rfl, by rw [List.append_nil]⟩

theorem isNumeral_placePoint {digits : Text} (hdigits : digits.AllDigits) (point : Int) :
    (placePoint digits point ['.', '0']).IsNumeral := by
  have hzero : AllDigits ['0'] := List.forall_mem_singleton.2 rfl
  simp only [placePoint]
  split
  · exact isNumeral_point (List.cons_ne_nil _ _) hzero ((allDigits_zeros _).append hdigits)
  · split
    · refine isNumeral_point ?_ (hdigits.append (allDigits_zeros _)) hzero
      rw [← List.length_pos_iff, List.length_append, zeros, List.length_replicate]
      omega
    · refine isNumeral_point ?_ (fun c hc => hdigits c (List.mem_of_mem_take hc))
        fun c hc => hdigits c (List.mem_of_mem_drop hc)
      rw [← List.length_pos_iff, List.length_take]
      omega

theorem isExponent_exponent (e : Int) : (exponent e).IsExponent := by
  refine Or.inr ⟨_, _, ?_, ?_, (allDigits_zeros _).append (allDigits_ofNat _), rfl⟩
  · split
    · exact Or.inr rfl
    · exact Or.inl rfl
  · exact List.append_ne_nil_of_right_ne_nil _ (ofNat_ne_nil _)

theorem isNumeral_leadingDigit {digits : Text} (hne : digits ≠ []) (hdigits : digits.AllDigits)
    (e : Int) : (leadingDigit digits ++ exponent e).IsNumeral := by
  have hexponent := isExponent_exponent e
  match digits, hne, hdigits with
  | [d], _, hdigits => exact ⟨[d], [], _, List.cons_ne_nil _ _, hdigits, Or.inl rfl, hexponent, rfl⟩
  | d :: d' :: ds, _, hdigits =>
    obtain ⟨hd, hds⟩ := List.forall_mem_cons.1 hdigits
    exact ⟨[d], '.' :: d' :: ds, _, List.cons_ne_nil _ _, List.forall_mem_singleton.2 hd,
      Or.inr ⟨_, hds, rfl⟩, hexponent, rfl⟩

theorem isNumeral_ofDecimal {c : Nat} (hc : c ≠ 0) (t : Int) :
    (ofDecimal c t ['.', '0']).IsNumeral := by
  rw [ofDecimal]
  split
  · exact isNumeral_placePoint (allDigits_significant c) _
  · exact isNumeral_leadingDigit (significant_ne_nil hc) (allDigits_significant c) _

theorem isNumeral_ofMagnitude {m : Nat} {q : Int} (hm : m < 2 ^ 53) (hlow : -1074 ≤ q)
    (hhigh : q ≤ 971) : (ofMagnitude m q ['.', '0']).IsNumeral := by
  have hzero : AllDigits ['0'] := List.forall_mem_singleton.2 rfl
  rw [ofMagnitude]
  split
  · exact isNumeral_point (List.cons_ne_nil _ _) hzero hzero
  · rename_i hne
    exact isNumeral_ofDecimal (shortest_ne_zero (Nat.pos_iff_ne_zero.2 hne) hm hlow hhigh) _

end Text

/-- The bounds of the exact form of a double. -/
theorem Binary.bounds_of_ofFloat {x : Float} {negative : Bool} {m : Nat} {q : Int}
    (h : Binary.ofFloat x = .finite negative m q) : m < 2 ^ 53 ∧ -1074 ≤ q ∧ q ≤ 971 := by
  simp only [Binary.ofFloat] at h
  have hfraction : x.toBits.toNat % power 2 52 < 2 ^ 52 := Nat.mod_lt _ (power_pos (by decide) _)
  have hbiased : x.toBits.toNat / power 2 52 % power 2 11 < 2 ^ 11 :=
    Nat.mod_lt _ (power_pos (by decide) _)
  have hpower : power 2 52 = 2 ^ 52 := rfl
  split at h
  · split at h <;> cases h
  · split at h
    · cases h
      omega
    · cases h
      omega

/-- What a number literal can denote: neither undefined nor with a sign. -/
def Binary.Unsigned : Binary → Prop
  | nan => False
  | infinite negative => negative = false
  | finite negative _ _ => negative = false

theorem Text.isNumeral_ofFloat {x : Float} {m : Nat} {q : Int}
    (h : Binary.ofFloat x = .finite false m q) : (Text.ofFloat x).IsNumeral := by
  obtain ⟨hm, hlow, hhigh⟩ := Binary.bounds_of_ofFloat h
  rw [ofFloat, ofFloatWith, h]
  exact isNumeral_ofMagnitude hm hlow hhigh

/-! ### Numerals are read as one token -/

theorem Text.AllDigits.takeWhile_append {s u : Text} (hs : s.AllDigits)
    (hu : u.Avoids CodePoint.isDigit) : (s ++ u).takeWhile CodePoint.isDigit = s := by
  rw [hu.takeWhile_append, List.takeWhile_eq_self_iff.2 hs]

theorem Text.AllDigits.dropWhile_append {s u : Text} (hs : s.AllDigits)
    (hu : u.Avoids CodePoint.isDigit) : (s ++ u).dropWhile CodePoint.isDigit = u := by
  rw [hu.dropWhile_append, List.dropWhile_eq_nil_iff.2 hs, List.nil_append]

namespace Text

theorem IsExponent.avoids {t : Text} (h : t.IsExponent) : t.Avoids CodePoint.isDigit := by
  rcases h with rfl | ⟨_, _, _, _, _, rfl⟩
  · exact .nil
  · exact .cons (by decide)

theorem scanExponent_signed {sign : CodePoint} {ds : Text} (hsign : sign = '+' ∨ sign = '-')
    (hne : ds ≠ []) (hds : ds.AllDigits) : Decimal.scanExponent (('e' : CodePoint) :: sign :: ds)
      = (if sign = '-' then -(digitsValue ds : Int) else digitsValue ds, []) := by
  have hunsigned : Decimal.unsigned (sign :: ds) = ds := by
    rcases hsign with rfl | rfl <;> rfl
  rw [Decimal.scanExponent_cons, hunsigned, List.takeWhile_eq_self_iff.2 hds,
    List.dropWhile_eq_nil_iff.2 hds, List.isEmpty_eq_false_iff.2 hne]
  rcases hsign with rfl | rfl <;> rfl

theorem IsExponent.scanExponent {t : Text} (h : t.IsExponent) :
    ∃ e, Decimal.scanExponent t = (e, []) := by
  rcases h with rfl | ⟨sign, ds, hsign, hne, hds, rfl⟩
  · exact ⟨0, rfl⟩
  · exact ⟨_, scanExponent_signed hsign hne hds⟩

/-- What is scanned from digits with an exponent behind them. -/
theorem scan?_whole {whole u : Text} {e : Int} (hne : whole ≠ []) (hwhole : whole.AllDigits)
    (hu : u.IsExponent) (he : Decimal.scanExponent u = (e, [])) :
    Decimal.scan? (whole ++ u) = some (⟨digitsValue whole, e⟩, []) := by
  have hfraction : Decimal.scanFraction u = ([], u) := by
    rcases hu with rfl | ⟨_, _, _, _, _, rfl⟩
    · rfl
    · rw [Decimal.scanFraction, if_neg (by decide)]
  simp [Decimal.scan?, hwhole.takeWhile_append hu.avoids, hwhole.dropWhile_append hu.avoids,
    hfraction, he, hne]

/-- What is scanned from digits with a point among them and an exponent behind them. -/
theorem scan?_point {whole ds u : Text} {e : Int} (hne : whole ≠ []) (hwhole : whole.AllDigits)
    (hds : ds.AllDigits) (hu : u.IsExponent) (he : Decimal.scanExponent u = (e, [])) :
    Decimal.scan? (whole ++ ('.' : CodePoint) :: (ds ++ u))
      = some (⟨digitsValue (whole ++ ds), e - ds.length⟩, []) := by
  have hpoint : Avoids CodePoint.isDigit (('.' : CodePoint) :: (ds ++ u)) := .cons (by decide)
  simp [Decimal.scan?, hwhole.takeWhile_append hpoint, hwhole.dropWhile_append hpoint,
    Decimal.scanFraction, hds.takeWhile_append hu.avoids, hds.dropWhile_append hu.avoids, he, hne]

theorem IsNumeral.scan? {t : Text} (h : t.IsNumeral) : ∃ d, Decimal.scan? t = some (d, []) := by
  obtain ⟨whole, fraction, exponent, hne, hwhole, hfraction, hexponent, rfl⟩ := h
  obtain ⟨e, he⟩ := hexponent.scanExponent
  rcases hfraction with rfl | ⟨ds, hds, rfl⟩
  · exact ⟨_, scan?_whole hne hwhole hexponent he⟩
  · exact ⟨_, scan?_point hne hwhole hds hexponent he⟩

/-- A numeral is a token by itself. -/
theorem IsNumeral.spells {t : Text} (h : t.IsNumeral) : Terminal.number.Spells t := by
  obtain ⟨d, hd⟩ := h.scan?
  refine ⟨?_, nofun⟩
  change Lexeme.number? t = _
  rw [Lexeme.number?, hd]
  exact congrArg some (Prod.ext (List.take_length ..) rfl)

end Text

/-! ### Literals of doubles -/

/-- The literal of a double. The infinite one is written as a number beyond all doubles. -/
def Text.literal (x : Float) : Text :=
  if Binary.ofFloat x = .infinite false then "1e999" else Text.ofFloat x

/-- A double without a sign, whose text denotes this double. -/
def ReadsBack (x : Float) : Prop :=
  (Binary.ofFloat x).Unsigned
    ∧ (Binary.ofFloat x ≠ .infinite false → floatOfLiteral (Text.ofFloat x) = x)

theorem toBits_injective {x y : Float} (h : x.toBits = y.toBits) : x = y := by
  obtain ⟨⟨_, _⟩⟩ := x
  obtain ⟨⟨_, _⟩⟩ := y
  cases h
  rfl

theorem Binary.toBits_infinity : (infinity false).toBits.toNat = 2047 * 2 ^ 52 := by
  decide +kernel

/-- There is only one infinite double without a sign. -/
theorem Binary.eq_infinity {x : Float} (h : Binary.ofFloat x = .infinite false) :
    x = infinity false := by
  have hlt := x.toBits.toNat_lt
  have h52 : power 2 52 = 2 ^ 52 := rfl
  have h11 : power 2 11 = 2 ^ 11 := rfl
  have h63 : power 2 63 = 2 ^ 63 := rfl
  simp only [Binary.ofFloat] at h
  split at h
  · split at h
    · rename_i hbiased hfraction
      have hsign := of_decide_eq_false (Binary.infinite.inj h)
      rw [h63] at hsign
      rw [h52, h11] at hbiased
      rw [h52] at hfraction
      refine toBits_injective (UInt64.toNat_inj.1 ?_)
      rw [toBits_infinity]
      omega
    · cases h
  · split at h <;> cases h

namespace ReadsBack

variable {x : Float}

theorem spells (h : ReadsBack x) : Terminal.number.Spells (Text.literal x) := by
  rw [Text.literal]
  split
  · exact ⟨by decide, nofun⟩
  · rename_i hfinite
    obtain ⟨hunsigned, -⟩ := h
    cases hx : Binary.ofFloat x with
    | nan =>
      rw [hx] at hunsigned
      cases hunsigned
    | infinite negative =>
      rw [hx] at hunsigned hfinite
      exact absurd (congrArg Binary.infinite hunsigned) hfinite
    | finite negative m q =>
      rw [hx] at hunsigned
      cases hunsigned
      exact (Text.isNumeral_ofFloat hx).spells

theorem floatOfLiteral_literal (h : ReadsBack x) : floatOfLiteral (Text.literal x) = x := by
  rw [Text.literal]
  split
  · rename_i hinfinite
    exact (Binary.eq_infinity hinfinite).symm
  · rename_i hfinite
    exact h.2 hfinite

end ReadsBack

end Toplevel
