import Mathlib.Data.List.Basic
import Toplevel.Proofs.Syntax.Lexeme

/-!
# Texts that are cut off

A lexeme does not depend on all that follows it: when the text is cut off somewhere behind the
lexeme, it is still read there (`Terminal.lexeme?_of_append`), and no kind of token that is tried
earlier comes up (`Terminal.lexeme?_eq_none_of_append`). So what follows may be exchanged from any
place on for something that breaks off there (`Terminal.lexeme?_exchange`).
-/

namespace Toplevel

/-! ### Runs -/

section

variable {p : CodePoint → Bool} {w v r : Text}

/-- A run that ends before the cut. -/
theorem Text.run_of_append (h : (w ++ v).dropWhile p = r ++ v) :
    w.takeWhile p = (w ++ v).takeWhile p ∧ w.dropWhile p = r := by
  induction w with
  | nil =>
    rw [List.nil_append] at h ⊢
    have hlength := congrArg List.length (List.takeWhile_append_dropWhile (p := p) (l := v))
    rw [h, List.length_append, List.length_append] at hlength
    have htake : v.takeWhile p = [] := List.length_eq_zero_iff.1 (by omega)
    exact ⟨htake.symm, (List.length_eq_zero_iff.1 (by omega)).symm⟩
  | cons c w ih =>
    rw [List.cons_append, List.dropWhile_cons] at h
    rw [List.cons_append, List.takeWhile_cons, List.takeWhile_cons, List.dropWhile_cons]
    split at h
    · rename_i hc
      rw [if_pos hc, if_pos hc, if_pos hc, (ih h).1]
      exact ⟨rfl, (ih h).2⟩
    · rename_i hc
      rw [if_neg hc, if_neg hc, if_neg hc]
      exact ⟨rfl, List.append_cancel_right h⟩

theorem Text.takeWhile_append_ne_nil (h : w.takeWhile p ≠ []) (v : Text) :
    (w ++ v).takeWhile p ≠ [] := by
  cases w with
  | nil => exact absurd rfl h
  | cons c w =>
    rw [List.takeWhile_cons] at h
    rw [List.cons_append, List.takeWhile_cons]
    split
    · exact List.cons_ne_nil _ _
    · rename_i hc
      rw [if_neg hc] at h
      exact absurd rfl h

end

/-! ### Numbers -/

namespace Decimal

variable {w v r f : Text} {e : Int} {d : Decimal}

theorem scanFraction_of_append (h : scanFraction (w ++ v) = (f, r ++ v)) :
    scanFraction w = (f, r) := by
  cases w with
  | nil =>
    cases v with
    | nil =>
      rw [List.append_nil, List.append_nil] at h
      exact h
    | cons c t =>
      rw [List.nil_append, scanFraction] at h
      split at h
      · have hlength := congrArg List.length (Prod.mk.inj h).2
        have hle := (t.dropWhile_sublist CodePoint.isDigit).length_le
        rw [List.length_append, List.length_cons] at hlength
        omega
      · obtain ⟨rfl, hr⟩ := Prod.mk.inj h
        rw [List.self_eq_append_left.1 hr]
        rfl
  | cons c w =>
    rw [List.cons_append, scanFraction] at h
    rw [scanFraction]
    split at h
    · rename_i hc
      obtain ⟨hf, hr⟩ := Prod.mk.inj h
      obtain ⟨htake, hdrop⟩ := Text.run_of_append hr
      rw [if_pos hc, htake, hf, hdrop]
    · rename_i hc
      obtain ⟨hf, hr⟩ := Prod.mk.inj h
      rw [← List.cons_append] at hr
      rw [if_neg hc, hf, List.append_cancel_right hr]

theorem unsigned_append_of_ne_nil (hw : w ≠ []) (v : Text) :
    unsigned (w ++ v) = unsigned w ++ v := by
  cases w with
  | nil => exact absurd rfl hw
  | cons c w =>
    rw [List.cons_append, unsigned, unsigned, List.head?_cons, List.head?_cons]
    split <;> rfl

theorem length_unsigned_le (t : Text) : (unsigned t).length ≤ t.length := by
  obtain ⟨p, hp⟩ := unsigned_splits t
  have hlength := congrArg List.length hp
  rw [List.length_append] at hlength
  omega

/-- Digits of an exponent are left before what follows them. -/
theorem ne_nil_of_exponent (hdigits : (unsigned (w ++ v)).takeWhile CodePoint.isDigit ≠ [])
    (hrest : (unsigned (w ++ v)).dropWhile CodePoint.isDigit = r ++ v) : w ≠ [] := by
  rintro rfl
  rw [List.nil_append] at hdigits hrest
  have hrun := congrArg List.length
    (List.takeWhile_append_dropWhile (p := CodePoint.isDigit) (l := unsigned v))
  have hpos := List.length_pos_iff.2 hdigits
  have hle := length_unsigned_le v
  rw [hrest, List.length_append, List.length_append] at hrun
  omega

theorem scanExponent_of_append (h : scanExponent (w ++ v) = (e, r ++ v)) :
    scanExponent w = (e, r) := by
  cases w with
  | nil =>
    cases v with
    | nil =>
      rw [List.append_nil, List.append_nil] at h
      exact h
    | cons c t =>
      rw [List.nil_append, scanExponent_cons] at h
      split at h
      · have hlength := congrArg List.length (Prod.mk.inj h).2
        have hle := ((unsigned t).dropWhile_sublist CodePoint.isDigit).length_le
        have hle' := length_unsigned_le t
        rw [List.length_append, List.length_cons] at hlength
        omega
      · obtain ⟨rfl, hr⟩ := Prod.mk.inj h
        rw [List.self_eq_append_left.1 hr]
        rfl
  | cons c w =>
    rw [List.cons_append, scanExponent_cons] at h
    rw [scanExponent_cons]
    split at h
    · rename_i hc
      obtain ⟨rfl, hr⟩ := Prod.mk.inj h
      obtain ⟨-, hdigits⟩ := Bool.and_eq_true_iff.1 hc
      have hw : w ≠ [] := by
        refine ne_nil_of_exponent (fun hnil => ?_) hr
        rw [hnil] at hdigits
        cases hdigits
      rw [unsigned_append_of_ne_nil hw] at hr hc ⊢
      obtain ⟨htake, hdrop⟩ := Text.run_of_append hr
      rw [htake, if_pos hc, hdrop, List.head?_append_of_ne_nil _ hw]
    · rename_i hc
      obtain ⟨rfl, hr⟩ := Prod.mk.inj h
      rw [← List.cons_append] at hr
      rw [if_neg, List.append_cancel_right hr]
      intro hc'
      refine hc ?_
      rw [Bool.and_eq_true] at hc' ⊢
      refine ⟨hc'.1, ?_⟩
      have hdigits : (unsigned w).takeWhile CodePoint.isDigit ≠ [] := by
        intro hnil
        rw [hnil] at hc'
        cases hc'.2
      have hw : w ≠ [] := by
        rintro rfl
        exact hdigits rfl
      rw [unsigned_append_of_ne_nil hw, Bool.not_eq_true', List.isEmpty_eq_false_iff]
      exact Text.takeWhile_append_ne_nil hdigits v

theorem scan?_of_append (h : scan? (w ++ v) = some (d, r ++ v)) : scan? w = some (d, r) := by
  simp only [scan?] at h ⊢
  split at h
  · cases h
  · rename_i hempty
    obtain ⟨rfl, hr⟩ := Prod.mk.inj (Option.some.inj h)
    obtain ⟨p, hp, -⟩ := scanFraction_splits ((w ++ v).dropWhile CodePoint.isDigit)
    obtain ⟨q, hq⟩ := scanExponent_splits (scanFraction ((w ++ v).dropWhile CodePoint.isDigit)).2
    rw [hr, ← List.append_assoc] at hq
    rw [← hq, ← List.append_assoc] at hp
    obtain ⟨hwhole, hrest⟩ := Text.run_of_append hp.symm
    have hfraction := scanFraction_of_append (r := q ++ r) (Prod.ext rfl (hp ▸ hq.symm))
    have hexponent := scanExponent_of_append (r := r) (Prod.ext rfl (hq ▸ hr))
    rw [hrest, hfraction, hexponent, hwhole, hp, hq]
    exact if_neg hempty

theorem scan?_eq_none_iff {s : Text} : scan? s = none ↔ s.takeWhile CodePoint.isDigit = []
    ∧ (scanFraction (s.dropWhile CodePoint.isDigit)).1 = [] := by
  simp only [scan?]
  split <;> rename_i h <;>
    simpa only [Bool.and_eq_true, List.isEmpty_iff, reduceCtorEq, false_iff, true_iff] using h

theorem scan?_append_ne_none (h : scan? w ≠ none) (v : Text) : scan? (w ++ v) ≠ none := by
  rw [Ne, scan?_eq_none_iff] at h ⊢
  rintro ⟨hwhole, hfraction⟩
  by_cases hdigits : w.takeWhile CodePoint.isDigit = []
  · refine h ⟨hdigits, ?_⟩
    cases w with
    | nil => rfl
    | cons c w =>
      have hc : ¬ c.isDigit = true := by
        intro hc
        rw [List.takeWhile_cons, if_pos hc] at hdigits
        cases hdigits
      rw [List.cons_append, List.dropWhile_cons, if_neg hc, scanFraction] at hfraction
      rw [List.dropWhile_cons, if_neg hc, scanFraction]
      split at hfraction
      · rename_i hpoint
        rw [if_pos hpoint]
        by_contra hne
        exact Text.takeWhile_append_ne_nil hne v hfraction
      · rename_i hpoint
        rw [if_neg hpoint]
  · exact Text.takeWhile_append_ne_nil hdigits v hwhole

end Decimal

namespace Lexeme

variable {w v r x : Text}

theorem Splits.of_append (h : Splits (x, r ++ v) (w ++ v)) : w = x ++ r := by
  have hsplit : x ++ (r ++ v) = w ++ v := h.2
  rw [← List.append_assoc] at hsplit
  exact (List.append_cancel_right hsplit).symm

theorem number?_of_append (h : number? (w ++ v) = some (x, r ++ v)) : number? w = some (x, r) := by
  have hw := (number?_eq_some h).1.of_append
  obtain ⟨⟨d, rest⟩, hscan, hpair⟩ := Option.map_eq_some_iff.1 h
  obtain ⟨-, rfl⟩ := Prod.mk.inj hpair
  have hnumber : number? w = some (w.take (w.length - r.length), r) := by
    rw [number?, Decimal.scan?_of_append hscan]
    rfl
  have hsplit : w.take (w.length - r.length) ++ r = w := (number?_eq_some hnumber).1.2
  rw [hnumber, List.append_cancel_right (hsplit.trans hw)]

theorem number?_append_ne_none (h : number? w ≠ none) (v : Text) : number? (w ++ v) ≠ none := by
  rw [number?, Ne, Option.map_eq_none_iff] at h ⊢
  exact Decimal.scan?_append_ne_none h v

/-! ### Strings -/

theorem stringRest?_self {s : Text} {y : Lexeme} (h : stringRest? s = some y) :
    stringRest? y.1 = some (y.1, []) := by
  fun_induction stringRest? s generalizing y with
  | case2 =>
    cases h
    rfl
  | case6 d t hd _ _ ih =>
    obtain ⟨z, hz, rfl⟩ := Option.map_eq_some_iff.1 h
    rw [prepend, List.cons_append, stringRest?_cons, if_neg (by decide), if_neg (by decide),
      if_pos rfl]
    simp only [List.cons_append, List.nil_append, if_neg hd, ih hz, Option.map_some]
    rfl
  | case7 c t h1 h2 h3 ih =>
    obtain ⟨z, hz, rfl⟩ := Option.map_eq_some_iff.1 h
    rw [prepend, List.cons_append, stringRest?_cons, if_neg h1, if_neg h2, if_neg h3,
      List.nil_append, ih hz]
    rfl
  | _ => cases h

/-- A string is read by itself, and so before anything. -/
theorem string?_of_append {u : Text} (h : string? (x ++ u) = some (x, u)) (r : Text) :
    string? (x ++ r) = some (x, r) := by
  cases x with
  | nil => exact absurd rfl (string?_eq_some h).1.1
  | cons c x =>
    rw [List.cons_append, string?] at h
    split at h
    · rename_i hc
      obtain ⟨⟨y, z⟩, hy, hpair⟩ := Option.map_eq_some_iff.1 h
      obtain ⟨hx, -⟩ := Prod.mk.inj hpair
      obtain ⟨-, rfl⟩ := List.cons.inj hx
      have hself : string? (c :: y) = some (c :: y, []) := by
        rw [string?, if_pos hc, stringRest?_self hy]
        rfl
      exact string?_append hself r
    · cases h

/-! ### Words, tags and marks -/

theorem word?_of_append (h : word? (w ++ v) = some (x, r ++ v)) : word? w = some (x, r) := by
  have hw := (word?_splits h).of_append
  cases w with
  | nil => exact absurd (List.append_eq_nil_iff.1 hw.symm).1 (word?_splits h).1
  | cons c w =>
    rw [List.cons_append, word?] at h
    rw [word?]
    split at h
    · rename_i hc
      obtain ⟨hx, hr⟩ := Prod.mk.inj (Option.some.inj h)
      obtain ⟨htake, hdrop⟩ := Text.run_of_append hr
      rw [if_pos hc, htake, hx, hdrop]
    · cases h

theorem tag?_of_append (h : tag? (w ++ v) = some (x, r ++ v)) : tag? w = some (x, r) := by
  have hw := (tag?_splits h).of_append
  cases w with
  | nil => exact absurd (List.append_eq_nil_iff.1 hw.symm).1 (tag?_splits h).1
  | cons c w =>
    rw [List.cons_append, tag?] at h
    rw [tag?]
    split at h
    · rename_i hc
      obtain ⟨hx, hr⟩ := Prod.mk.inj (Option.some.inj h)
      obtain ⟨htake, hdrop⟩ := Text.run_of_append hr
      have hhead : (w ++ v).head? = w.head? := by
        refine List.head?_append_of_ne_nil w ?_
        rintro rfl
        cases v with
        | nil => cases (Bool.and_eq_true_iff.1 hc).2
        | cons d v =>
          have hd : d.isWord = true := (Bool.and_eq_true_iff.1 hc).2
          rw [List.nil_append, List.takeWhile_cons, if_pos hd] at htake
          cases htake
      rw [← hhead, if_pos hc, htake, hx, hdrop]
    · cases h

theorem tag?_append_ne_none (h : tag? w ≠ none) (v : Text) : tag? (w ++ v) ≠ none := by
  cases w with
  | nil => exact absurd rfl h
  | cons c w =>
    rw [tag?] at h
    split at h
    · rename_i hc
      cases w with
      | nil => cases (Bool.and_eq_true_iff.1 hc).2
      | cons d w =>
        rw [List.cons_append, List.cons_append, tag?, List.head?_cons, if_pos]
        · exact Option.some_ne_none _
        · exact hc
    · exact absurd rfl h

theorem oneOf?_of_append {ws : List Text} (h : oneOf? ws (w ++ v) = some (x, r ++ v)) :
    oneOf? ws w = some (x, r) := by
  have hw : w = x ++ r := by
    have hsplit : x ++ (r ++ v) = w ++ v := (oneOf?_eq_some h).2
    rw [← List.append_assoc] at hsplit
    exact (List.append_cancel_right hsplit).symm
  induction ws with
  | nil => cases h
  | cons y ws ih =>
    rw [oneOf?_cons] at h ⊢
    split at h
    · obtain ⟨rfl, -⟩ := Prod.mk.inj (Option.some.inj h)
      rw [if_pos, hw, List.drop_left]
      rw [hw]
      exact List.isPrefixOf_iff_prefix.2 (List.prefix_append y r)
    · rename_i hy
      rw [if_neg, ih h]
      intro hprefix
      refine hy (List.isPrefixOf_iff_prefix.2 ?_)
      exact (List.isPrefixOf_iff_prefix.1 hprefix).trans (List.prefix_append w v)

theorem oneOf?_append_ne_none {ws : List Text} (h : oneOf? ws w ≠ none) (v : Text) :
    oneOf? ws (w ++ v) ≠ none := by
  induction ws with
  | nil => exact absurd rfl h
  | cons y ws ih =>
    rw [oneOf?_cons] at h ⊢
    split
    · exact Option.some_ne_none _
    · rename_i hy
      rw [if_neg] at h
      · exact ih h
      · intro hprefix
        refine hy (List.isPrefixOf_iff_prefix.2 ?_)
        exact (List.isPrefixOf_iff_prefix.1 hprefix).trans (List.prefix_append w v)

end Lexeme

/-! ### Tokens -/

namespace Terminal

variable {t t' : Terminal} {w v u r x : Text}

theorem lexeme?_of_append (h : t.lexeme? (w ++ v) = some (x, r ++ v)) :
    t.lexeme? w = some (x, r) := by
  rcases t.kinds with rfl | rfl | rfl | rfl | ⟨k, hk⟩ | hmarks
  · exact Lexeme.number?_of_append h
  · have hw := (lexeme?_eq_some h).1.of_append
    rw [hw, List.append_assoc] at h
    rw [hw]
    exact Lexeme.string?_of_append h r
  · exact Lexeme.word?_of_append h
  · exact Lexeme.tag?_of_append h
  · rw [lexeme?_of_keyword hk, Option.filter_eq_some_iff] at h ⊢
    exact ⟨Lexeme.word?_of_append h.1, h.2⟩
  · rw [lexeme?_of_marks hmarks] at h ⊢
    exact Lexeme.oneOf?_of_append h

/-- Where a word could be read, a token is one. -/
theorem word?_of_append (h : t.lexeme? (w ++ v) = some (x, r ++ v)) (hw : Lexeme.word? w ≠ none) :
    Lexeme.word? (w ++ v) = some (x, r ++ v) := by
  obtain ⟨y, hy⟩ := Option.ne_none_iff_exists'.1 hw
  have hhead := Lexeme.word?_head hy
  have hstart := (lexeme?_eq_some h).2
  cases w with
  | nil => cases hhead
  | cons c w =>
    rcases keyword_of_canStart hhead hstart with rfl | ⟨k, hk⟩
    · exact h
    · rw [lexeme?_of_keyword hk, Option.filter_eq_some_iff] at h
      exact h.1

theorem lexeme?_eq_none_of_append (h : t.lexeme? (w ++ v) = some (x, r ++ v))
    (hnone : t'.lexeme? (w ++ v) = none) : t'.lexeme? w = none := by
  by_contra hw
  rcases t'.kinds with rfl | rfl | rfl | rfl | ⟨k, hk⟩ | hmarks
  · exact Lexeme.number?_append_ne_none hw v hnone
  · obtain ⟨y, hy⟩ := Option.ne_none_iff_exists'.1 hw
    cases hnone.symm.trans (Lexeme.string?_append hy v)
  · cases hnone.symm.trans (word?_of_append h hw)
  · exact Lexeme.tag?_append_ne_none hw v hnone
  · obtain ⟨y, hy⟩ := Option.ne_none_iff_exists'.1 hw
    rw [lexeme?_of_keyword hk] at hy hnone
    obtain ⟨hword, hkeyword⟩ := Option.filter_eq_some_iff.1 hy
    have happend := word?_of_append h (hword ▸ Option.some_ne_none y)
    rw [Lexeme.word?_of_append happend, Option.some.injEq] at hword
    rw [happend, Option.filter_some, if_pos (by rwa [← hword] at hkeyword)] at hnone
    cases hnone
  · rw [lexeme?_of_marks hmarks] at hw hnone
    exact Lexeme.oneOf?_append_ne_none hw v hnone

/-- Behind a token and some more text, what follows may be exchanged for something that breaks
off. -/
theorem lexeme?_exchange (h : t.lexeme? (x ++ (r ++ v)) = some (x, r ++ v)) (hu : u.Breaks) :
    t.lexeme? (x ++ (r ++ u)) = some (x, r ++ u)
      ∧ ∀ t' : Terminal, t'.ctorIdx < t.ctorIdx → t'.lexeme? (x ++ (r ++ v)) = none →
        t'.lexeme? (x ++ (r ++ u)) = none := by
  rw [← List.append_assoc] at h
  have hcut := lexeme?_of_append h
  rw [← List.append_assoc, ← List.append_assoc]
  exact ⟨lexeme?_append_of_eq_some hcut hu, fun t' hlt hnone =>
    lexeme?_append_eq_none hcut hu hlt (lexeme?_eq_none_of_append h hnone)⟩

end Terminal

end Toplevel
