import Mathlib.Tactic.SplitIfs
import Toplevel.Proofs.Syntax.Lexeme
import Toplevel.Syntax.Program

/-!
# Strings between double quotes

A string as it is displayed is one literal (`Text.spells_jsonQuoted`) and denotes itself
(`Text.unescape?_jsonEscape`): what is escaped is escaped in a way that literals know, and no half
of a surrogate pair is escaped, so that none is joined with another.
-/

namespace Toplevel

/-- The three ways in which a code point is written: as it is, by a backslash and a letter, and by a
number. -/
theorem CodePoint.jsonEscape_cases (c : CodePoint) :
    (c.jsonEscape = [c] ∧ c ≠ '"' ∧ c ≠ '\n' ∧ c ≠ '\\')
      ∨ (∃ d : CodePoint, c.jsonEscape = [('\\' : CodePoint), d] ∧ d ≠ '\n' ∧ d ≠ 'u'
        ∧ Text.simpleEscape? d = some c)
      ∨ (c.val < 0x20
        ∧ c.jsonEscape = ('\\' : CodePoint) :: ('u' : CodePoint) :: Text.hex 4 c.val) := by
  have letter : ∀ {c d : CodePoint}, d ≠ '\n' → d ≠ 'u' → Text.simpleEscape? d = some c →
      ∃ d' : CodePoint, [('\\' : CodePoint), d] = [('\\' : CodePoint), d'] ∧ d' ≠ '\n' ∧ d' ≠ 'u'
        ∧ Text.simpleEscape? d' = some c :=
    fun hline hu hd => ⟨_, rfl, hline, hu, hd⟩
  unfold jsonEscape
  split_ifs with hquote hn hr ht hb hf hlow
  · rw [Bool.or_eq_true, decide_eq_true_eq, decide_eq_true_eq] at hquote
    refine Or.inr (Or.inl ?_)
    rcases hquote with rfl | rfl <;> exact letter (by decide) (by decide) (by decide)
  · rw [show c = '\n' from ext hn]
    exact Or.inr (Or.inl (letter (by decide) (by decide) (by decide)))
  · rw [show c = '\r' from ext hr]
    exact Or.inr (Or.inl (letter (by decide) (by decide) (by decide)))
  · rw [show c = '\t' from ext ht]
    exact Or.inr (Or.inl (letter (by decide) (by decide) (by decide)))
  · rw [show c = ofNat 0x08 from ext hb]
    exact Or.inr (Or.inl (letter (by decide) (by decide) (by decide)))
  · rw [show c = ofNat 0x0C from ext hf]
    exact Or.inr (Or.inl (letter (by decide) (by decide) (by decide)))
  · exact Or.inr (Or.inr ⟨hlow, rfl⟩)
  · rw [Bool.not_eq_true, Bool.or_eq_false_iff, decide_eq_false_iff_not,
      decide_eq_false_iff_not] at hquote
    refine Or.inl ⟨rfl, hquote.1, ?_, hquote.2⟩
    rintro rfl
    exact hn rfl

/-! ### One literal -/

namespace Lexeme

/-- What stands in a literal as it is. -/
def Plain (s : Text) : Prop :=
  ∀ c ∈ s, c ≠ ('"' : CodePoint) ∧ c ≠ ('\n' : CodePoint) ∧ c ≠ ('\\' : CodePoint)

theorem prepend_append (s s' : Text) : prepend (s ++ s') = prepend s ∘ prepend s' := by
  funext x
  rw [prepend, List.append_assoc]
  rfl

theorem stringRest?_append_of_plain {s : Text} (hs : Plain s) (t : Text) :
    stringRest? (s ++ t) = (stringRest? t).map (prepend s) := by
  induction s with
  | nil => exact (congrFun Option.map_id _).symm
  | cons c s ih =>
    obtain ⟨⟨hquote, hline, hslash⟩, hs⟩ := List.forall_mem_cons.1 hs
    rw [List.cons_append, stringRest?_cons, if_neg hquote, if_neg hline, if_neg hslash, ih hs,
      Option.map_map, ← prepend_append, List.singleton_append]

theorem stringRest?_escape {d : CodePoint} (hd : d ≠ '\n') (t : Text) :
    stringRest? (('\\' : CodePoint) :: d :: t) = (stringRest? t).map (prepend ['\\', d]) := by
  rw [stringRest?_cons, if_neg (by decide), if_neg (by decide), if_pos rfl]
  exact if_neg hd

theorem plain_hex {n : Nat} (hn : n < 0x20) : Plain (Text.hex 4 n) := by
  have hall : ∀ n < 0x20, ∀ c ∈ Text.hex 4 n,
      c ≠ ('"' : CodePoint) ∧ c ≠ ('\n' : CodePoint) ∧ c ≠ ('\\' : CodePoint) := by decide
  exact hall n hn

theorem stringRest?_jsonEscape (c : CodePoint) (t : Text) :
    stringRest? (c.jsonEscape ++ t) = (stringRest? t).map (prepend c.jsonEscape) := by
  rcases c.jsonEscape_cases with ⟨hc, hplain⟩ | ⟨d, hc, hline, -⟩ | ⟨hlow, hc⟩
  · rw [hc]
    exact stringRest?_append_of_plain (List.forall_mem_singleton.2 hplain) t
  · rw [hc]
    exact stringRest?_escape hline t
  · rw [hc, List.cons_append, List.cons_append, stringRest?_escape (by decide),
      stringRest?_append_of_plain (plain_hex hlow), Option.map_map, ← prepend_append]
    rfl

theorem stringRest?_flatMap (s t : Text) : stringRest? (s.flatMap CodePoint.jsonEscape ++ t)
    = (stringRest? t).map (prepend (s.flatMap CodePoint.jsonEscape)) := by
  induction s with
  | nil => exact stringRest?_append_of_plain (List.forall_mem_nil _) t
  | cons c s ih =>
    rw [List.flatMap_cons, List.append_assoc, stringRest?_jsonEscape, ih, Option.map_map,
      ← prepend_append]

end Lexeme

/-- A displayed string is a token by itself. -/
theorem Text.spells_jsonQuoted (s : Text) : Terminal.string.Spells s.jsonQuoted := by
  refine ⟨?_, nofun⟩
  have hrest : Lexeme.stringRest? [('"' : CodePoint)] = some ([('"' : CodePoint)], []) := rfl
  change Lexeme.string? (('"' : CodePoint) :: (_ ++ [('"' : CodePoint)])) = _
  rw [Lexeme.string?, if_pos rfl, Lexeme.stringRest?_flatMap, hrest]
  rfl

/-! ### What it denotes -/

namespace Text

theorem unescapePieces?_plain {c : CodePoint} (hslash : c ≠ '\\') (t : Text) :
    unescapePieces? (c :: t) = (unescapePieces? t).map ((c, false) :: ·) := by
  rw [unescapePieces?.eq_def]
  change (if c = ('\\' : CodePoint) then _ else _) = _
  rw [if_neg hslash]
  cases unescapePieces? t <;> rfl

theorem unescapePieces?_letter {c d : CodePoint} (hu : d ≠ 'u') (hd : simpleEscape? d = some c)
    (t : Text) : unescapePieces? (('\\' : CodePoint) :: d :: t)
      = (unescapePieces? t).map ((c, false) :: ·) := by
  rw [unescapePieces?.eq_def]
  change (if d = ('u' : CodePoint) then _ else _) = _
  rw [if_neg hu, hd]
  cases unescapePieces? t <;> rfl

theorem unescapePieces?_number {w x y z : CodePoint} {n : Nat} (h : fourHex? w x y z = some n)
    (t : Text) : unescapePieces? (('\\' : CodePoint) :: ('u' : CodePoint) :: w :: x :: y :: z :: t)
      = (unescapePieces? t).map ((CodePoint.ofNat n, true) :: ·) := by
  rw [unescapePieces?.eq_def]
  change (fourHex? w x y z).bind _ = _
  rw [h]
  cases unescapePieces? t <;> rfl

theorem fourHex?_hex {n : Nat} (hn : n < 0x20) :
    ∃ w x y z, hex 4 n = [w, x, y, z] ∧ fourHex? w x y z = some n := by
  refine ⟨_, _, _, _, rfl, ?_⟩
  revert n
  decide

/-- A code point is marked as a number only if it is no letter. -/
theorem unescapePieces?_jsonEscape (c : CodePoint) (t : Text) :
    ∃ numbered : Bool, unescapePieces? (c.jsonEscape ++ t)
        = (unescapePieces? t).map ((c, numbered) :: ·)
      ∧ (numbered = true → c.isHighSurrogate = false) := by
  rcases c.jsonEscape_cases with ⟨hc, -, -, hslash⟩ | ⟨d, hc, -, hu, hd⟩ | ⟨hlow, hc⟩
  · exact ⟨false, by rw [hc]; exact unescapePieces?_plain hslash t, nofun⟩
  · exact ⟨false, by rw [hc]; exact unescapePieces?_letter hu hd t, nofun⟩
  · obtain ⟨w, x, y, z, hdigits, hvalue⟩ := fourHex?_hex hlow
    have hnumber := unescapePieces?_number hvalue t
    rw [CodePoint.ext (CodePoint.val_ofNat c.isLt)] at hnumber
    refine ⟨true, by rw [hc, hdigits]; exact hnumber, fun _ => ?_⟩
    rw [CodePoint.isHighSurrogate, Bool.and_eq_false_iff]
    exact Or.inl (decide_eq_false (by omega))

theorem joinPieces_eq {ps : List (CodePoint × Bool)}
    (h : ∀ p ∈ ps, p.2 = true → p.1.isHighSurrogate = false) : joinPieces ps = ps.map Prod.fst := by
  fun_induction joinPieces ps with
  | case1 => rfl
  | case2 p => rfl
  | case3 p q rest hpair ih =>
    simp only [Bool.and_eq_true] at hpair
    rw [h p List.mem_cons_self hpair.1.1.1] at hpair
    cases hpair.1.2
  | case4 p q rest _ ih =>
    rw [ih fun p' hp' => h p' (List.mem_cons_of_mem _ hp')]
    rfl

/-- The inside of a displayed string denotes the string. -/
theorem unescape?_jsonEscape (s : Text) : unescape? (s.flatMap CodePoint.jsonEscape) = some s := by
  have hpieces : ∃ ps, unescapePieces? (s.flatMap CodePoint.jsonEscape) = some ps
      ∧ ps.map Prod.fst = s ∧ ∀ p ∈ ps, p.2 = true → p.1.isHighSurrogate = false := by
    induction s with
    | nil => exact ⟨[], rfl, rfl, List.forall_mem_nil _⟩
    | cons c s ih =>
      obtain ⟨ps, hps, hfst, hnumbered⟩ := ih
      obtain ⟨numbered, hc, hsurrogate⟩ :=
        unescapePieces?_jsonEscape c (s.flatMap CodePoint.jsonEscape)
      refine ⟨(c, numbered) :: ps, ?_, by rw [List.map_cons, hfst],
        List.forall_mem_cons.2 ⟨hsurrogate, hnumbered⟩⟩
      rw [List.flatMap_cons, hc, hps, Option.map_some]
  obtain ⟨ps, hps, hfst, hnumbered⟩ := hpieces
  rw [unescape?, hps, Option.map_some, joinPieces_eq hnumbered, hfst]

end Text

/-- The literal of a displayed string means the string. -/
theorem Meaning.ofToken_jsonQuoted (s : Text) (offset : Nat) (position : Position) :
    ofToken ⟨.string, s.jsonQuoted, offset, position⟩ = .ok ⟨s, position⟩ := by
  have hinside : (s.jsonQuoted.drop 1).dropLast = s.flatMap CodePoint.jsonEscape :=
    List.dropLast_concat
  rw [ofToken, if_pos rfl]
  simp only [hinside, Text.unescape?_jsonEscape]

end Toplevel
