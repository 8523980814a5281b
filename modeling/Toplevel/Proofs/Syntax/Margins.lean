import Mathlib.Data.List.DropRight
import Toplevel.Proofs.Syntax.Placed
import Toplevel.Proofs.Syntax.Reading

/-!
# White space around a source

White space behind a source changes no lexeme of it (`Terminal.lexeme?_append_white`): it closes
neither a string nor a comment, and the source itself does not end in white space that would go on.
-/

namespace Toplevel

namespace Text

/-- White space of any kind, also of kinds that are no blanks between tokens. -/
def IsWhite (u : Text) : Prop := ∀ c ∈ u, c.isSpace = true

/-- A text that does not end in white space. -/
def Settled (s : Text) : Prop := ∀ c ∈ s.getLast?, c.isSpace = false

theorem IsWhite.breaks {u : Text} (hu : u.IsWhite) : u.Breaks := fun c hc =>
  CodePoint.isBreak_iff.2 (.inl (hu c (List.mem_of_mem_head? hc)))

theorem IsWhite.notMem {u : Text} (hu : u.IsWhite) {d : CodePoint} (hd : d.isSpace = false) :
    d ∉ u := by
  intro hmem
  cases hd.symm.trans (hu d hmem)

theorem Settled.of_append {p s : Text} (h : Settled (p ++ s)) : s.Settled := by
  intro c hc
  refine h c ?_
  rw [List.getLast?_append, hc]
  rfl

theorem Settled.exists_not {s : Text} (h : s.Settled) (hs : s ≠ []) :
    ∃ t c, s = t ++ [c] ∧ c.isSpace = false := by
  rcases List.eq_nil_or_concat s with rfl | ⟨t, c, rfl⟩
  · exact absurd rfl hs
  · refine ⟨t, c, List.concat_eq_append .., h c ?_⟩
    rw [List.concat_eq_append, List.getLast?_concat]
    rfl

end Text

/-! ### Lexemes -/

namespace Lexeme

variable {s u : Text}

theorem stringRest?_of_notMem (hu : ('"' : CodePoint) ∉ u) : stringRest? u = none := by
  fun_induction stringRest? u with
  | case2 => exact absurd List.mem_cons_self hu
  | case6 d t hd _ _ ih =>
    rw [ih fun h => hu (List.mem_cons_of_mem _ (List.mem_cons_of_mem _ h))]
    rfl
  | case7 c t _ _ _ ih =>
    rw [ih fun h => hu (List.mem_cons_of_mem _ h)]
    rfl
  | _ => rfl

/-- A string that is not closed is not closed by what has no quote. -/
theorem stringRest?_append_eq_none (hu : ('"' : CodePoint) ∉ u) (h : stringRest? s = none) :
    stringRest? (s ++ u) = none := by
  fun_induction stringRest? s with
  | case1 => exact stringRest?_of_notMem hu
  | case2 => cases h
  | case3 t => rw [List.cons_append, stringRest?_cons, if_neg (by decide), if_pos rfl]
  | case4 =>
    refine stringRest?_of_notMem fun hmem => ?_
    rcases List.mem_cons.1 hmem with hc | hmem
    · exact absurd hc (by decide)
    · exact hu hmem
  | case5 =>
    rw [List.cons_append, stringRest?_cons, if_neg (by decide), if_neg (by decide), if_pos rfl]
    rfl
  | case6 d t hd _ _ ih =>
    rw [List.cons_append, stringRest?_cons, if_neg (by decide), if_neg (by decide), if_pos rfl]
    simp only [List.cons_append, if_neg hd, ih (Option.map_eq_none_iff.1 h), Option.map_none]
  | case7 c t h1 h2 h3 ih =>
    rw [List.cons_append, stringRest?_cons, if_neg h1, if_neg h2, if_neg h3,
      ih (Option.map_eq_none_iff.1 h)]
    rfl

theorem string?_append_white (hs : s ≠ []) (hu : u.IsWhite) :
    string? (s ++ u) = (string? s).map (before u) := by
  cases h : string? s with
  | some x => exact string?_append h u
  | none =>
    obtain ⟨c, t, rfl⟩ := List.exists_cons_of_ne_nil hs
    rw [List.cons_append, string?]
    rw [string?] at h
    split
    · rename_i hc
      rw [if_pos hc] at h
      rw [stringRest?_append_eq_none (hu.notMem (by decide)) (Option.map_eq_none_iff.1 h)]
      rfl
    · rfl

theorem commentRest?_of_notMem (hu : (')' : CodePoint) ∉ u) : commentRest? u = none := by
  induction u with
  | nil => rfl
  | cons c u ih =>
    have hrest : (')' : CodePoint) ∉ u := fun h => hu (List.mem_cons_of_mem _ h)
    rw [commentRest?, if_neg, ih hrest]
    · rfl
    · rw [Bool.and_eq_true, decide_eq_true_eq, decide_eq_true_eq]
      exact fun h => hrest (List.mem_of_mem_head? h.2)

/-- A comment is closed by two code points, neither of which is white space. -/
theorem commentRest?_append_white (hu : u.IsWhite) (s : Text) :
    commentRest? (s ++ u) = (commentRest? s).map (before u) := by
  induction s with
  | nil => exact commentRest?_of_notMem (hu.notMem (by decide))
  | cons c t ih =>
    cases t with
    | nil =>
      have hhead : u.head? ≠ some (')' : CodePoint) := fun h =>
        absurd (List.mem_of_mem_head? h) (hu.notMem (by decide))
      rw [List.cons_append, List.nil_append, commentRest?, commentRest?, decide_eq_false hhead,
        ← List.nil_append u, ih]
      simp [commentRest?]
    | cons d t =>
      rw [List.cons_append, commentRest?, commentRest?, ih]
      split
      · rename_i hc
        rw [show (d :: t ++ u).head? = (d :: t).head? from rfl] at hc
        rw [if_pos hc]
        rfl
      · rename_i hc
        rw [show (d :: t ++ u).head? = (d :: t).head? from rfl] at hc
        rw [if_neg hc, Option.map_map, Option.map_map]
        rfl

theorem comment?_append_white (hs : s ≠ []) (hu : u.IsWhite) :
    comment? (s ++ u) = (comment? s).map (before u) := by
  cases hopen : opensComment s with
  | false =>
    rw [comment?_of_not_open hopen, comment?_of_not_open]
    · rfl
    · rw [opensComment_append hs hu.breaks, hopen]
  | true =>
    obtain ⟨t, rfl⟩ := opensComment_iff.1 hopen
    rw [List.cons_append, List.cons_append, comment?_open, comment?_open,
      commentRest?_append_white hu, Option.map_map, Option.map_map]
    rfl

/-- The blanks in a text that does not end in white space do not go on behind it. -/
theorem blank?_append_white (hs : s ≠ []) (hsettled : s.Settled) (hu : u.IsWhite) :
    blank? (s ++ u) = (blank? s).map (before u) := by
  obtain ⟨t, c, rfl, hc⟩ := hsettled.exists_not hs
  have hblank : isBlank c = false := by
    rw [Bool.eq_false_iff]
    intro hblank
    cases hc.symm.trans (isSpace_of_isBlank hblank)
  have hhead : (t ++ [c] ++ u).head? = (t ++ [c]).head? := by cases t <;> rfl
  rw [blank?, blank?, hhead]
  split
  · rw [List.append_assoc, List.singleton_append, (Text.Avoids.cons hblank).takeWhile_append,
      (Text.Avoids.cons hblank).dropWhile_append, (Text.Avoids.cons hblank).takeWhile_append,
      (Text.Avoids.cons hblank).dropWhile_append, Option.map_some, before, List.append_assoc]
    rfl
  · exact comment?_append_white hs hu

end Lexeme

theorem Terminal.lexeme?_append_white {t : Terminal} {s u : Text} (hs : s ≠ [])
    (hu : u.IsWhite) : t.lexeme? (s ++ u) = (t.lexeme? s).map (Lexeme.before u) := by
  by_cases ht : t = string
  · subst ht
    exact Lexeme.string?_append_white hs hu
  · exact lexeme?_append ht hs hu.breaks

/-! ### Places -/

/-- Where a text ends: a line for each line feed in it, and a column for each code point behind the
last of them. -/
def Text.endPosition (t : Text) : Position :=
  ⟨t.count ('\n' : CodePoint) + 1, (t.rtakeWhile (· ≠ ('\n' : CodePoint))).length + 1⟩

theorem Position.afterText_start (t : Text) : start.afterText t = t.endPosition := by
  induction t using List.reverseRecOn with
  | nil => rfl
  | append_singleton t c ih =>
    rw [afterText_append, ih]
    change Position.after _ c = _
    rw [after, Text.endPosition, Text.endPosition]
    split
    · rename_i hc
      subst hc
      simp
    · rename_i hc
      simp [hc]

namespace Position

def Counted (q : Position) : Prop := 0 < q.line ∧ 0 < q.column

/-- Where the place `q` of a text is when the text stands behind `lead`. -/
def behind (lead : Text) (q : Position) : Position :=
  let p := start.afterText lead
  if q.line = 1 then ⟨p.line, p.column + (q.column - 1)⟩ else ⟨p.line + (q.line - 1), q.column⟩

variable {q : Position}

theorem counted_start : start.Counted := ⟨Nat.one_pos, Nat.one_pos⟩

theorem Counted.after (hq : q.Counted) (c : CodePoint) : (q.after c).Counted := by
  obtain ⟨hline, hcolumn⟩ := hq
  rw [Position.after]
  split
  · exact ⟨Nat.succ_pos _, Nat.one_pos⟩
  · exact ⟨hline, Nat.succ_pos _⟩

theorem Counted.afterText (hq : q.Counted) (t : Text) : (q.afterText t).Counted := by
  induction t generalizing q with
  | nil => exact hq
  | cons c t ih => exact ih (hq.after c)

variable (lead : Text)

theorem behind_start : start.behind lead = start.afterText lead := rfl

theorem behind_after (hq : q.Counted) (c : CodePoint) :
    (q.after c).behind lead = (q.behind lead).after c := by
  obtain ⟨hline, hcolumn⟩ := hq
  by_cases hc : c = ('\n' : CodePoint)
  · have hnext : q.after c = ⟨q.line + 1, 1⟩ := if_pos hc
    have hfirst : ¬q.line + 1 = 1 := by omega
    rw [hnext, behind, if_neg hfirst, Position.after, if_pos hc, behind]
    split <;> simp only [Position.mk.injEq, and_true] <;> omega
  · have hnext : q.after c = ⟨q.line, q.column + 1⟩ := if_neg hc
    rw [hnext, behind, Position.after, if_neg hc, behind]
    split <;> simp only [Position.mk.injEq, true_and]; omega

theorem behind_afterText (hq : q.Counted) (t : Text) :
    (q.afterText t).behind lead = (q.behind lead).afterText t := by
  induction t generalizing q with
  | nil => rfl
  | cons c t ih =>
    change ((q.after c).afterText t).behind lead = ((q.behind lead).after c).afterText t
    rw [ih (hq.after c), behind_after lead hq c]

theorem afterText_of_notMem {t : Text} (h : ('\n' : CodePoint) ∉ t) :
    q.afterText t = ⟨q.line, q.column + t.length⟩ := by
  induction t generalizing q with
  | nil => rfl
  | cons c t ih =>
    have hc : c ≠ ('\n' : CodePoint) := fun hc => h (hc ▸ List.mem_cons_self)
    have hnext : q.after c = ⟨q.line, q.column + 1⟩ := if_neg hc
    change (q.after c).afterText t = _
    rw [ih fun hmem => h (List.mem_cons_of_mem _ hmem), hnext, List.length_cons]
    simp only [Position.mk.injEq, true_and]
    omega

theorem line_le_after (q : Position) (c : CodePoint) : q.line ≤ (q.after c).line := by
  rw [Position.after]
  split <;> dsimp only <;> omega

theorem line_le_afterText (q : Position) (t : Text) : q.line ≤ (q.afterText t).line := by
  induction t generalizing q with
  | nil => exact Nat.le_refl _
  | cons c t ih => exact (line_le_after q c).trans (ih _)

theorem line_lt_afterText {t : Text} (h : ('\n' : CodePoint) ∈ t) :
    q.line < (q.afterText t).line := by
  induction t generalizing q with
  | nil => cases h
  | cons c t ih =>
    change q.line < ((q.after c).afterText t).line
    rcases List.mem_cons.1 h with rfl | hmem
    · have hnext : q.after '\n' = ⟨q.line + 1, 1⟩ := if_pos rfl
      rw [hnext]
      exact Nat.lt_of_lt_of_le (Nat.lt_succ_self q.line) (line_le_afterText ⟨q.line + 1, 1⟩ t)
    · exact Nat.lt_of_le_of_lt (line_le_after q c) (ih hmem)

/-- A place stays where it is behind a text without lines and, for the first line, without
columns. -/
theorem behind_eq_self_iff (hq : q.Counted) :
    q.behind lead = q ↔ ('\n' : CodePoint) ∉ lead ∧ (q.line = 1 → lead = []) := by
  obtain ⟨line, column⟩ := q
  obtain ⟨hline, hcolumn⟩ := hq
  dsimp only at hline hcolumn
  by_cases hmem : ('\n' : CodePoint) ∈ lead
  · refine iff_of_false (fun h => ?_) fun h => h.1 hmem
    have hlt : 1 < (start.afterText lead).line := line_lt_afterText (q := start) hmem
    have hline := congrArg Position.line h
    rw [behind] at hline
    split at hline <;> dsimp only at * <;> omega
  · rw [behind, afterText_of_notMem hmem, start]
    dsimp only
    split
    · rename_i hfirst
      rw [Position.mk.injEq, ← List.length_eq_zero_iff]
      simp only [hmem, not_false_eq_true, true_and, hfirst, forall_const]
      omega
    · rename_i hfirst
      rw [Position.mk.injEq]
      simp only [hmem, not_false_eq_true, hfirst, false_imp_iff, and_true, iff_true]
      omega

end Position

end Toplevel
