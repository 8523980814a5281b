import Mathlib.Data.List.TakeWhile
import Toplevel.Proofs.Syntax.Grammar

/-!
# Tokens laid out in a text

A token may stand right behind another one unless the two would be read as one
(`Terminal.continues`). A text that lays out the tokens of a program, with blanks wherever they are
needed and anywhere else, is read as this program (`Tree.exists_ofSource_laysOut`).
-/

namespace Toplevel

open Automaton

namespace Lexeme

variable {v w u : Text}

/-- Only what stands right behind `w` can make a longer spelling of it. -/
theorem isPrefixOf_append_of
    (h : w.isPrefixOf v = true → ∀ c ∈ (v.drop w.length).head?, c ∉ u.head?) :
    v.isPrefixOf (w ++ u) = v.isPrefixOf w := by
  induction w generalizing v with
  | nil =>
    cases v with
    | nil => rfl
    | cons c v =>
      cases u with
      | nil => rfl
      | cons d u =>
        have hne : c ≠ d := by
          rintro rfl
          exact h rfl c rfl rfl
        rw [List.nil_append, List.isPrefixOf_cons_cons, beq_eq_false_iff_ne.2 hne]
        rfl
  | cons a w ih =>
    cases v with
    | nil => rw [List.isPrefixOf_nil_left, List.isPrefixOf_nil_left]
    | cons c v =>
      rw [List.cons_append, List.isPrefixOf_cons_cons, List.isPrefixOf_cons_cons]
      by_cases hc : c = a
      · subst hc
        rw [ih fun hpre => h (by rw [List.isPrefixOf_cons_cons, hpre, beq_self_eq_true]; rfl)]
      · rw [beq_eq_false_iff_ne.2 hc, Bool.false_and, Bool.false_and]

theorem oneOf?_append_of {ws : List Text}
    (h : ∀ v ∈ ws, v.isPrefixOf (w ++ u) = v.isPrefixOf w) :
    oneOf? ws (w ++ u) = (oneOf? ws w).map (before u) := by
  induction ws with
  | nil => rfl
  | cons v ws ih =>
    rw [oneOf?_cons, oneOf?_cons, h v List.mem_cons_self,
      ih fun v hv => h v (List.mem_cons_of_mem _ hv)]
    split
    · rename_i hv
      rw [List.drop_append_of_le_length (List.isPrefixOf_iff_prefix.1 hv).length_le]
      rfl
    · rfl

end Lexeme

/-! ### What a token is read together with -/

namespace Terminal

/-- The code points that may not stand right behind a token of a kind: they could be read as a part
of it, or as one token of another kind or as a comment with it. -/
def continues (t : Terminal) (c : CodePoint) : Bool :=
  match t with
  | number => c.inNumber
  | string => false
  | compareOp | bang | equals => c = ('=' : CodePoint)
  | minus => c = ('>' : CodePoint)
  | dot => c.isDigit
  | leftParen => c = ('*' : CodePoint)
  | t => if t.marks = [] then c.isWord else false

theorem continues_of_keyword {t : Terminal} {w : Text} (h : t.keyword? = some w) :
    t.continues = CodePoint.isWord := by
  cases t <;> cases h <;> rfl

theorem not_continues_of_isBlank {c : CodePoint} (h : Lexeme.isBlank c = true) (t : Terminal) :
    t.continues c = false := by
  simp only [Lexeme.isBlank, Bool.or_eq_true, decide_eq_true_eq] at h
  obtain ⟨val, isLt⟩ := c
  rcases h with (((rfl | rfl) | rfl) | rfl) | rfl <;> cases t <;> rfl

/-- What ends a statement or a field ends every token. -/
theorem not_continues_of_ends {c : CodePoint} (h : c = ';' ∨ c = '\x7d') (t : Terminal) :
    t.continues c = false := by
  rcases h with rfl | rfl <;> cases t <;> rfl

variable {t t' : Terminal} {w u : Text}

/-- What makes a mark longer is not to stand behind it. -/
theorem continues_of_longer (hle : t'.ctorIdx ≤ t.ctorIdx) (hw : w ∈ t.marks) {v : Text}
    (hv : v ∈ t'.marks) (hpre : w.isPrefixOf v = true) :
    ∀ c ∈ (v.drop w.length).head?, t.continues c = true := by
  have hall : ∀ t ∈ all, ∀ t' ∈ all, t'.ctorIdx ≤ t.ctorIdx → ∀ w ∈ t.marks, ∀ v ∈ t'.marks,
      w.isPrefixOf v = true → (v.drop w.length).head?.all t.continues = true := by decide
  intro c hc
  have hnext := hall t t.mem_all t' t'.mem_all hle w hw v hv hpre
  rwa [hc, Option.all_some] at hnext

/-- What starts like a mark is another mark, or a number after the point. -/
theorem marks_of_canStart (hw : w ∈ t.marks) (h : w.head?.any t'.canStart = true) :
    t'.marks ≠ [] ∨ (t = dot ∧ t' = number) := by
  have hall : ∀ t ∈ all, ∀ t' ∈ all, ∀ w ∈ t.marks, w.head?.any t'.canStart = true →
      t'.marks ≠ [] ∨ (t = dot ∧ t' = number) := by decide
  exact hall t t.mem_all t' t'.mem_all w hw h

theorem lexeme?_word_append (ht : t = name ∨ ∃ v, t.keyword? = some v) (hw : w ≠ [])
    (hu : u.Avoids CodePoint.isWord) :
    t.lexeme? (w ++ u) = (t.lexeme? w).map (Lexeme.before u) := by
  rcases ht with rfl | ⟨v, hv⟩
  · exact Lexeme.word?_append hw hu
  · rw [lexeme?_of_keyword hv, lexeme?_of_keyword hv, Lexeme.word?_append hw hu]
    cases Lexeme.word? w with
    | none => rfl
    | some y =>
      simp only [Option.map_some, Option.filter_some, Lexeme.before]
      split <;> rfl

theorem number?_point_append (hu : u.Avoids CodePoint.isDigit) :
    Lexeme.number? (('.' : CodePoint) :: u) = none := by
  have hfraction : Decimal.scan? (('.' : CodePoint) :: u) = none := by
    have htake : u.takeWhile CodePoint.isDigit = [] := hu.takeWhile_append []
    have hpoint : CodePoint.isDigit '.' = false := by decide
    simp only [Decimal.scan?, List.takeWhile_cons, List.dropWhile_cons, hpoint, htake,
      Decimal.scanFraction, Bool.false_eq_true, if_false, if_true, List.isEmpty_nil, Bool.and_self]
  rw [Lexeme.number?, hfraction, Option.map_none]

theorem Spells.exists_cons (h : t.Spells w) : ∃ c s, w = c :: s ∧ t.canStart c = true := by
  obtain ⟨hsplits, hhead⟩ := lexeme?_eq_some h.1
  have hw : w ≠ [] := hsplits.1
  obtain ⟨c, s, rfl⟩ := List.exists_cons_of_ne_nil hw
  exact ⟨c, s, rfl, hhead⟩

/-- A token has the same lexemes in front of a text that it does not run on with, of its own kind
and of the kinds that are tried earlier. -/
theorem Spells.lexeme?_append_of (h : t.Spells w) (hu : u.Avoids t.continues)
    (hle : t'.ctorIdx ≤ t.ctorIdx) :
    t'.lexeme? (w ++ u) = (t'.lexeme? w).map (Lexeme.before u) := by
  obtain ⟨c, w', rfl, hhead⟩ := h.exists_cons
  have hw : c :: w' ≠ [] := List.cons_ne_nil c w'
  by_cases hstart : t'.canStart c = true
  · rcases t.kinds with rfl | rfl | rfl | rfl | ⟨v, hv⟩ | hmarks
    · have ht' : t' = number := by
        revert hle
        cases t' <;> decide
      subst ht'
      exact Lexeme.number?_append hu _
    · rw [of_decide_eq_true hhead] at hstart
      have hstring : Lexeme.string? (c :: w') = some (c :: w', []) := h.1
      rw [canStart_quote hstart, h.1]
      exact Lexeme.string?_append hstring u
    · exact lexeme?_word_append (keyword_of_canStart hhead hstart) hw hu
    · have ht' : t' = tag := by
        have hc : c = '`' := of_decide_eq_true hhead
        rw [hc] at hstart
        revert hle hstart
        cases t' <;> decide
      subst ht'
      exact Lexeme.tag?_append hw hu
    · rw [continues_of_keyword hv] at hu
      rw [canStart_of_keyword hv] at hhead
      exact lexeme?_word_append (keyword_of_canStart hhead hstart) hw hu
    · rw [Spells, lexeme?_of_marks hmarks] at h
      have hmem := (Lexeme.oneOf?_eq_some h.1).1
      rcases marks_of_canStart hmem hstart with hmarks' | ⟨rfl, rfl⟩
      · rw [lexeme?_of_marks hmarks', lexeme?_of_marks hmarks']
        refine Lexeme.oneOf?_append_of fun v hv => Lexeme.isPrefixOf_append_of ?_
        intro hpre d hd hmem'
        exact hu.ne hmem' (continues_of_longer hle hmem hv hpre d hd) rfl
      · have hpoint : c :: w' = [('.' : CodePoint)] := List.mem_singleton.1 hmem
        rw [hpoint]
        exact number?_point_append hu
  · rw [Bool.not_eq_true] at hstart
    rw [lexeme?_eq_none rfl hstart, lexeme?_eq_none rfl hstart]
    rfl

/-- A token is found in front of a text that it does not run on with, and none of the kinds that are
tried earlier is. -/
theorem Spells.lexeme?_before (h : t.Spells w) (hu : u.Avoids t.continues) :
    t.lexeme? (w ++ u) = some (w, u)
      ∧ ∀ t' : Terminal, t'.ctorIdx < t.ctorIdx → t'.lexeme? (w ++ u) = none := by
  constructor
  · rw [h.lexeme?_append_of hu (Nat.le_refl _), h.1]
    rfl
  · intro t' hlt
    rw [h.lexeme?_append_of hu (Nat.le_of_lt hlt), h.lexeme?_earlier hlt]
    rfl

/-- A token does not start like a blank, whatever stands behind it. -/
theorem Spells.blank?_before (h : t.Spells w) (hu : u.Avoids t.continues) :
    Lexeme.blank? (w ++ u) = none := by
  obtain ⟨c, w', rfl, hhead⟩ := h.exists_cons
  have hblank : Lexeme.isBlank c = false := by
    rw [Bool.eq_false_iff]
    intro hblank
    rw [not_canStart_of_isBlank hblank] at hhead
    cases hhead
  rw [Lexeme.blank?, List.cons_append, List.head?_cons, Option.any_some, hblank,
    if_neg Bool.false_ne_true]
  refine Lexeme.comment?_of_not_open ?_
  rw [Bool.eq_false_iff]
  intro hopen
  obtain ⟨s, hs⟩ := Lexeme.opensComment_iff.1 hopen
  obtain ⟨rfl, hrest⟩ := List.cons.inj hs
  have ht : t = leftParen := canStart_leftParen hhead
  subst ht
  have hparen : ('(' : CodePoint) :: w' = [('(' : CodePoint)] :=
    List.mem_singleton.1 (Lexeme.oneOf?_eq_some h.1).1
  rw [(List.cons.inj hparen).2, List.nil_append] at hrest
  subst hrest
  exact hu.ne rfl rfl rfl

end Terminal

/-! ### Layouts -/

/-- A text in which tokens stand in a row, with blanks between them. The blanks may be left out
where a token is not read together with what comes next. -/
inductive Text.LaysOut : Text → List Token → Prop
  | nil {gap : Text} (hgap : ∀ c ∈ gap, Lexeme.isBlank c = true) : LaysOut gap []
  | cons {gap u : Text} {token : Token} {ts : List Token}
    (hgap : ∀ c ∈ gap, Lexeme.isBlank c = true) (hspells : token.kind.Spells token.text)
    (hu : u.Avoids token.kind.continues) (hrest : LaysOut u ts) :
    LaysOut (gap ++ (token.text ++ u)) (token :: ts)

namespace Cursor

theorem skip_of_blanks {c : Cursor} {gap s : Text} (hc : c.rest = gap ++ s)
    (hgap : ∀ d ∈ gap, Lexeme.isBlank d = true) (hs : Lexeme.blank? s = none) :
    c.skip.rest = s := by
  cases gap with
  | nil =>
    rw [List.nil_append] at hc
    rw [skip_of_none (hc ▸ hs), hc]
  | cons d gap =>
    have havoids := Lexeme.avoids_of_blank?_eq_none hs
    have hblank : Lexeme.blank? c.rest = some (d :: gap, s) := by
      have hd : Lexeme.isBlank d = true := hgap d List.mem_cons_self
      rw [hc, Lexeme.blank?, List.cons_append, List.head?_cons, Option.any_some, if_pos hd,
        ← List.cons_append, havoids.takeWhile_append, havoids.dropWhile_append,
        List.takeWhile_eq_self_iff.2 hgap, List.dropWhile_eq_nil_iff.2 hgap, List.nil_append]
    rw [skip_of_some hblank, skip_of_none hs]
    rfl

/-- Tokens that are laid out are read one by one. -/
theorem spells_laysOut {q : Nat} {ts : List Token} {qs : List Nat} {c : Cursor}
    (hadmits : Admits q ts qs) (h : c.rest.LaysOut ts) :
    ∃ us : List Token, us.map Token.unplaced = ts.map Token.unplaced ∧ c.Spells q us qs := by
  induction hadmits generalizing c with
  | @nil q =>
    generalize hc : c.rest = s at h
    cases h with
    | nil hgap =>
      refine ⟨[], rfl, c, q, .refl, skip_of_blanks ?_ hgap rfl⟩
      rw [hc, List.append_nil]
  | @cons q q' token ts qs hq _ _ ih =>
    generalize hc : c.rest = s at h
    cases h with
    | @cons gap u _ _ hgap hspells hu hrest =>
      have hskip : c.skip.rest = token.text ++ u :=
        skip_of_blanks hc hgap (hspells.blank?_before hu)
      obtain ⟨hlexeme, hearlier⟩ := hspells.lexeme?_before hu
      rw [← hskip] at hlexeme hearlier
      have htoken := token?_of_first hq hlexeme fun t' hlt _ => hearlier t' hlt
      obtain ⟨us, hus, c', q'', hreads, hend⟩ := @ih (c.skip.after (token.text, u)) hrest
      refine ⟨_ :: us, ?_, c', q'', .token htoken hreads, hend⟩
      rw [List.map_cons, List.map_cons, hus]
      rfl

end Cursor

/-- A text that lays out the tokens of a derivation is read as this derivation. -/
theorem Tree.exists_ofSource_laysOut {source : Text} {tree : Tree (.nonterminal .program)}
    (h : source.LaysOut tree.tokens) :
    ∃ tree', Tree.ofSource source = .ok tree' ∧ tree'.unplaced = tree.unplaced := by
  have hstart : (Cursor.start source).rest.LaysOut tree.tokens := h
  obtain ⟨us, hus, hspells⟩ := Cursor.spells_laysOut tree.admits_tokens hstart
  exact tree.exists_ofSource hus hspells

namespace Text

variable {s u : Text} {ts us : List Token}

/-- A token that is set apart from the tokens behind it. -/
theorem LaysOut.space (h : u.LaysOut ts) : LaysOut ((' ' : CodePoint) :: u) ts := by
  cases h with
  | nil hgap => exact .nil (List.forall_mem_cons.2 ⟨rfl, hgap⟩)
  | @cons gap u token ts hgap hspells hu hrest =>
    rw [← List.cons_append]
    exact .cons (List.forall_mem_cons.2 ⟨rfl, hgap⟩) hspells hu hrest

theorem LaysOut.token (token : Token) (hspells : token.kind.Spells token.text)
    (hu : u.Avoids token.kind.continues) (h : u.LaysOut ts) :
    LaysOut (token.text ++ u) (token :: ts) := by
  rw [← List.nil_append (token.text ++ u)]
  exact .cons (List.forall_mem_nil _) hspells hu h

theorem avoids_space (t : Terminal) (u : Text) : Avoids t.continues ((' ' : CodePoint) :: u) :=
  .cons (Terminal.not_continues_of_isBlank rfl t)

/-- Tokens that are set apart, and behind them others that the last of them is not read with. -/
theorem laysOut_setApart_append (hts : ∀ token ∈ ts, token.kind.Spells token.text)
    (hu : ∀ t : Terminal, u.Avoids t.continues) (h : u.LaysOut us) :
    LaysOut (setApart (ts.map (·.text)) ++ u) (ts ++ us) := by
  induction ts with
  | nil => exact h
  | cons token ts ih =>
    have hspells := hts token List.mem_cons_self
    have hrest := ih fun token' hmem => hts token' (List.mem_cons_of_mem _ hmem)
    rw [List.map_cons, setApart_cons, List.append_assoc]
    cases ts with
    | nil => exact .token _ hspells (hu _) h
    | cons token' ts => exact .token _ hspells (avoids_space _ _) hrest.space

end Text

end Toplevel
