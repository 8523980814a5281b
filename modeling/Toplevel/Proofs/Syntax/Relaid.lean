import Mathlib.Data.List.TakeWhile
import Toplevel.Proofs.Syntax.Cut
import Toplevel.Proofs.Syntax.Grammar
import Toplevel.Proofs.Syntax.Statements

/-!
# Layout and comments

Between the tokens of a source stand white space and comments (`Text.IsGap`). What a source means
does not depend on them: with any of them put between two tokens, before the first or behind the
last, and with those that there are exchanged for others, a source is read as the same program up to
places (`parse_relaid`). For a token ends where a gap starts, whatever was behind it before
(`Terminal.lexeme?_exchange`), and where there is no gap it is followed by the same tokens up to the
next one.
-/

namespace Toplevel

open Automaton

/-! ### Comments -/

namespace Text

def commentStart : Text := ['(', '*']

def commentEnd : Text := ['*', ')']

/-- A comment as a whole: it goes on to the first `*)` behind what opens it. -/
def IsComment (t : Text) : Prop :=
  ∃ body : Text, t = commentStart ++ (body ++ commentEnd)
    ∧ ¬ commentEnd <:+: body ++ [('*' : CodePoint)]

end Text

namespace Lexeme

open Text

theorem commentRest?_body {body : Text} (h : ¬ commentEnd <:+: body ++ [('*' : CodePoint)]) :
    commentRest? (body ++ commentEnd) = some (body ++ commentEnd, []) := by
  induction body with
  | nil => rfl
  | cons c body ih =>
    rw [List.cons_append, List.infix_cons_iff, not_or] at h
    have hgoes : (c = ('*' : CodePoint)
        && (body ++ commentEnd).head? = some (')' : CodePoint)) = false := by
      rw [Bool.eq_false_iff, Ne, Bool.and_eq_true, decide_eq_true_eq, decide_eq_true_eq]
      rintro ⟨rfl, hhead⟩
      cases body with
      | nil => cases hhead
      | cons d body =>
        rw [List.cons_append, List.head?_cons, Option.some.injEq] at hhead
        rw [hhead] at h
        exact h.1 ⟨body ++ [('*' : CodePoint)], rfl⟩
    rw [List.cons_append, commentRest?, hgoes, ih h.2]
    rfl

theorem exists_body {s : Text} {x : Lexeme} (h : commentRest? s = some x) :
    ∃ body, x.1 = body ++ commentEnd ∧ ¬ commentEnd <:+: body ++ [('*' : CodePoint)] := by
  induction s generalizing x with
  | nil => cases h
  | cons c t ih =>
    rw [commentRest?] at h
    split at h
    · rename_i hend
      rw [Bool.and_eq_true, decide_eq_true_eq, decide_eq_true_eq] at hend
      obtain ⟨rfl, hhead⟩ := hend
      cases t with
      | nil => cases hhead
      | cons d t =>
        rw [List.head?_cons, Option.some.injEq] at hhead
        cases h
        rw [hhead]
        exact ⟨[], rfl, fun hinfix => absurd hinfix.length_le (by decide)⟩
    · rename_i hend
      obtain ⟨y, hy, rfl⟩ := Option.map_eq_some_iff.1 h
      obtain ⟨body, hbody, hinfix⟩ := ih hy
      refine ⟨c :: body, by rw [prepend, hbody]; rfl, ?_⟩
      rw [List.cons_append, List.infix_cons_iff, not_or]
      refine ⟨fun hprefix => hend ?_, hinfix⟩
      obtain ⟨hc, hbody'⟩ := List.cons_prefix_cons.1 hprefix
      rw [Bool.and_eq_true, decide_eq_true_eq, decide_eq_true_eq]
      refine ⟨hc.symm, ?_⟩
      rw [← (commentRest?_append hy).1.2, hbody]
      cases body with
      | nil => cases (List.cons_prefix_cons.1 hbody').1
      | cons d body => rw [← (List.cons_prefix_cons.1 hbody').1]; rfl

theorem comment?_of_isComment {t : Text} (h : t.IsComment) (s : Text) :
    comment? (t ++ s) = some (t, s) := by
  obtain ⟨body, rfl, hbody⟩ := h
  have hcomment : comment? (commentStart ++ (body ++ commentEnd))
      = some (commentStart ++ (body ++ commentEnd), []) := by
    rw [commentStart, List.cons_append, List.cons_append, comment?_open, List.nil_append,
      commentRest?_body hbody]
    rfl
  exact (comment?_append hcomment).2 s

theorem isComment_of_comment? {s : Text} {x : Lexeme} (h : comment? s = some x) :
    x.1.IsComment := by
  cases hopen : opensComment s with
  | false =>
    rw [comment?_of_not_open hopen] at h
    cases h
  | true =>
    obtain ⟨t, rfl⟩ := opensComment_iff.1 hopen
    rw [comment?_open] at h
    obtain ⟨y, hy, rfl⟩ := Option.map_eq_some_iff.1 h
    obtain ⟨body, hbody, hinfix⟩ := exists_body hy
    exact ⟨body, by rw [prepend, hbody]; rfl, hinfix⟩

end Lexeme

/-! ### Gaps -/

/-- White space and comments in any number. -/
inductive Text.IsGap : Text → Prop
  | nil : IsGap []
  | blank {c : CodePoint} {g : Text} (hc : Lexeme.isBlank c = true) (hg : IsGap g) : IsGap (c :: g)
  | comment {t g : Text} (ht : t.IsComment) (hg : IsGap g) : IsGap (t ++ g)

namespace Text.IsGap

variable {g : Text}

theorem append {g' : Text} (hg : g.IsGap) (hg' : g'.IsGap) : IsGap (g ++ g') := by
  induction hg with
  | nil => exact hg'
  | blank hc _ ih => exact .blank hc ih
  | comment ht _ ih =>
    rw [List.append_assoc]
    exact .comment ht ih

theorem of_blanks (h : ∀ c ∈ g, Lexeme.isBlank c = true) : g.IsGap := by
  induction g with
  | nil => exact .nil
  | cons c g ih =>
    rw [List.forall_mem_cons] at h
    exact .blank h.1 (ih h.2)

theorem of_blank? {s : Text} {x : Lexeme} (h : Lexeme.blank? s = some x) : x.1.IsGap := by
  rw [Lexeme.blank?] at h
  split at h
  · cases h
    exact of_blanks fun c hc => List.mem_takeWhile_imp hc
  · rw [← List.append_nil x.1]
    exact .comment (Lexeme.isComment_of_comment? h) .nil

/-- A gap ends the token before it. -/
theorem breaks (hg : g.IsGap) (hne : g ≠ []) (s : Text) : (g ++ s).Breaks := by
  cases hg with
  | nil => exact absurd rfl hne
  | blank hc _ => exact .cons (CodePoint.isBreak_iff.2 (.inl (Lexeme.isSpace_of_isBlank hc)))
  | comment ht _ =>
    obtain ⟨body, rfl, -⟩ := ht
    exact .cons rfl

/-- A gap does not start like a star. -/
theorem head?_ne_star (hg : g.IsGap) : g.head? ≠ some ('*' : CodePoint) := by
  cases hg with
  | nil => exact nofun
  | blank hc _ =>
    rw [List.head?_cons]
    intro h
    rw [Option.some.inj h] at hc
    cases hc
  | comment ht _ =>
    obtain ⟨body, rfl, -⟩ := ht
    exact nofun

end Text.IsGap

namespace Cursor

variable {c d : Cursor}

theorem rest_skip_congr (h : c.rest = d.rest) : c.skip.rest = d.skip.rest := by
  induction hn : c.rest.length using Nat.strong_induction_on generalizing c d with
  | h n ih =>
    subst hn
    cases hx : Lexeme.blank? d.rest with
    | none => rw [skip_of_none hx, skip_of_none (h ▸ hx), h]
    | some x =>
      have hx' : Lexeme.blank? c.rest = some x := h ▸ hx
      rw [skip_of_some hx, skip_of_some hx']
      exact ih _ (Lexeme.blank?_splits hx').length_lt rfl rfl

/-- One blank more is skipped as well. -/
theorem rest_skip_blank {b : CodePoint} (hb : Lexeme.isBlank b = true)
    (hc : c.rest = b :: d.rest) : c.skip.rest = d.skip.rest := by
  have hblank : Lexeme.blank? c.rest
      = some (b :: d.rest.takeWhile Lexeme.isBlank, d.rest.dropWhile Lexeme.isBlank) := by
    rw [hc, Lexeme.blank?, List.head?_cons, Option.any_some, if_pos hb, List.takeWhile_cons,
      List.dropWhile_cons, if_pos hb, if_pos hb]
  rw [skip_of_some hblank]
  by_cases hd : d.rest.head?.any Lexeme.isBlank = true
  · have hblank' : Lexeme.blank? d.rest
        = some (d.rest.takeWhile Lexeme.isBlank, d.rest.dropWhile Lexeme.isBlank) := if_pos hd
    rw [skip_of_some hblank']
    exact rest_skip_congr rfl
  · have havoids : d.rest.Avoids Lexeme.isBlank := by
      intro e he
      rw [Option.mem_def.1 he, Option.any_some, Bool.not_eq_true] at hd
      exact hd
    exact rest_skip_congr (havoids.dropWhile_append [])

theorem rest_skip_gap {g s : Text} (hg : g.IsGap) (hc : c.rest = g ++ s)
    (hs : Lexeme.blank? s = none) : c.skip.rest = s := by
  induction hg generalizing c with
  | nil => rw [skip_of_none (hc ▸ hs), hc, List.nil_append]
  | @blank b g hb _ ih =>
    rw [rest_skip_blank (d := .start (g ++ s)) hb hc]
    exact ih rfl
  | @comment t g ht _ ih =>
    have hblank : Lexeme.blank? c.rest = some (t, g ++ s) := by
      rw [hc, List.append_assoc, Lexeme.blank?, if_neg, Lexeme.comment?_of_isComment ht]
      obtain ⟨body, rfl, -⟩ := ht
      exact Bool.false_ne_true
    rw [skip_of_some hblank]
    exact ih rfl

theorem exists_gap (c : Cursor) : ∃ g : Text, g.IsGap ∧ c.rest = g ++ c.skip.rest := by
  induction hn : c.rest.length using Nat.strong_induction_on generalizing c with
  | h n ih =>
    subst hn
    cases hx : Lexeme.blank? c.rest with
    | none => exact ⟨[], .nil, by rw [skip_of_none hx, List.nil_append]⟩
    | some x =>
      have hsplits := Lexeme.blank?_splits hx
      obtain ⟨g, hg, hrest⟩ := ih _ hsplits.length_lt (c.after x) rfl
      refine ⟨x.1 ++ g, (Text.IsGap.of_blank? hx).append hg, ?_⟩
      rw [skip_of_some hx, List.append_assoc, ← hrest]
      exact hsplits.2.symm

end Cursor

/-! ### Sources with the same tokens -/

/-- Two texts with the given texts in a row and gaps around them. The second one has a gap wherever
the first one does. -/
inductive Text.Relaid : List Text → Text → Text → Prop
  | nil {g g' : Text} (hg : g.IsGap) (hg' : g'.IsGap) : Relaid [] g g'
  | cons {g g' t s s' : Text} {ts : List Text} (hg : g.IsGap) (hg' : g'.IsGap)
    (hkept : g ≠ [] → g' ≠ []) (hrest : Relaid ts s s') :
    Relaid (t :: ts) (g ++ (t ++ s)) (g' ++ (t ++ s'))

namespace Text.Relaid

variable {ts : List Text} {s s' : Text}

/-- Both go on in the same way up to where there is a gap in the second one. -/
theorem exists_exchange (h : Relaid ts s s') :
    ∃ r v u : Text, s = r ++ v ∧ s' = r ++ u ∧ u.Breaks := by
  induction h with
  | @nil g g' hg hg' =>
    by_cases hne : g' = []
    · exact ⟨[], g, [], rfl, hne, .nil⟩
    · exact ⟨[], g, g', rfl, rfl, by simpa only [List.append_nil] using hg'.breaks hne []⟩
  | @cons g g' t s s' ts hg hg' hkept _ ih =>
    by_cases hne : g' = []
    · have hnil : g = [] := by
        by_contra h
        exact hkept h hne
      obtain ⟨r, v, u, rfl, rfl, hu⟩ := ih
      subst hne hnil
      exact ⟨t ++ r, v, u, by rw [List.nil_append, List.append_assoc],
        by rw [List.nil_append, List.append_assoc], hu⟩
    · exact ⟨[], _, _, rfl, rfl, hg'.breaks hne _⟩

theorem refl_right (h : Relaid ts s s') : Relaid ts s' s' := by
  induction h with
  | nil _ hg' => exact .nil hg' hg'
  | cons _ hg' _ _ ih => exact .cons hg' hg' id ih

/-- What starts with a star starts with a text in the row. -/
theorem head_of_star (h : Relaid ts s s') (hs : s.head? = some ('*' : CodePoint)) :
    ∃ t ts', ts = t :: ts' ∧ (t ≠ [] → t.head? = some ('*' : CodePoint)) := by
  cases h with
  | nil hg _ => exact absurd hs hg.head?_ne_star
  | @cons g _ t s _ ts hg _ _ _ =>
    refine ⟨t, ts, rfl, fun hne => ?_⟩
    cases g with
    | nil => rwa [List.nil_append, List.head?_append_of_ne_nil t hne] at hs
    | cons c g => exact absurd hs hg.head?_ne_star

end Text.Relaid

/-- A token that is read somewhere. -/
def Token.IsRead (token : Token) : Prop :=
  ∃ y, token.kind.lexeme? (token.text ++ y) = some (token.text, y)

namespace Token.IsRead

variable {token : Token}

theorem ne_nil (h : token.IsRead) : token.text ≠ [] := by
  obtain ⟨y, hy⟩ := h
  exact (Terminal.lexeme?_eq_some hy).1.1

theorem canStart (h : token.IsRead) {c : CodePoint} (hc : token.text.head? = some c) :
    token.kind.canStart c = true := by
  have hne := h.ne_nil
  obtain ⟨y, hy⟩ := h
  have hhead := (Terminal.lexeme?_eq_some hy).2
  rwa [List.head?_append_of_ne_nil _ hne, hc, Option.any_some] at hhead

theorem text_eq (h : token.IsRead) (hkind : token.kind = .leftParen) :
    token.text = [('(' : CodePoint)] := by
  obtain ⟨y, hy⟩ := h
  rw [hkind] at hy
  exact List.mem_singleton.1 (Lexeme.oneOf?_eq_some hy).1

/-- A token opens no comment with what follows it: no star comes after a parenthesis that
opens. -/
theorem opensComment_eq_false {ts : List Token} (hts : ∀ t ∈ token :: ts, t.IsRead) {q : Nat}
    {qs : List Nat} (hadmits : Admits q (token :: ts) qs) {s s' : Text}
    (h : Text.Relaid (ts.map Token.text) s s') :
    Lexeme.opensComment (token.text ++ s) = false := by
  have hread := hts token List.mem_cons_self
  obtain ⟨c, x, hx⟩ := List.exists_cons_of_ne_nil hread.ne_nil
  have hstart := hread.canStart (by rw [hx]; rfl)
  rw [Bool.eq_false_iff]
  intro hopen
  obtain ⟨u, hu⟩ := Lexeme.opensComment_iff.1 hopen
  rw [hx] at hu
  obtain ⟨rfl, -⟩ := List.cons.inj hu
  have hkind := Terminal.canStart_leftParen hstart
  rw [← hx, hread.text_eq hkind] at hu
  have hs : s = ('*' : CodePoint) :: u := (List.cons.inj hu).2
  obtain ⟨t, ts', hts', hstar⟩ := h.head_of_star (by rw [hs]; rfl)
  obtain ⟨next, ts, rfl, rfl, -⟩ := List.map_eq_cons_iff.1 hts'
  have hnext := hts next (List.mem_cons_of_mem _ List.mem_cons_self)
  have hproduct := Terminal.canStart_star (hnext.canStart (hstar hnext.ne_nil))
  cases hadmits with
  | cons _ hparen hrest =>
    cases hrest with
    | cons haccepts _ _ =>
      rw [hproduct, hparen hkind] at haccepts
      cases haccepts

/-- A token starts with no blank. -/
theorem blank?_of_not_opensComment (h : token.IsRead) {s : Text}
    (hopen : Lexeme.opensComment (token.text ++ s) = false) :
    Lexeme.blank? (token.text ++ s) = none := by
  obtain ⟨c, x, hx⟩ := List.exists_cons_of_ne_nil h.ne_nil
  have hstart := h.canStart (by rw [hx]; rfl)
  have hblank : ¬ Option.any Lexeme.isBlank (token.text ++ s).head? = true := by
    rw [hx]
    intro hblank
    cases hstart.symm.trans (Terminal.not_canStart_of_isBlank hblank _)
  rw [Lexeme.blank?, if_neg hblank]
  exact Lexeme.comment?_of_not_open hopen

theorem blank?_eq_none {ts : List Token} (hts : ∀ t ∈ token :: ts, t.IsRead) {q : Nat}
    {qs : List Nat} (hadmits : Admits q (token :: ts) qs) {s s' : Text}
    (h : Text.Relaid (ts.map Token.text) s s') : Lexeme.blank? (token.text ++ s) = none :=
  blank?_of_not_opensComment (hts token List.mem_cons_self) (opensComment_eq_false hts hadmits h)

end Token.IsRead

namespace Cursor

variable {c d c' : Cursor} {q q' : Nat} {ts : List Token} {qs : List Nat}

theorem Reads.isRead (h : c.Reads q ts qs c' q') : ∀ t ∈ ts, t.IsRead := by
  induction h with
  | refl => exact nofun
  | token htoken _ ih =>
    have hlexeme := (token?_eq_some htoken).2.1
    rw [← (Terminal.lexeme?_eq_some hlexeme).1.2] at hlexeme
    exact List.forall_mem_cons.2 ⟨⟨_, hlexeme⟩, ih⟩

/-- What is between two places are the tokens that are read, with gaps around them. -/
theorem Reads.exists_relaid (h : c.Reads q ts qs c' q') :
    ∃ r, c.rest = r ++ c'.skip.rest ∧ Text.Relaid (ts.map Token.text) r r := by
  induction h with
  | @refl c q =>
    obtain ⟨g, hg, hrest⟩ := c.exists_gap
    exact ⟨g, hrest, .nil hg hg⟩
  | @token c c₁ _ _ _ _ token ts qs htoken _ ih =>
    obtain ⟨g, hg, hrest⟩ := c.exists_gap
    obtain ⟨r, hr, hlaid⟩ := ih
    have hsplits := (Terminal.lexeme?_eq_some (token?_eq_some htoken).2.1).1.2
    refine ⟨g ++ (token.text ++ r), ?_, .cons hg hg id hlaid⟩
    rw [hrest, ← hsplits, hr, List.append_assoc, List.append_assoc]

theorem Reads.relaid (h : c.Reads q ts qs c' q') (hend : c'.skip.rest = []) :
    Text.Relaid (ts.map Token.text) c.rest c.rest := by
  obtain ⟨r, hr, hlaid⟩ := h.exists_relaid
  rwa [hr, hend, List.append_nil]

/-- Where the tokens of a source are relaid, they are read as before. -/
theorem Reads.of_relaid (hreads : c.Reads q ts qs c' q') (hend : c'.skip.rest = [])
    (hadmits : Admits q ts qs) (h : Text.Relaid (ts.map Token.text) c.rest d.rest) :
    ∃ us, us.map Token.unplaced = ts.map Token.unplaced ∧ d.Spells q us qs := by
  induction hreads generalizing d with
  | @refl c q =>
    generalize hd : d.rest = s at h
    cases h with
    | nil _ hg' =>
      exact ⟨[], rfl, d, q, .refl, rest_skip_gap hg' (by rw [hd, List.append_nil]) rfl⟩
  | @token c c₁ c' q q₁ q' token ts qs htoken hreads ih =>
    have hts := (Reads.token htoken hreads).isRead
    generalize hc : c.rest = s at h
    generalize hd : d.rest = s' at h
    cases h with
    | @cons g g' _ s s' _ hg hg' _ hrest =>
      have hskip := rest_skip_gap hg hc (Token.IsRead.blank?_eq_none hts hadmits hrest)
      have hskip' := rest_skip_gap hg' hd (Token.IsRead.blank?_eq_none hts hadmits hrest.refl_right)
      obtain ⟨hadmitted, hlexeme, -, -, -, hfirst⟩ := token?_eq_some htoken
      have hc₁ : c₁.rest = s := by
        have hsplit : token.text ++ c₁.rest = c.skip.rest := (Terminal.lexeme?_eq_some hlexeme).1.2
        rw [hskip] at hsplit
        exact List.append_cancel_left hsplit
      rw [hskip, hc₁] at hlexeme
      obtain ⟨r, v, u, rfl, rfl, hu⟩ := hrest.exists_exchange
      obtain ⟨hlexeme', hearlier⟩ := Terminal.lexeme?_exchange hlexeme hu
      rw [← hskip'] at hlexeme' hearlier
      have htoken' := token?_of_first hadmitted hlexeme' fun t' hlt ht' =>
        hearlier t' hlt (hskip ▸ hfirst t' hlt ht')
      cases hadmits with
      | cons _ _ hadmits =>
        obtain ⟨us, hus, c'', q'', hreads', hend'⟩ :=
          ih (d := d.skip.after (token.text, r ++ u)) hend hadmits (hc₁ ▸ hrest)
        refine ⟨_ :: us, ?_, c'', q'', .token htoken' hreads', hend'⟩
        rw [List.map_cons, List.map_cons, hus]
        rfl

end Cursor

/-- Layout and comments never change what a source means: where a source is read as a program, its
tokens stand in it with gaps around them, and any text with the same tokens and other gaps around
them is read as the same program up to places, as long as tokens that were apart stay apart. -/
theorem parse_relaid {source : Text} {p : Program} (h : parse source = .ok p) :
    ∃ tree, Tree.ofSource source = .ok tree
      ∧ Text.Relaid (tree.tokens.map Token.text) source source
      ∧ ∀ source', Text.Relaid (tree.tokens.map Token.text) source source' →
        ∃ q, parse source' = .ok q ∧ q.unplaced = p.unplaced := by
  obtain ⟨tree, hsource, hmeaning⟩ := exists_of_parse h
  obtain ⟨c, q, hreads, hend⟩ := Text.hasTokens_iff.1 (Tree.ofSource_eq_ok_iff.1 hsource)
  refine ⟨tree, hsource, hreads.relaid hend, fun source' hrelaid => ?_⟩
  obtain ⟨us, hus, hspells⟩ :=
    hreads.of_relaid (d := .start source') hend tree.admits_tokens hrelaid
  obtain ⟨tree', hsource', hplaces⟩ := tree.exists_ofSource hus hspells
  obtain ⟨q, hq, hunplaced⟩ := Tree.meaning?_of_unplaced hplaces hmeaning
  exact ⟨q, parse_of_ofSource hsource' hq, hunplaced⟩

theorem parse_relaid_negated : ∃ q, parse "(*;*) -\n(* **)x\t" = .ok q
    ∧ q.unplaced = ⟨[.expr (.neg (.var "x" .start))]⟩ := by
  obtain ⟨tree, hsource, hplaces⟩ := Tree.ofSource_negated
  have hnegated : Tree.negated.meaning? = .ok (⟨[.expr (.neg (.var "x" ⟨1, 3⟩))]⟩ : Program) := rfl
  obtain ⟨p, hp, hunplaced⟩ := Tree.meaning?_of_unplaced hplaces hnegated
  obtain ⟨tree', hsource', -, hrelaid⟩ := parse_relaid (parse_of_ofSource hsource hp)
  cases hsource.symm.trans hsource'
  have htexts : tree.tokens.map Token.text = ["-", "x"] := by
    have hunplaced' := congrArg (fun t => t.tokens.map Token.text) hplaces
    simp only [Tree.tokens_unplaced, List.map_map] at hunplaced'
    exact hunplaced'
  rw [htexts] at hrelaid
  have hcomment : Text.IsComment "(*;*)" := ⟨";", by decide, by decide⟩
  have hstars : Text.IsComment "(* **)" := ⟨" *", by decide, by decide⟩
  have hlast : Text.Relaid [] [] "\t" := .nil .nil (.blank rfl .nil)
  have hspace : Text.IsGap "\n(* **)" := .blank rfl (.comment hstars .nil)
  have hfront : Text.IsGap "(*;*) " := .comment hcomment (.blank rfl .nil)
  have hblank : Text.IsGap " " := .blank rfl .nil
  have hname := Text.Relaid.cons (t := "x") hblank hspace (by decide) hlast
  have hminus := Text.Relaid.cons (t := "-") .nil hfront nofun hname
  obtain ⟨q, hq, hq'⟩ := hrelaid _ hminus
  exact ⟨q, hq, hq'.trans hunplaced⟩

end Toplevel
