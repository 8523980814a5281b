import Toplevel.Proofs.Syntax.Reading

/-!
# Sources and the grammar

The sources that are accepted are those whose tokens have a derivation, and a derivation is known by
its tokens. Where tokens are set apart by blanks, they are read as the tokens they are, so any
derivation is that of some source (`Tree.ofSource_exact`).
-/

namespace Toplevel

open Automaton

/-- Some texts with a blank between any two of them. -/
def Text.setApart (ts : List Text) : Text := Text.join [' '] ts

/-- What stands behind a text that is set apart from the texts `ts` after it. -/
def Text.gap : List Text → Text
  | [] => []
  | t :: ts => (' ' : CodePoint) :: setApart (t :: ts)

namespace Text

theorem setApart_cons (t : Text) (ts : List Text) : setApart (t :: ts) = t ++ gap ts := by
  cases ts with
  | nil => rfl
  | cons u ts => rfl

theorem breaks_gap (ts : List Text) : (gap ts).Breaks := by
  cases ts with
  | nil => exact .nil
  | cons t ts => exact .cons rfl

end Text

namespace Terminal

theorem not_canStart_of_isBlank {c : CodePoint} (h : Lexeme.isBlank c = true) (t : Terminal) :
    t.canStart c = false := by
  simp only [Lexeme.isBlank, Bool.or_eq_true, decide_eq_true_eq] at h
  obtain ⟨val, isLt⟩ := c
  rcases h with (((rfl | rfl) | rfl) | rfl) | rfl <;> cases t <;> rfl

/-- A token does not start like a blank. -/
theorem blank?_append {t : Terminal} {w u : Text} (hw : t.lexeme? w = some (w, []))
    (hu : u.Breaks) : Lexeme.blank? (w ++ u) = none := by
  obtain ⟨hsplits, hhead⟩ := lexeme?_eq_some hw
  obtain ⟨c, w, rfl⟩ := List.exists_cons_of_ne_nil hsplits.1
  have hblank : Lexeme.isBlank c = false := by
    rw [Bool.eq_false_iff]
    intro hblank
    rw [List.head?_cons, Option.any_some, not_canStart_of_isBlank hblank] at hhead
    cases hhead
  have hopen : Lexeme.opensComment (c :: w) = false := by
    rw [Bool.eq_false_iff]
    intro hopen
    obtain ⟨t', ht'⟩ := Lexeme.opensComment_iff.1 hopen
    cases ht'
    rw [canStart_leftParen hhead] at hw
    exact absurd (Lexeme.oneOf?_eq_some hw).1 (by simp [marks])
  rw [Lexeme.blank?, List.cons_append, List.head?_cons, Option.any_some, hblank,
    if_neg Bool.false_ne_true, ← List.cons_append]
  exact Lexeme.comment?_of_not_open
    ((Lexeme.opensComment_append (List.cons_ne_nil _ _) hu).trans hopen)

end Terminal

namespace Cursor

theorem skip_of_space {c : Cursor} {s : Text} (hc : c.rest = (' ' : CodePoint) :: s)
    (hs : Lexeme.blank? s = none) : c.skip.rest = s := by
  have havoids := Lexeme.avoids_of_blank?_eq_none hs
  have htake : s.takeWhile Lexeme.isBlank = [] ∧ s.dropWhile Lexeme.isBlank = s :=
    ⟨havoids.takeWhile_append [], havoids.dropWhile_append []⟩
  have hblank : Lexeme.blank? c.rest = some (([' '] : Text), s) := by
    rw [hc, Lexeme.blank?]
    change some (_ :: s.takeWhile Lexeme.isBlank, s.dropWhile Lexeme.isBlank) = _
    rw [htake.1, htake.2]
  rw [skip_of_some hblank, skip_of_none]
  · rfl
  · exact hs

end Cursor

/-- Where a token stands by itself in the state numbered `q`, it is what is read there: it is of no
kind that is admitted and tried earlier. -/
def Token.StandsAt (token : Token) (q : Nat) : Prop :=
  token.kind.lexeme? token.text = some (token.text, [])
    ∧ ∀ t : Terminal, t.ctorIdx < token.kind.ctorIdx → (state q).accepts t = true →
      t.lexeme? token.text = none

theorem Terminal.Spells.standsAt {token : Token} (h : token.kind.Spells token.text) (q : Nat) :
    token.StandsAt q :=
  ⟨h.1, fun _ hlt _ => h.lexeme?_earlier hlt⟩

namespace Cursor

/-- Tokens that are set apart are read one by one. -/
theorem spells_setApart {q : Nat} {ts : List Token} {qs : List Nat} {c : Cursor}
    (hadmits : Admits q ts qs) (hts : ∀ x ∈ ts.zip (q :: qs), x.1.StandsAt x.2)
    (hc : c.skip.rest = Text.setApart (ts.map (·.text))) :
    ∃ us : List Token, us.map Token.unplaced = ts.map Token.unplaced ∧ c.Spells q us qs := by
  induction hadmits generalizing c with
  | @nil q => exact ⟨[], rfl, c, q, .refl, hc⟩
  | @cons q q' token ts qs hq _ _ ih =>
    obtain ⟨hstands, hts⟩ := List.forall_mem_cons.1 hts
    have hgap := Text.breaks_gap (ts.map (·.text))
    rw [List.map_cons, Text.setApart_cons] at hc
    have hlexeme := Terminal.lexeme?_append_of_eq_some hstands.1 hgap
    have hearlier : ∀ t : Terminal, t.ctorIdx < token.kind.ctorIdx → (state q).accepts t = true →
        t.lexeme? (token.text ++ Text.gap (ts.map (·.text))) = none := fun t hlt ht =>
      Terminal.lexeme?_append_eq_none hstands.1 hgap hlt (hstands.2 t hlt ht)
    rw [← hc] at hlexeme hearlier
    have htoken := token?_of_first hq hlexeme hearlier
    have hrest : (c.skip.after (token.text, Text.gap (ts.map (·.text)))).skip.rest
        = Text.setApart (ts.map (·.text)) := by
      cases ts with
      | nil => rw [skip_of_none] <;> rfl
      | cons token' ts =>
        refine skip_of_space rfl ?_
        rw [List.map_cons, Text.setApart_cons]
        exact Terminal.blank?_append (hts _ List.mem_cons_self).1 (Text.breaks_gap _)
    obtain ⟨us, hus, c', q'', hreads, hend⟩ := ih hts hrest
    refine ⟨_ :: us, ?_, c', q'', .token htoken hreads, hend⟩
    rw [List.map_cons, List.map_cons, hus]
    rfl

end Cursor

namespace Tree

/-- A derivation is that of the source that sets its tokens apart if each of them is read there. -/
theorem exists_ofSource_standsAt {tree : Tree (.nonterminal .program)}
    (hstands : ∀ x ∈ tree.tokens.zip (0 :: tree.shifts 0), x.1.StandsAt x.2) :
    ∃ tree', Tree.ofSource (Text.setApart (tree.tokens.map (·.text))) = .ok tree'
      ∧ tree'.unplaced = tree.unplaced := by
  obtain ⟨token, rest, htokens, -⟩ := tree.head_starts
  have hstart : (Cursor.start (Text.setApart (tree.tokens.map (·.text)))).skip.rest
      = Text.setApart (tree.tokens.map (·.text)) := by
    rw [Cursor.skip_of_none]
    · rfl
    · change Lexeme.blank? (Text.setApart (tree.tokens.map (·.text))) = none
      rw [htokens] at hstands ⊢
      rw [List.map_cons, Text.setApart_cons]
      exact Terminal.blank?_append (hstands _ List.mem_cons_self).1 (Text.breaks_gap _)
  obtain ⟨us, hus, hreads⟩ := Cursor.spells_setApart tree.admits_tokens hstands hstart
  exact tree.exists_ofSource hus hreads

/-- Any derivation is that of the source that sets its tokens apart. -/
theorem exists_ofSource_setApart {tree : Tree (.nonterminal .program)}
    (hspells : ∀ token ∈ tree.tokens, token.kind.Spells token.text) :
    ∃ tree', Tree.ofSource (Text.setApart (tree.tokens.map (·.text))) = .ok tree'
      ∧ tree'.unplaced = tree.unplaced :=
  exists_ofSource_standsAt fun x hx => (hspells x.1 (List.of_mem_zip hx).1).standsAt x.2

/-- The parser accepts the language of the grammar: a source is accepted as a program just if its
tokens are those of the program; a program is known by its tokens; and where the tokens of a program
are set apart by blanks, and no name among them is spelled like a keyword, they are read as this
program. -/
theorem ofSource_exact :
    (∀ source tree, Tree.ofSource source = .ok tree ↔ source.HasTokens tree.tokens)
      ∧ (∀ tree tree' : Tree (.nonterminal .program), tree.tokens = tree'.tokens → tree = tree')
      ∧ ∀ tree : Tree (.nonterminal .program),
        (∀ token ∈ tree.tokens, token.kind.Spells token.text) →
        ∃ tree', Tree.ofSource (Text.setApart (tree.tokens.map (·.text))) = .ok tree'
          ∧ tree'.unplaced = tree.unplaced :=
  ⟨fun _ _ => ofSource_eq_ok_iff, fun _ _ => eq_of_tokens, fun _ => exists_ofSource_setApart⟩

/-- A tree by a rule with one symbol on the right. -/
def unit (p : Production) {s : Symbol} (tree : Tree s) (h : p.rhs = [s]) :
    Tree (.nonterminal p.lhs) :=
  .node p (h ▸ .cons tree .nil)

/-- A program of one unary phrase. -/
def ofUnary (tree : Tree (.nonterminal .unary)) : Tree (.nonterminal .program) :=
  unit .program (unit .statementsOne (unit .statementExpr (unit .exprAssign (unit .assignCompare
    (unit .compareConcat (unit .concatSum (unit .sumProduct (unit .productUnary tree
      rfl) rfl) rfl) rfl) rfl) rfl) rfl) rfl) rfl

/-- An atom as a unary phrase. -/
def ofAtom (tree : Tree (.nonterminal .atom)) : Tree (.nonterminal .unary) :=
  unit .unaryCall (unit .callSimple (unit .simpleAtom tree rfl) rfl) rfl

/-- The program `- x`. -/
def negated : Tree (.nonterminal .program) :=
  ofUnary (.node .neg (.cons (.leaf ⟨.minus, ['-'], 0, Position.start⟩)
    (.cons (ofAtom (unit .var (.leaf ⟨.name, ['x'], 2, ⟨1, 3⟩⟩) rfl)) .nil)))

theorem ofSource_negated :
    ∃ tree, Tree.ofSource "- x" = .ok tree ∧ tree.unplaced = negated.unplaced := by
  have htext : Text.setApart (negated.tokens.map (·.text)) = "- x" := by decide
  rw [← htext]
  exact exists_ofSource_setApart (by decide)

theorem ofSource_exact_negated : ∃ tree, Tree.ofSource "- x" = .ok tree
    ∧ tree.unplaced = negated.unplaced ∧ Text.HasTokens "- x" tree.tokens
    ∧ ∀ tree', tree'.tokens = tree.tokens → tree' = tree := by
  obtain ⟨hiff, hunique, hread⟩ := ofSource_exact
  obtain ⟨tree, hsource, hplaces⟩ := hread negated (by
    intro token htoken
    have hmem : token = ⟨.minus, ['-'], 0, Position.start⟩
        ∨ token = ⟨.name, ['x'], 2, ⟨1, 3⟩⟩ := by
      simpa [negated, ofUnary, ofAtom, unit, Tree.tokens, Forest.tokens] using htoken
    rcases hmem with rfl | rfl
    · exact ⟨rfl, fun h => by cases h⟩
    · exact ⟨rfl, fun _ t => by cases t <;> decide⟩)
  have htext : Text.setApart (negated.tokens.map (·.text)) = "- x" := by decide
  rw [htext] at hsource
  exact ⟨tree, hsource, hplaces, (hiff _ _).1 hsource, fun tree' h => hunique tree' tree h⟩

end Tree

end Toplevel
