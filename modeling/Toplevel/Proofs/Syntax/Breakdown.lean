import Toplevel.Proofs.Grammar.Viable
import Toplevel.Proofs.Syntax.Occurrences
import Toplevel.Proofs.Syntax.Relaid

/-!
# Where a source breaks off

A source that is not a program is rejected at a place up to which it could have become one
(`Tree.ofSource_error`). The place is one that the reading has come to (`Cursor.ComesTo`); if the
source ends too early it is that of the last token, which the reading came to before. What stands in
front of the place is read in the same way with a blank behind it (`Cursor.Reads.cut`), and then
some tokens complete it (`Stack.exists_program`).
-/

namespace Toplevel

open Automaton

/-! ### Places and what stands in front of them -/

theorem Position.Before.irrefl (p : Position) : ¬p.Before p := by
  unfold Before
  omega

/-- A place of a text is the place of one code point only. -/
theorem Text.eq_of_endPosition_take {s : Text} {i j : Nat} (hi : i ≤ s.length)
    (hj : j ≤ s.length) (h : endPosition (s.take i) = endPosition (s.take j)) : i = j := by
  by_contra hne
  wlog hlt : i < j generalizing i j
  · exact this hj hi h.symm (Ne.symm hne) (by omega)
  have hsplit : s.take j = s.take i ++ (s.take j).drop i := by
    have htake : (s.take j).take i = s.take i := by
      rw [List.take_take, Nat.min_eq_left (Nat.le_of_lt hlt)]
    rw [← htake, List.take_append_drop]
  have hrest : (s.take j).drop i ≠ [] := by
    rw [← List.length_pos_iff, List.length_drop, List.length_take]
    omega
  have hplace :
      (endPosition (s.take i)).afterText ((s.take j).drop i) = endPosition (s.take j) := by
    rw [← Position.afterText_start, ← Position.afterText_append, ← hsplit,
      Position.afterText_start]
  have hbefore := Position.before_afterText (p := endPosition (s.take i)) hrest
  rw [hplace, h] at hbefore
  exact Position.Before.irrefl _ hbefore

/-! ### The line around a place -/

namespace Text

theorem splitOn_of_notMem {sep : CodePoint} {t : Text} (h : sep ∉ t) : splitOn sep t = [t] := by
  induction t with
  | nil => rfl
  | cons c t ih =>
    rw [List.mem_cons, not_or] at h
    rw [splitOn, if_neg (Ne.symm h.1), ih h.2]

theorem splitOn_append (sep : CodePoint) (s t : Text) :
    splitOn sep (s ++ sep :: t) = splitOn sep s ++ splitOn sep t := by
  induction s with
  | nil => exact if_pos rfl
  | cons c s ih =>
    rw [List.cons_append, splitOn, splitOn, ih]
    split
    · rfl
    · cases h : splitOn sep s with
      | nil => exact absurd h (splitOn_ne_nil sep s)
      | cons piece pieces => rfl

/-- The last piece is what stands behind the last separator. -/
theorem getLast?_splitOn (sep : CodePoint) (t : Text) :
    (splitOn sep t).getLast? = some (t.rtakeWhile (· ≠ sep)) := by
  by_cases h : sep ∈ t
  · obtain ⟨u, s, hrev, hu⟩ := List.eq_append_cons_of_mem (List.mem_reverse.2 h)
    have ht : t = s.reverse ++ sep :: u.reverse := by
      rw [← List.reverse_reverse t, hrev, List.reverse_append, List.reverse_cons]
      simp
    have htake : (u ++ sep :: s).takeWhile (· ≠ sep) = u := by
      rw [List.takeWhile_append_of_pos, List.takeWhile_cons_of_neg, List.append_nil]
      · simp
      · intro c hc
        rw [decide_eq_true_eq]
        rintro rfl
        exact hu hc
    rw [List.rtakeWhile, hrev, htake, ht, splitOn_append,
      splitOn_of_notMem fun hmem => hu (List.mem_reverse.1 hmem), List.getLast?_concat]
  · rw [splitOn_of_notMem h, List.rtakeWhile_eq_self_iff.2]
    · rfl
    · intro c hc
      rw [decide_eq_true_eq]
      rintro rfl
      exact h hc

/-- A text as it is shown from a column on: a tab goes on to the next multiple of eight, and the
columns are counted anew behind the end of a line. -/
def expandFrom : Nat → Text → Text
  | _, [] => []
  | column, c :: t =>
    if c = ('\t' : CodePoint) then
      List.replicate (8 - column % 8) (' ' : CodePoint)
        ++ expandFrom (column + (8 - column % 8)) t
    else
      c :: expandFrom
        (if c = ('\n' : CodePoint) || c = ('\r' : CodePoint) then 0 else column + 1) t

def expand (t : Text) : Text := expandFrom 0 t

theorem length_expandFrom (column : Nat) (t : Text) :
    (expandFrom column t).length = widthFrom column t := by
  induction t generalizing column with
  | nil => rfl
  | cons c t ih =>
    rw [expandFrom, widthFrom]
    split
    · rw [List.length_append, List.length_replicate, ih]
    · rw [List.length_cons, ih, Nat.add_comm]
      split <;> rfl

/-- What is shown for a text does not depend on what follows it. -/
theorem exists_expandFrom_append (column : Nat) (s : Text) : ∃ column', ∀ t,
    expandFrom column (s ++ t) = expandFrom column s ++ expandFrom column' t := by
  induction s generalizing column with
  | nil => exact ⟨column, fun _ => rfl⟩
  | cons c s ih =>
    by_cases hc : c = ('\t' : CodePoint)
    · obtain ⟨column', h⟩ := ih (column + (8 - column % 8))
      refine ⟨column', fun t => ?_⟩
      rw [List.cons_append, expandFrom, expandFrom, if_pos hc, if_pos hc, h, List.append_assoc]
    · obtain ⟨column', h⟩ :=
        ih (if c = ('\n' : CodePoint) || c = ('\r' : CodePoint) then 0 else column + 1)
      refine ⟨column', fun t => ?_⟩
      rw [List.cons_append, expandFrom, expandFrom, if_neg hc, if_neg hc, h, List.cons_append]

/-- Behind what is shown for a text stands the code point that follows it. -/
theorem getElem?_expand_append {s t : Text} {c : CodePoint} (hc : c ≠ ('\t' : CodePoint)) :
    (expand (s ++ c :: t))[s.expand.length]? = some c := by
  obtain ⟨column, h⟩ := exists_expandFrom_append 0 s
  rw [expand, expand, h, List.getElem?_append_right (Nat.le_refl _), Nat.sub_self, expandFrom,
    if_neg hc]
  rfl

end Text

/-! ### Where the reading stops -/

namespace Cursor

/-- The reading comes to the place that an error is at, and there is more of the source there. -/
def ComesTo (c : Cursor) (stack : Stack) (e : SyntaxError) : Prop :=
  ∃ ts c' stack', c.Reads stack.top ts (stack.states ts) c' stack'.top
    ∧ stack.feedAll? ts = some stack' ∧ c'.skip.rest ≠ [] ∧ e.offset = c'.skip.offset
    ∧ e.position = c'.skip.position

variable {c c' : Cursor} {stack next : Stack} {e : SyntaxError}

theorem ComesTo.here (hrest : c.skip.rest ≠ []) (hoffset : e.offset = c.skip.offset)
    (hposition : e.position = c.skip.position) : c.ComesTo stack e :=
  ⟨[], c, stack, .refl, rfl, hrest, hoffset, hposition⟩

theorem ComesTo.token {token : Token}
    (htoken : c.skip.token? stack.state.accepts = some (token, c'))
    (hfeed : stack.feed? token = some next) (h : c'.ComesTo next e) : c.ComesTo stack e := by
  obtain ⟨ts, c'', stack', hreads, hall, hplace⟩ := h
  refine ⟨token :: ts, c'', stack', ?_, ?_, hplace⟩
  · rw [Stack.states_cons hfeed]
    exact .token (by rwa [← Stack.state_eq]) hreads
  · rw [Stack.feedAll?_cons hfeed, hall]

end Cursor

/-- The reading stops at a place that it has come to, or it has nothing left to read from the first
on. -/
theorem readFrom_error {source : Text} {fuel : Nat} {c : Cursor} {stack : Stack}
    {last : Option Token} {e : SyntaxError} (hfuel : c.rest.length < fuel)
    (h : readFrom source fuel c stack last = .error e) :
    e = .ofPlace source e.problem e.offset e.position
      ∧ (c.ComesTo stack e ∨ c.skip.rest = [] ∧ e = .unfinished source last) := by
  induction fuel generalizing c stack last with
  | zero => exact absurd hfuel (Nat.not_lt_zero _)
  | succ fuel ih =>
    cases hrest : c.skip.rest with
    | nil =>
      cases hcomplete : stack.complete? with
      | some tree => cases h.symm.trans (readFrom_complete hrest hcomplete)
      | none =>
        rw [Except.error.inj (h.symm.trans (readFrom_unfinished hrest hcomplete))]
        exact ⟨by cases last <;> rfl, .inr ⟨rfl, rfl⟩⟩
    | cons ch rest =>
      have hne : c.skip.rest ≠ [] := hrest ▸ List.cons_ne_nil _ _
      cases htoken : c.skip.token? stack.state.accepts with
      | some r =>
        obtain ⟨token, c'⟩ := r
        obtain ⟨-, -, hoffset, hposition, -⟩ := Cursor.token?_eq_some htoken
        cases hfeed : stack.feed? token with
        | some next =>
          rw [readFrom_token hrest htoken hfeed] at h
          have hlt := Cursor.token?_length_lt htoken
          have hle := c.length_skip_le
          obtain ⟨heq, hcomes | ⟨-, hlast⟩⟩ := ih (by omega) h
          · exact ⟨heq, .inl (hcomes.token htoken hfeed)⟩
          · subst hlast
            exact ⟨heq, .inl (.here hne hoffset hposition)⟩
        | none =>
          rw [Except.error.inj (h.symm.trans (readFrom_refused hrest htoken hfeed))]
          exact ⟨rfl, .inl (.here hne hoffset hposition)⟩
      | none =>
        cases hany : c.skip.token? fun _ => true with
        | some r =>
          obtain ⟨token, c'⟩ := r
          obtain ⟨-, -, hoffset, hposition, -⟩ := Cursor.token?_eq_some hany
          rw [Except.error.inj (h.symm.trans (readFrom_misplaced hrest htoken hany))]
          exact ⟨rfl, .inl (.here hne hoffset hposition)⟩
        | none =>
          rw [Except.error.inj (h.symm.trans (readFrom_character hrest htoken hany))]
          exact ⟨rfl, .inl (.here hne rfl rfl)⟩

/-! ### What stands in front of the place -/

namespace Cursor

variable {c c' d : Cursor} {q q' : Nat} {ts : List Token} {qs : List Nat}

theorem Reads.of {s : Text} (h : c.Reads q ts qs c' q') (hc : c.Of s) : c'.Of s := by
  induction h with
  | refl => exact hc
  | token htoken _ ih => exact ih (hc.skip.token? htoken)

theorem Reads.length_eq (h : c.Reads q ts qs c' q') : ts.length = qs.length := by
  induction h with
  | refl => rfl
  | token _ _ ih => rw [List.length_cons, List.length_cons, ih]

/-- The tokens in front of a place are read again when the source goes on with a blank from there
on. -/
theorem Reads.cut {r w : Text} (h : c.Reads q ts qs c' q') (hadmits : Admits q ts qs)
    (hc : c.rest = r ++ c'.skip.rest) (hd : d.rest = r ++ (' ' : CodePoint) :: w)
    (hw : Lexeme.blank? w = none) :
    ∃ us d', us.map Token.unplaced = ts.map Token.unplaced ∧ d.Reads q us qs d' q'
      ∧ d'.skip.rest = w := by
  induction h generalizing d r with
  | @refl c q =>
    obtain ⟨g, hg, hrest⟩ := c.exists_gap
    have hr : r = g := List.append_cancel_right (hc.symm.trans hrest)
    refine ⟨[], d, rfl, .refl, rest_skip_gap (hg.append (.blank (c := ' ') rfl .nil)) ?_ hw⟩
    rw [hd, hr, List.append_assoc]
    rfl
  | @token c c₁ c' q q₁ q' token ts qs htoken hreads ih =>
    have hts := (Reads.token htoken hreads).isRead
    have hbreaks : Text.Breaks ((' ' : CodePoint) :: w) := .cons rfl
    obtain ⟨g, hg, hrest⟩ := c.exists_gap
    obtain ⟨s, hs, hlaid⟩ := hreads.exists_relaid
    obtain ⟨hadmitted, hlexeme, -, -, -, hfirst⟩ := token?_eq_some htoken
    have hskip : c.skip.rest = token.text ++ (s ++ c'.skip.rest) := by
      rw [← hs]
      exact (Terminal.lexeme?_eq_some hlexeme).1.2.symm
    have hr : r = g ++ (token.text ++ s) := by
      refine (List.append_left_inj c'.skip.rest).1 ?_
      rw [← hc, hrest, hskip, List.append_assoc, List.append_assoc]
    have hopen := Token.IsRead.opensComment_eq_false hts hadmits hlaid
    have hread := hts token List.mem_cons_self
    have hskip' : d.skip.rest = token.text ++ (s ++ (' ' : CodePoint) :: w) := by
      refine rest_skip_gap hg ?_ (hread.blank?_of_not_opensComment ?_)
      · rw [hd, hr, List.append_assoc, List.append_assoc]
      · rw [← List.append_assoc, Lexeme.opensComment_append _ hbreaks, hopen]
        exact List.append_ne_nil_of_left_ne_nil hread.ne_nil s
    rw [hskip, hs] at hlexeme
    obtain ⟨hlexeme', hearlier⟩ := Terminal.lexeme?_exchange hlexeme hbreaks
    rw [← hskip'] at hlexeme' hearlier
    have htoken' := token?_of_first hadmitted hlexeme' fun t' hlt ht' =>
      hearlier t' hlt (hskip ▸ hfirst t' hlt ht')
    cases hadmits with
    | cons _ _ hadmits =>
      obtain ⟨us, d', hus, hreads', hend⟩ :=
        ih (d := d.skip.after (token.text, s ++ (' ' : CodePoint) :: w)) hadmits hs rfl
      refine ⟨_ :: us, d', ?_, .token htoken' hreads', hend⟩
      rw [List.map_cons, List.map_cons, hus]
      rfl

end Cursor

theorem Automaton.Admits.of_append_left {q : Nat} {ts us : List Token} {qs rs : List Nat}
    (h : Admits q (ts ++ us) (qs ++ rs)) (hlength : ts.length = qs.length) : Admits q ts qs := by
  induction ts generalizing q qs with
  | nil =>
    rw [List.length_eq_zero_iff.1 hlength.symm]
    exact .nil
  | cons token ts ih =>
    cases qs with
    | nil => cases hlength
    | cons q' qs =>
      cases h with
      | cons haccepts hparen hrest => exact .cons haccepts hparen (ih hrest (Nat.succ.inj hlength))

theorem Terminal.spells_sample (t : Terminal) : t.Spells t.sample := by
  cases t <;> decide

theorem Text.blank?_setApart {ts : List Token} (h : ∀ t ∈ ts, t.kind.Spells t.text) :
    Lexeme.blank? (setApart (ts.map (·.text))) = none := by
  cases ts with
  | nil => rfl
  | cons token ts =>
    rw [List.map_cons, setApart_cons]
    exact Terminal.blank?_append (h token List.mem_cons_self).1 (breaks_gap _)

/-- A source that goes on differently from a place that the reading has come to. -/
theorem Cursor.Reads.exists_ofSource {source : Text} {ts : List Token} {c : Cursor} {stack : Stack}
    (h : (Cursor.start source).Reads 0 ts (Stack.states [] ts) c stack.top)
    (hfeed : Stack.feedAll? [] ts = some stack) :
    ∃ v tree, Tree.ofSource (source.take c.skip.offset ++ (' ' : CodePoint) :: v) = .ok tree := by
  obtain ⟨r, hsource, hlength, -⟩ := (h.of (Cursor.of_start source)).skip
  have htake : source.take c.skip.offset = r := by
    rw [hsource, hlength, List.take_left]
  obtain ⟨tree, us, hus, htokens⟩ := Stack.exists_program hfeed
  have hspells : ∀ u ∈ us, u.kind.Spells u.text := by
    intro u hu
    rw [hus u hu]
    exact u.kind.spells_sample
  have hshifts : tree.shifts 0 = Stack.states [] ts ++ stack.states us := by
    rw [← tree.states_tokens, htokens, Stack.states_append hfeed]
  have hadmits := tree.admits_tokens
  rw [htokens, hshifts] at hadmits
  obtain ⟨vs, d, hvs, hreads, hrest⟩ :=
    h.cut (d := .start (r ++ (' ' : CodePoint) :: Text.setApart (us.map (·.text))))
      (hadmits.of_append_left h.length_eq) hsource rfl (Text.blank?_setApart hspells)
  have hbehind := hadmits.of_append h.length_eq
  rw [← h.eq_getLastD] at hbehind
  obtain ⟨ws, hws, d', q, hreads', hend⟩ := Cursor.spells_setApart hbehind
    (fun x hx => (hspells x.1 (List.of_mem_zip hx).1).standsAt x.2) hrest
  have hplaces : (vs ++ ws).map Token.unplaced = tree.tokens.map Token.unplaced := by
    rw [htokens, List.map_append, List.map_append, hvs, hws]
  obtain ⟨tree', htree', -⟩ :=
    tree.exists_ofSource hplaces ⟨d', q, hshifts ▸ hreads.trans hreads', hend⟩
  exact ⟨_, tree', htake.symm ▸ htree'⟩

/-! ### What an error tells -/

/-- What an error tells about the source that it is in. -/
structure SyntaxError.IsIn (e : SyntaxError) (source : Text) : Prop where
  /-- The place is inside the source, or the beginning of a source without tokens. -/
  inside : e.offset < source.length ∨ source.Bare ∧ e.offset = 0
  /-- The line and the column are those of the offset, and of no other. -/
  position : ∀ i ≤ source.length, Text.endPosition (source.take i) = e.position ↔ i = e.offset
  bare : source.Bare → e.position = ⟨1, 1⟩
  /-- The line is quoted as far as it is near the place. -/
  before : e.before
    = ((source.take e.offset).drop (e.offset - span)).rtakeWhile (· ≠ ('\n' : CodePoint))
  after : e.after = ((source.drop e.offset).take span).takeWhile (· ≠ ('\n' : CodePoint))
  message : e.message = Text.concat
    [syntaxErrorAt e.position, e.problem.text, "\n", e.before, e.after, "\n",
      List.replicate e.before.expand.length ' ', "^"]
  /-- What stands above the caret is what the source has at the place. -/
  caret : ¬source.Bare →
    (Text.expand (e.before ++ e.after))[e.before.expand.length]? = source[e.offset]?
  /-- Up to the place the source could have become a program. -/
  continues : ∃ v tree,
    Tree.ofSource (source.take e.offset ++ (' ' : CodePoint) :: v) = .ok tree

/-- An error tells this if it is at a place up to which the source could have become a program, and
what stands there, if there is a token, is neither a tab nor the end of a line. -/
theorem SyntaxError.IsIn.of_place {e : SyntaxError} {source : Text}
    (heq : e = .ofPlace source e.problem e.offset e.position)
    (hplace : (¬source.Bare ∧ ∃ d rest, source.drop e.offset = d :: rest ∧ d ≠ ('\t' : CodePoint)
        ∧ d ≠ ('\n' : CodePoint)) ∨ source.Bare ∧ e.offset = 0)
    (hposition : e.position = Text.endPosition (source.take e.offset))
    (hcontinues : ∃ v tree,
      Tree.ofSource (source.take e.offset ++ (' ' : CodePoint) :: v) = .ok tree) :
    e.IsIn source := by
  have hinside : e.offset < source.length ∨ source.Bare ∧ e.offset = 0 := by
    rcases hplace with ⟨-, d, rest, hdrop, -⟩ | hbare
    · refine .inl (Nat.lt_of_not_le fun hle => ?_)
      rw [List.drop_eq_nil_of_le hle] at hdrop
      cases hdrop
    · exact .inr hbare
  have hafter : e.after
      = ((source.drop e.offset).take span).takeWhile (· ≠ ('\n' : CodePoint)) := by
    rw [congrArg SyntaxError.after heq, ofPlace, Text.cut_fst]
  constructor
  case inside => exact hinside
  case position =>
    intro i hi
    rw [hposition]
    exact ⟨Text.eq_of_endPosition_take hi (by omega), fun hi => hi ▸ rfl⟩
  case bare =>
    intro hbare
    rcases hplace with ⟨hnotBare, -⟩ | ⟨-, hoffset⟩
    · exact absurd hbare hnotBare
    · rw [hposition, hoffset]
      rfl
  case before =>
    rw [congrArg SyntaxError.before heq, ofPlace, Text.getLast?_splitOn, Option.getD_some]
  case after => exact hafter
  case message =>
    rw [Text.expand, Text.length_expandFrom]
    rfl
  case caret =>
    intro hnotBare
    rcases hplace with ⟨-, d, rest, hdrop, htab, hend⟩ | ⟨hbare, -⟩
    · have hhead : e.after = d :: (rest.take 39).takeWhile (· ≠ ('\n' : CodePoint)) := by
        rw [hafter, hdrop]
        exact List.takeWhile_cons_of_pos (decide_eq_true hend)
      rw [hhead, Text.getElem?_expand_append htab, ← List.head?_drop, hdrop]
      rfl
    · exact absurd hbare hnotBare
  case continues => exact hcontinues

theorem Cursor.ComesTo.rest_ne_nil {c : Cursor} {stack : Stack} {e : SyntaxError}
    (h : c.ComesTo stack e) : c.skip.rest ≠ [] := by
  obtain ⟨ts, c', stack', hreads, -, hne, -⟩ := h
  generalize stack'.top = q, stack.states ts = qs at hreads
  cases hreads with
  | refl => exact hne
  | token htoken _ =>
    intro hnil
    have hlt := Cursor.token?_length_lt htoken
    rw [hnil] at hlt
    exact absurd hlt (Nat.not_lt_zero _)

theorem Cursor.ComesTo.isIn {source : Text} {e : SyntaxError}
    (h : (Cursor.start source).ComesTo [] e)
    (heq : e = .ofPlace source e.problem e.offset e.position) : e.IsIn source := by
  have hnotBare : ¬source.Bare := h.rest_ne_nil
  obtain ⟨ts, c, stack, hreads, hfeed, hne, hoffset, hposition⟩ := h
  obtain ⟨r, hsource, hlength, hplace⟩ := (hreads.of (Cursor.of_start source)).skip
  obtain ⟨d, rest, hrest⟩ := List.exists_cons_of_ne_nil hne
  have hd : ∀ b, Lexeme.isBlank b = true → d ≠ b :=
    fun b hb => (Lexeme.avoids_of_blank?_eq_none c.blank?_skip).ne (by rw [hrest]; rfl) hb
  refine .of_place heq (.inl ⟨hnotBare, d, rest, ?_, hd '\t' rfl, hd '\n' rfl⟩) ?_ ?_
  · rw [hsource, hoffset, hlength, List.drop_left, hrest]
  · rw [hposition, hplace, Position.afterText_start, hsource, hoffset, hlength, List.take_left]
  · rw [hoffset]
    exact hreads.exists_ofSource hfeed

/-- A source that is rejected is rejected at a place up to which it could have become a program. -/
theorem Tree.ofSource_error {source : Text} {e : SyntaxError}
    (h : Tree.ofSource source = .error e) : e.IsIn source := by
  rw [ofSource] at h
  obtain ⟨heq, hcomes | ⟨hbare, hlast⟩⟩ :=
    readFrom_error (c := .start source) (Nat.lt_succ_self source.length) h
  · exact hcomes.isIn heq
  · have hoffset : e.offset = 0 := by rw [hlast]; rfl
    have hreads : (Cursor.start []).Reads 0 [] (Stack.states [] []) (.start []) (Stack.top []) :=
      .refl
    refine .of_place heq (.inr ⟨hbare, hoffset⟩) ?_ ?_
    · rw [hoffset, hlast]
      rfl
    · rw [hoffset]
      exact hreads.exists_ofSource rfl

theorem Tree.ofSource_error_tab : ∃ e, Tree.ofSource ['\t', '@'] = .error e
    ∧ e.message
      = "Syntax error at line 1, column 2: unexpected character '@'\n\t@\n        ^"
    ∧ ∃ v tree, Tree.ofSource ('\t' :: ' ' :: v) = .ok tree := by
  have hskip : (Cursor.start ['\t', '@']).skip = ⟨1, ⟨1, 2⟩, ['@']⟩ := rfl
  have hnone : ∀ admitted, (Cursor.start ['\t', '@']).skip.token? admitted = none := by
    rw [hskip]
    exact Cursor.token?_eq_none rfl fun t => by cases t <;> decide
  have herror : Tree.ofSource ['\t', '@']
      = .error (.ofPlace ['\t', '@'] (.character '@') 1 ⟨1, 2⟩) := by
    rw [ofSource, readFrom_character (by rw [hskip]) (hnone _) (hnone _), hskip]
  exact ⟨_, herror, by decide, (ofSource_error herror).continues⟩

end Toplevel
