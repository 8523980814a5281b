import Mathlib.Data.List.DropRight
import Mathlib.Data.List.TakeWhile
import Toplevel.Proofs.Syntax.Margins

/-!
# A source without its margins

A source `s` is read with white space `lead` in front and `u` behind. The tokens are the same, in
places that `lead` moves, and the reading stops early in the one just if it does in the other; it
goes on behind `s` to the end of the blanks, and no further (`Tree.ofSource_strip`).
-/

namespace Toplevel

/-- How a token moves that stands behind `lead`, and what has been read of the text there. -/
abbrev Token.moved (lead : Text) (token : Token) : Token :=
  token.placed (Position.behind lead) (lead.length + ·)

abbrev Stack.moved (lead : Text) (stack : Stack) : Stack :=
  stack.map (Frame.placed (Position.behind lead) (lead.length + ·))

/-! ### Cursors -/

namespace Cursor

/-- A place of a source: what stands in front of it tells its offset and its position. -/
def Of (s : Text) (c : Cursor) : Prop :=
  ∃ before, s = before ++ c.rest ∧ c.offset = before.length
    ∧ c.position = Position.start.afterText before

/-- A place of a source when `lead` stands in front of the source and `u` behind it. -/
def within (lead u : Text) (c : Cursor) : Cursor :=
  ⟨lead.length + c.offset, c.position.behind lead, c.rest ++ u⟩

variable {s : Text} {c : Cursor}

theorem of_start (s : Text) : Of s (start s) := ⟨[], rfl, rfl, rfl⟩

theorem Of.counted (h : c.Of s) : c.position.Counted := by
  obtain ⟨before, -, -, hposition⟩ := h
  rw [hposition]
  exact Position.counted_start.afterText before

theorem Of.after (h : c.Of s) {x : Lexeme} (hx : x.Splits c.rest) : (c.after x).Of s := by
  obtain ⟨before, hs, hoffset, hposition⟩ := h
  refine ⟨before ++ x.1, ?_, ?_, ?_⟩
  · rw [hs, ← hx.2, List.append_assoc]
    rfl
  · rw [List.length_append, ← hoffset]
    rfl
  · rw [Position.afterText_append, ← hposition]
    rfl

theorem Of.skip (h : c.Of s) : c.skip.Of s := by
  induction hn : c.rest.length using Nat.strong_induction_on generalizing c with
  | h n ih =>
    subst hn
    cases hx : Lexeme.blank? c.rest with
    | none => rwa [skip_of_none hx]
    | some x =>
      have hsplits := Lexeme.blank?_splits hx
      rw [skip_of_some hx]
      exact ih _ hsplits.length_lt (h.after hsplits) rfl

theorem Of.token? (h : c.Of s) {admitted : Terminal → Bool} {token : Token} {c' : Cursor}
    (htoken : c.token? admitted = some (token, c')) : c'.Of s := by
  obtain ⟨-, hlexeme, -, -, hafter, -⟩ := token?_eq_some htoken
  rw [hafter]
  exact h.after (Terminal.lexeme?_eq_some hlexeme).1

theorem Of.settled (h : c.Of s) (hs : s.Settled) : c.rest.Settled := by
  obtain ⟨before, rfl, -⟩ := h
  exact hs.of_append

variable (lead : Text) {u : Text}

theorem within_start (s : Text) : (start s).within lead u
    = ⟨lead.length, Position.start.afterText lead, s ++ u⟩ := rfl

theorem within_after (h : c.Of s) (x : Lexeme) :
    (c.after x).within lead u = (c.within lead u).after (x.before u) := by
  rw [within, after, within, after, Position.behind_afterText lead h.counted]
  simp only [Lexeme.before, Nat.add_assoc]

/-- Blanks are skipped as without what stands around, and those behind the source with them. -/
theorem within_skip (h : c.Of s) (hs : s.Settled) (hu : u.IsWhite) :
    (c.within lead u).skip = (c.skip.within lead u).skip
      ∧ (c.skip.rest ≠ [] → (c.within lead u).skip = c.skip.within lead u) := by
  induction hn : c.rest.length using Nat.strong_induction_on generalizing c with
  | h n ih =>
    subst hn
    by_cases hnil : c.rest = []
    · have hskip : c.skip = c := skip_of_none (by rw [hnil]; rfl)
      rw [hskip]
      exact ⟨rfl, fun hne => absurd hnil hne⟩
    have happend : Lexeme.blank? (c.within lead u).rest
        = (Lexeme.blank? c.rest).map (Lexeme.before u) :=
      Lexeme.blank?_append_white hnil (h.settled hs) hu
    cases hx : Lexeme.blank? c.rest with
    | none =>
      rw [hx] at happend
      rw [skip_of_none hx]
      exact ⟨rfl, fun _ => skip_of_none happend⟩
    | some x =>
      have hsplits := Lexeme.blank?_splits hx
      rw [hx] at happend
      rw [skip_of_some hx, skip_of_some happend, ← within_after lead h]
      exact ih _ hsplits.length_lt (h.after hsplits) rfl

theorem within_token? (h : c.Of s) (hne : c.rest ≠ []) (hu : u.IsWhite)
    (admitted : Terminal → Bool) : (c.within lead u).token? admitted
      = (c.token? admitted).map fun r => (r.1.moved lead, r.2.within lead u) := by
  rw [Cursor.token?, Cursor.token?, List.map_findSome?]
  congr 1
  funext t
  rw [Function.comp_apply]
  split
  · rw [show (c.within lead u).rest = c.rest ++ u from rfl, Terminal.lexeme?_append_white hne hu,
      Option.map_map, Option.map_map]
    congr 1
    funext x
    simp only [Function.comp_apply, within_after lead h]
    rfl
  · rfl

end Cursor

/-! ### White space that is no blank -/

namespace Text

/-- The blanks in front of white space, and what follows them. -/
def blanks (u : Text) : Text := u.takeWhile Lexeme.isBlank

def foreign (u : Text) : Text := u.dropWhile Lexeme.isBlank

theorem foreign_head {u : Text} {c : CodePoint} {w : Text} (h : u.foreign = c :: w) :
    Lexeme.isBlank c = false := by
  have hhead := List.head?_dropWhile_not Lexeme.isBlank u
  rw [show u.dropWhile Lexeme.isBlank = c :: w from h] at hhead
  simpa using hhead

end Text

theorem Terminal.canStart_val {t : Terminal} {c : CodePoint} (h : t.canStart c = true) :
    32 < c.val ∧ c.val < 127 := by
  have hlower : (c.isLower || c = ('_' : CodePoint)) = true → 32 < c.val ∧ c.val < 127 := by
    rw [Bool.or_eq_true, decide_eq_true_eq]
    rintro (hc | rfl)
    · refine CodePoint.isWord_val ?_
      rw [CodePoint.isWord, hc]
      rfl
    · decide
  rcases t.kinds with rfl | rfl | rfl | rfl | ⟨w, hw⟩ | hmarks
  · rw [canStart, Bool.or_eq_true, decide_eq_true_eq] at h
    rcases h with hc | rfl
    · exact CodePoint.isDigit_val hc
    · decide
  · obtain rfl : c = '"' := of_decide_eq_true h
    decide
  · exact hlower h
  · obtain rfl : c = '`' := of_decide_eq_true h
    decide
  · rw [canStart_of_keyword hw] at h
    exact hlower h
  · have hheads : ∀ t ∈ all, ∀ w ∈ t.marks, ∀ d ∈ w.head?, 32 < d.val ∧ d.val < 127 := by decide
    rw [canStart_of_marks hmarks, List.any_eq_true] at h
    obtain ⟨w, hw, hhead⟩ := h
    exact hheads t t.mem_all w hw c (of_decide_eq_true hhead)

namespace Cursor

variable {d : Cursor}

/-- Blanks are skipped in one piece. -/
theorem skip_through {b r : Text} (hd : d.rest = b ++ r) (hb : ∀ c ∈ b, Lexeme.isBlank c = true)
    (hr : r.Avoids Lexeme.isBlank) : d.skip = (d.after (b, r)).skip := by
  cases b with
  | nil =>
    obtain ⟨offset, position, rest⟩ := d
    cases hd
    rfl
  | cons c b =>
    have hblank : Lexeme.blank? d.rest = some (c :: b, r) := by
      rw [hd, Lexeme.blank?, hr.takeWhile_append, hr.dropWhile_append,
        List.takeWhile_eq_self_iff.2 hb, List.dropWhile_eq_nil_iff.2 hb, List.cons_append,
        List.head?_cons, Option.any_some, if_pos (hb c List.mem_cons_self)]
      rfl
    exact skip_of_some hblank

theorem blank?_white {c : CodePoint} (hspace : c.isSpace = true) (hc : Lexeme.isBlank c = false)
    (w : Text) : Lexeme.blank? (c :: w) = none := by
  rw [Lexeme.blank?, List.head?_cons, Option.any_some, hc, if_neg Bool.false_ne_true]
  refine Lexeme.comment?_of_not_open ?_
  rw [Bool.eq_false_iff]
  intro hopen
  obtain ⟨v, hv⟩ := Lexeme.opensComment_iff.1 hopen
  cases hv
  cases hspace

/-- White space is skipped up to what is no blank. -/
theorem skip_foreign {b w : Text} {c : CodePoint} (hd : d.rest = b ++ c :: w)
    (hb : ∀ c ∈ b, Lexeme.isBlank c = true) (hspace : c.isSpace = true)
    (hc : Lexeme.isBlank c = false) : d.skip = d.after (b, c :: w) := by
  rw [skip_through hd hb (Text.Avoids.cons hc), skip_of_none]
  exact blank?_white hspace hc w

theorem skip_white (hd : d.rest.IsWhite) : d.skip = d.after (d.rest.blanks, d.rest.foreign) := by
  have hsplit : d.rest = d.rest.blanks ++ d.rest.foreign :=
    List.takeWhile_append_dropWhile.symm
  have hblanks : ∀ c ∈ d.rest.blanks, Lexeme.isBlank c = true := fun c hc =>
    List.mem_takeWhile_imp hc
  cases hforeign : d.rest.foreign with
  | nil =>
    rw [hforeign] at hsplit
    rw [skip_through hsplit hblanks Text.Avoids.nil]
    exact skip_of_none rfl
  | cons c w =>
    rw [hforeign] at hsplit
    refine skip_foreign hsplit hblanks (hd c ?_) (Text.foreign_head hforeign)
    rw [hsplit]
    exact List.mem_append_right _ List.mem_cons_self

theorem token?_eq_none {c : CodePoint} {w : Text} (hd : d.rest = c :: w)
    (hc : ∀ t : Terminal, t.canStart c = false) (admitted : Terminal → Bool) :
    d.token? admitted = none := by
  refine List.findSome?_eq_none_iff.2 fun t _ => ?_
  split
  · rw [Option.map_eq_none_iff]
    exact Terminal.lexeme?_eq_none (by rw [hd]; rfl) (hc t)
  · rfl

/-- No token starts with white space. -/
theorem token?_white {c : CodePoint} {w : Text} (hd : d.rest = c :: w) (hc : c.isSpace = true)
    (admitted : Terminal → Bool) : d.token? admitted = none := by
  refine token?_eq_none hd (fun t => Bool.eq_false_iff.2 fun hstart => ?_) admitted
  have hval := Terminal.canStart_val hstart
  have hspace := CodePoint.isSpace_val hc
  omega

end Cursor

/-! ### Reading -/

/-- An error in a source when the source stands behind `lead` in the source `t`. -/
def SyntaxError.behind (t lead : Text) (e : SyntaxError) : SyntaxError :=
  .ofPlace t e.problem (lead.length + e.offset) (e.position.behind lead)

/-- What the reading of `s` comes to, and that of `s` behind `lead` and in front of the white space
`u`. If nothing but blanks has been read, the end of the source is reported at its beginning. -/
inductive ReadsAs (s lead u : Text) (bare : Prop) :
    Except SyntaxError (Tree (.nonterminal .program)) →
    Except SyntaxError (Tree (.nonterminal .program)) → Prop
  | tree {tree : Tree (.nonterminal .program)} (hu : u.foreign = []) :
    ReadsAs s lead u bare (.ok tree) (.ok (tree.placed (Position.behind lead) (lead.length + ·)))
  | error {e : SyntaxError} (h : e.problem ≠ .endOfInput ∨ u.foreign = [] ∧ ¬bare) :
    ReadsAs s lead u bare (.error e) (.error (e.behind (lead ++ s ++ u) lead))
  | bare (h : bare) (hu : u.foreign = []) :
    ReadsAs s lead u bare (.error (.ofPlace s .endOfInput 0 .start))
      (.error (.ofPlace (lead ++ s ++ u) .endOfInput 0 .start))
  | foreign {r : Except SyntaxError (Tree (.nonterminal .program))} {c : CodePoint} {w : Text}
    (hu : u.foreign = c :: w) (hr : ∀ e, r = .error e → e.problem = .endOfInput) :
    ReadsAs s lead u bare r
      (.error (.ofPlace (lead ++ s ++ u) (.character c) (lead ++ s ++ u.blanks).length
        (Position.start.afterText (lead ++ s ++ u.blanks))))

namespace SyntaxError

/-- What is missing at the end of a source, told at the last token. -/
def unfinished (source : Text) (last : Option Token) : SyntaxError :=
  last.elim (.ofPlace source .endOfInput 0 .start) fun token =>
    .ofPlace source .endOfInput token.offset token.position

theorem unfinished_problem (source : Text) (last : Option Token) :
    (unfinished source last).problem = .endOfInput := by
  cases last <;> rfl

end SyntaxError

section

variable {s u : Text} {c : Cursor} (lead : Text)

/-- Where the source ends, the reading goes on behind it. -/
theorem Cursor.Of.skip_end (hc : c.Of s) (hs : s.Settled) (hu : u.IsWhite)
    (hend : c.skip.rest = []) : (c.within lead u).skip
      = ⟨(lead ++ s ++ u.blanks).length, Position.start.afterText (lead ++ s ++ u.blanks),
        u.foreign⟩ := by
  obtain ⟨before, hbefore, hoffset, hposition⟩ := hc.skip
  rw [hend, List.append_nil] at hbefore
  subst hbefore
  have hrest : (c.skip.within lead u).rest = u := by rw [Cursor.within, hend, List.nil_append]
  rw [(Cursor.within_skip lead hc hs hu).1, Cursor.skip_white (hrest.symm ▸ hu), hrest]
  simp only [Cursor.within, Cursor.after, hoffset, hposition, List.length_append,
    Position.behind_afterText lead Position.counted_start, Position.behind_start,
    Position.afterText_append]

section

variable {source : Text} {fuel : Nat} {stack stack' : Stack} {last : Option Token}
  {token : Token} {c' : Cursor} {ch : CodePoint} {rest : Text}

theorem readFrom_complete {tree : Tree (.nonterminal .program)} (hend : c.skip.rest = [])
    (hcomplete : stack.complete? = some tree) :
    readFrom source (fuel + 1) c stack last = .ok tree := by
  rw [Cursor.skip] at hend
  simp only [readFrom, hend, hcomplete]

theorem readFrom_unfinished (hend : c.skip.rest = []) (hcomplete : stack.complete? = none) :
    readFrom source (fuel + 1) c stack last = .error (.unfinished source last) := by
  rw [Cursor.skip] at hend
  cases last <;> simp only [readFrom, hend, hcomplete] <;> rfl

theorem readFrom_token (hrest : c.skip.rest = ch :: rest)
    (htoken : c.skip.token? stack.state.accepts = some (token, c'))
    (hfeed : stack.feed? token = some stack') : readFrom source (fuel + 1) c stack last
      = readFrom source fuel c' stack' (some token) := by
  rw [Cursor.skip] at hrest htoken
  simp only [readFrom, hrest, htoken, hfeed]

theorem readFrom_refused (hrest : c.skip.rest = ch :: rest)
    (htoken : c.skip.token? stack.state.accepts = some (token, c'))
    (hfeed : stack.feed? token = none) : readFrom source (fuel + 1) c stack last
      = .error (.ofPlace source (.token token.text) token.offset token.position) := by
  rw [Cursor.skip] at hrest htoken
  simp only [readFrom, hrest, htoken, hfeed]

theorem readFrom_misplaced (hrest : c.skip.rest = ch :: rest)
    (hnone : c.skip.token? stack.state.accepts = none)
    (htoken : (c.skip.token? fun _ => true) = some (token, c')) :
    readFrom source (fuel + 1) c stack last
      = .error (.ofPlace source (.token token.text) token.offset token.position) := by
  rw [Cursor.skip] at hrest hnone htoken
  simp only [readFrom, hrest, hnone, htoken]

theorem readFrom_character (hrest : c.skip.rest = ch :: rest)
    (hnone : c.skip.token? stack.state.accepts = none)
    (hany : (c.skip.token? fun _ => true) = none) : readFrom source (fuel + 1) c stack last
      = .error (.ofPlace source (.character ch) c.skip.offset c.skip.position) := by
  rw [Cursor.skip] at hrest hnone hany ⊢
  simp only [readFrom, hrest, hnone, hany]

end

/-- Where the source ends, the reading ends without what stands around it, and behind the blanks
with it. -/
theorem readFrom_within_end (hs : s.Settled) (hu : u.IsWhite) (hc : c.Of s)
    (hrest : c.skip.rest = []) (fuel fuel' : Nat) (stack : Stack) (last : Option Token) :
    ReadsAs s lead u (last = none ∧ c.skip.rest = []) (readFrom s (fuel + 1) c stack last)
      (readFrom (lead ++ s ++ u) (fuel' + 1) (c.within lead u) (stack.moved lead)
        (last.map (Token.moved lead))) := by
  have hend := Cursor.Of.skip_end lead hc hs hu hrest
  cases hforeign : u.foreign with
  | nil =>
    have hnext : (c.within lead u).skip.rest = [] := by rw [hend, hforeign]
    have hmoved := stack.complete?_placed (Position.behind lead) (lead.length + ·)
    cases hcomplete : stack.complete? with
    | some tree =>
      rw [hcomplete] at hmoved
      rw [readFrom_complete hrest hcomplete, readFrom_complete hnext hmoved]
      exact .tree hforeign
    | none =>
      rw [hcomplete] at hmoved
      rw [readFrom_unfinished hrest hcomplete, readFrom_unfinished hnext hmoved]
      cases last with
      | some token => exact .error (.inr ⟨hforeign, fun h => Option.some_ne_none _ h.1⟩)
      | none => exact .bare ⟨rfl, hrest⟩ hforeign
  | cons ch w =>
    have hspace : ch.isSpace = true :=
      hu ch ((List.dropWhile_sublist _).mem (hforeign ▸ List.mem_cons_self))
    have hnext : (c.within lead u).skip.rest = ch :: w := by rw [hend, hforeign]
    rw [readFrom_character hnext (Cursor.token?_white hnext hspace _)
      (Cursor.token?_white hnext hspace _), hend]
    refine .foreign hforeign fun e he => ?_
    cases hcomplete : stack.complete? with
    | some tree => cases he.symm.trans (readFrom_complete hrest hcomplete)
    | none =>
      rw [Except.error.inj (he.symm.trans (readFrom_unfinished hrest hcomplete))]
      exact SyntaxError.unfinished_problem s last

theorem readFrom_within (hs : s.Settled) (hu : u.IsWhite) {fuel fuel' : Nat} {stack : Stack}
    {last : Option Token} (hc : c.Of s) (hfuel : c.rest.length < fuel)
    (hfuel' : c.rest.length < fuel') :
    ReadsAs s lead u (last = none ∧ c.skip.rest = []) (readFrom s fuel c stack last)
      (readFrom (lead ++ s ++ u) fuel' (c.within lead u) (stack.moved lead)
        (last.map (Token.moved lead))) := by
  induction fuel generalizing fuel' c stack last with
  | zero => exact absurd hfuel (Nat.not_lt_zero _)
  | succ fuel ih =>
    obtain ⟨fuel', rfl⟩ : ∃ n, fuel' = n + 1 := ⟨fuel' - 1, by omega⟩
    cases hrest : c.skip.rest with
    | nil =>
      have hreads := readFrom_within_end lead hs hu hc hrest fuel fuel' stack last
      rwa [hrest] at hreads
    | cons ch rest =>
      have hne : c.skip.rest ≠ [] := hrest ▸ List.cons_ne_nil _ _
      have hskip := (Cursor.within_skip lead hc hs hu).2 hne
      have hnext : (c.within lead u).skip.rest = ch :: (rest ++ u) := by
        rw [hskip, Cursor.within, hrest, List.cons_append]
      have htokens : ∀ admitted, (c.within lead u).skip.token? admitted
          = (c.skip.token? admitted).map fun r => (r.1.moved lead, r.2.within lead u) := by
        intro admitted
        rw [hskip, Cursor.within_token? lead hc.skip hne hu]
      have hmoved : ∀ r, c.skip.token? stack.state.accepts = r →
          (c.within lead u).skip.token? (Stack.state (stack.moved lead)).accepts
            = r.map fun r => (r.1.moved lead, r.2.within lead u) := by
        rintro _ rfl
        rw [Stack.state_placed, htokens]
      cases htoken : c.skip.token? stack.state.accepts with
      | some r =>
        obtain ⟨token, c'⟩ := r
        have hfeeds := stack.feed?_placed (Position.behind lead) (lead.length + ·) token
        cases hfeed : stack.feed? token with
        | none =>
          rw [hfeed] at hfeeds
          rw [readFrom_refused hrest htoken hfeed,
            readFrom_refused hnext (hmoved _ htoken) hfeeds]
          exact .error (.inl Problem.noConfusion)
        | some stack' =>
          rw [hfeed] at hfeeds
          rw [readFrom_token hrest htoken hfeed, readFrom_token hnext (hmoved _ htoken) hfeeds]
          have hlt := Cursor.token?_length_lt htoken
          have hle := c.length_skip_le
          have hreads := @ih c' fuel' stack' (some token) (hc.skip.token? htoken) (by omega)
            (by omega)
          have hsome : ¬((some token : Option Token) = none ∧ c'.skip.rest = []) := by
            rintro ⟨h, -⟩
            cases h
          have hcons : ¬(last = none ∧ ch :: rest = []) := by
            rintro ⟨-, h⟩
            cases h
          rwa [propext (iff_of_false hsome hcons)] at hreads
      | none =>
        have hany := htokens fun _ => true
        cases hmisplaced : c.skip.token? fun _ => true with
        | some r =>
          obtain ⟨token, c'⟩ := r
          rw [hmisplaced] at hany
          rw [readFrom_misplaced hrest htoken hmisplaced,
            readFrom_misplaced hnext (hmoved _ htoken) hany]
          exact .error (.inl Problem.noConfusion)
        | none =>
          rw [hmisplaced] at hany
          rw [readFrom_character hrest htoken hmisplaced,
            readFrom_character hnext (hmoved _ htoken) hany, hskip]
          exact .error (.inl Problem.noConfusion)

theorem readFrom_congr {source : Text} {fuel : Nat} {c' : Cursor} {stack : Stack}
    {last : Option Token} (h : c.skip = c'.skip) :
    readFrom source (fuel + 1) c stack last = readFrom source (fuel + 1) c' stack last := by
  rw [Cursor.skip, Cursor.skip] at h
  simp only [readFrom, h]

end

/-! ### Whole sources -/

/-- A source with nothing but blanks and comments in it. -/
def Text.Bare (s : Text) : Prop := (Cursor.start s).skip.rest = []

theorem Tree.ofSource_within {s lead u : Text} (hne : s ≠ []) (hhead : s.Avoids Lexeme.isBlank)
    (hs : s.Settled) (hlead : lead.foreign = []) (hu : u.IsWhite) :
    ReadsAs s lead u s.Bare (ofSource s) (ofSource (lead ++ s ++ u)) := by
  have hblanks : ∀ c ∈ lead, Lexeme.isBlank c = true := List.dropWhile_eq_nil_iff.1 hlead
  have hrest : (s ++ u).Avoids Lexeme.isBlank := by
    obtain ⟨c, s, rfl⟩ := List.exists_cons_of_ne_nil hne
    exact hhead
  have hskip : (Cursor.start (lead ++ s ++ u)).skip = ((Cursor.start s).within lead u).skip := by
    rw [Cursor.skip_through (List.append_assoc ..) hblanks hrest, Cursor.within_start]
    simp only [Cursor.after, Cursor.start, Nat.zero_add]
  have hlength : s.length < (lead ++ s ++ u).length + 1 := by
    rw [List.length_append, List.length_append]
    omega
  have hreads := @readFrom_within s u (.start s) lead hs hu _ _ [] none (Cursor.of_start s)
    (Nat.lt_succ_self s.length) hlength
  rw [propext (and_iff_right rfl)] at hreads
  rw [ofSource, ofSource, readFrom_congr hskip]
  exact hreads

/-- White space in front of a source is no blank of the language: nothing else is read. -/
theorem Tree.ofSource_foreign {lead r w : Text} {c : CodePoint} (hwhite : lead.IsWhite)
    (hlead : lead.foreign = c :: w) : ofSource (lead ++ r)
      = .error (.ofPlace (lead ++ r) (.character c) lead.blanks.length
        (Position.start.afterText lead.blanks)) := by
  have hsplit : lead.blanks ++ c :: w = lead := hlead ▸ List.takeWhile_append_dropWhile
  have hspace : c.isSpace = true :=
    hwhite c ((List.dropWhile_sublist _).mem (hlead ▸ List.mem_cons_self))
  have hstart : (Cursor.start (lead ++ r)).rest = lead.blanks ++ c :: (w ++ r) := by
    rw [← List.cons_append, ← List.append_assoc, hsplit]
    rfl
  have hskip := Cursor.skip_foreign hstart (fun d hd => List.mem_takeWhile_imp hd) hspace
    (Text.foreign_head hlead)
  have hnext : (Cursor.start (lead ++ r)).skip.rest = c :: (w ++ r) := by rw [hskip]; rfl
  rw [ofSource, readFrom_character hnext (Cursor.token?_white hnext hspace _)
    (Cursor.token?_white hnext hspace _), hskip]
  simp only [Cursor.after, Cursor.start, Nat.zero_add]

/-! ### Texts and what is left of them without their margins -/

namespace Text

def lead (t : Text) : Text := t.takeWhile CodePoint.isSpace

def trail (t : Text) : Text := (t.dropWhile CodePoint.isSpace).rtakeWhile CodePoint.isSpace

theorem strip_append_trail (t : Text) : t.strip ++ t.trail = t.dropWhile CodePoint.isSpace :=
  List.rdropWhile_append_rtakeWhile

theorem margins (t : Text) : t.lead ++ t.strip ++ t.trail = t := by
  rw [List.append_assoc, strip_append_trail]
  exact List.takeWhile_append_dropWhile

theorem lead_isWhite (t : Text) : t.lead.IsWhite := fun _ => List.mem_takeWhile_imp

theorem trail_isWhite (t : Text) : t.trail.IsWhite := fun _ => List.mem_rtakeWhile_imp

theorem strip_settled (t : Text) : t.strip.Settled := by
  intro c hc
  have hne : t.strip ≠ [] := by
    rintro h
    rw [h] at hc
    cases hc
  rw [List.getLast?_eq_some_getLast hne] at hc
  cases hc
  exact Bool.eq_false_iff.2 (List.rdropWhile_last_not _ _ hne)

theorem strip_avoids (t : Text) : t.strip.Avoids CodePoint.isSpace := by
  intro c hc
  have hhead := List.head?_dropWhile_not CodePoint.isSpace t
  rw [← strip_append_trail, List.head?_append, Option.mem_def.1 hc] at hhead
  simpa using hhead

end Text

/-- What the reading of a text comes to, and that of the text without its margins. -/
theorem Tree.ofSource_strip {t : Text} (hne : t.strip ≠ []) (hlead : t.lead.foreign = []) :
    ReadsAs t.strip t.lead t.trail t.strip.Bare (ofSource t.strip) (ofSource t) := by
  have hreads := ofSource_within hne (t.strip_avoids.mono fun _ => Lexeme.isSpace_of_isBlank)
    t.strip_settled hlead t.trail_isWhite
  rwa [t.margins] at hreads

theorem Tree.ofSource_foreign_lead {t w : Text} {c : CodePoint} (hlead : t.lead.foreign = c :: w) :
    ofSource t = .error (.ofPlace t (.character c) t.lead.blanks.length
      (Position.start.afterText t.lead.blanks)) := by
  have hreads := ofSource_foreign t.lead_isWhite hlead (r := t.strip ++ t.trail)
  rwa [← List.append_assoc, t.margins] at hreads

end Toplevel
