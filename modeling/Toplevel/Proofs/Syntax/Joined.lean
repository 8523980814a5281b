import Mathlib.Data.List.Forall2
import Toplevel.Proofs.Syntax.Reading

/-!
# Statements behind each other

A source is read in the same way with a semicolon and more text behind it (`Cursor.Reads.append`):
the semicolon ends the token before it, and a comment that is not closed would not have been read.
So sources of one statement each, joined by semicolons, are read as one program of all of them
(`Tree.exists_ofSource_join`).
-/

namespace Toplevel

open Automaton

/-! ### More text behind a source -/

namespace Cursor

variable {c d : Cursor} {u : Text}

theorem skip_append (hu : Lexeme.Ends u) (hd : d.rest = c.rest ++ u)
    (hopen : Lexeme.opensComment c.skip.rest = false) : d.skip.rest = c.skip.rest ++ u := by
  induction hn : c.rest.length using Nat.strong_induction_on generalizing c d with
  | h n ih =>
    subst hn
    cases hx : Lexeme.blank? c.rest with
    | none =>
      rw [skip_of_none hx] at hopen ⊢
      rw [skip_of_none, hd]
      rw [hd]
      by_cases hnil : c.rest = []
      · rw [hnil, List.nil_append]
        exact hu.blank?_eq_none
      · rw [Lexeme.blank?_append hnil hu fun _ => hopen, hx]
        rfl
    | some x =>
      have hsplits := Lexeme.blank?_splits hx
      have hy : Lexeme.blank? d.rest = some (x.before u) := by
        have hsome : Lexeme.blank? c.rest ≠ none := by
          rw [hx]
          exact Option.some_ne_none x
        rw [hd, Lexeme.blank?_append hsplits.ne_nil hu fun hnone => absurd hnone hsome, hx,
          Option.map_some]
      rw [skip_of_some hx] at hopen ⊢
      rw [skip_of_some hy]
      exact ih _ hsplits.length_lt rfl hopen rfl

theorem token?_append {admitted : Terminal → Bool} {token : Token} {c' : Cursor}
    (h : c.token? admitted = some (token, c')) (hu : u.Breaks) (hd : d.rest = c.rest ++ u) :
    ∃ token' d', d.token? admitted = some (token', d') ∧ token'.unplaced = token.unplaced
      ∧ d'.rest = c'.rest ++ u := by
  obtain ⟨hadmitted, hlexeme, -, -, -, hfirst⟩ := token?_eq_some h
  have hlexeme' := Terminal.lexeme?_append_of_eq_some hlexeme hu
  rw [← hd] at hlexeme'
  refine ⟨_, _, token?_of_first hadmitted hlexeme' fun t' hlt ht' => ?_, rfl, rfl⟩
  rw [hd]
  exact Terminal.lexeme?_append_eq_none hlexeme hu hlt (hfirst t' hlt ht')

/-- What is read opens no comment: right after a parenthesis no product comes. -/
theorem not_opensComment {q : Nat} {ts : List Token} {qs : List Nat}
    (hadmits : Admits q ts qs) (hspells : c.Spells q ts qs) :
    Lexeme.opensComment c.skip.rest = false := by
  rw [Bool.eq_false_iff]
  intro hopen
  obtain ⟨s, hs⟩ := Lexeme.opensComment_iff.1 hopen
  obtain ⟨c', q', hreads, hend⟩ := hspells
  cases hreads with
  | refl =>
    rw [hend] at hs
    cases hs
  | @token _ c₁ _ _ q₁ _ token ts qs htoken hreads =>
    cases hadmits with
    | cons _ hparen _ =>
      obtain ⟨-, hlexeme, -⟩ := token?_eq_some htoken
      obtain ⟨hsplits, hhead⟩ := Terminal.lexeme?_eq_some hlexeme
      rw [hs] at hhead hsplits hlexeme
      have hkind := Terminal.canStart_leftParen hhead
      have hrest : c₁.rest = ('*' : CodePoint) :: s := by
        rw [hkind] at hlexeme
        have htext : token.text = [('(' : CodePoint)] :=
          List.mem_singleton.1 (Lexeme.oneOf?_eq_some hlexeme).1
        have hsplit : token.text ++ c₁.rest = _ := hsplits.2
        rw [htext] at hsplit
        exact List.tail_eq_of_cons_eq hsplit
      have hskip : c₁.skip = c₁ := skip_of_none (by rw [hrest]; rfl)
      cases hreads with
      | refl =>
        rw [hskip, hrest] at hend
        cases hend
      | token htoken' _ =>
        obtain ⟨hadmitted, hlexeme', -⟩ := token?_eq_some htoken'
        have hhead' := (Terminal.lexeme?_eq_some hlexeme').2
        rw [hskip, hrest] at hhead'
        rw [Terminal.canStart_star hhead', hparen hkind] at hadmitted
        cases hadmitted

/-- A source is read as before when a semicolon and more text are behind it. -/
theorem Spells.append {q : Nat} {ts : List Token} {qs : List Nat} (hspells : c.Spells q ts qs)
    (hadmits : Admits q ts qs) (hu : Lexeme.Ends u) (hd : d.rest = c.rest ++ u) :
    ∃ us d' q', us.map Token.unplaced = ts.map Token.unplaced ∧ d.Reads q us qs d' q'
      ∧ d'.skip.rest = u := by
  have hskip := skip_append hu hd (not_opensComment hadmits hspells)
  obtain ⟨c', q', hreads, hend⟩ := hspells
  induction hreads generalizing d with
  | @refl c q =>
    rw [hend, List.nil_append] at hskip
    exact ⟨[], d, q, rfl, .refl, hskip⟩
  | @token c c₁ c' q q₁ q' token ts qs htoken hreads ih =>
    cases hadmits with
    | cons haccepts _ hadmits =>
      obtain ⟨token', d₁, htoken', hplace, hd₁⟩ := token?_append htoken hu.breaks hskip
      have hskip₁ := skip_append hu hd₁ (not_opensComment hadmits ⟨c', q', hreads, hend⟩)
      obtain ⟨us, d', q'', hus, hreads', hrest⟩ := ih hadmits hd₁ hskip₁ hend
      refine ⟨token' :: us, d', q'', ?_, .token htoken' hreads', hrest⟩
      rw [List.map_cons, List.map_cons, hplace, hus]

theorem Reads.eq_getLastD {c' : Cursor} {q q' : Nat} {ts : List Token} {qs : List Nat}
    (h : c.Reads q ts qs c' q') : q' = qs.getLastD q := by
  induction h with
  | refl => rfl
  | token _ _ ih => rw [ih, List.getLastD_cons]

/-- A state that admits the same tokens does as well to start with. -/
theorem Reads.start_congr {c' : Cursor} {p q q' : Nat} {ts : List Token} {qs : List Nat}
    (h : c.Reads q ts qs c' q') (hts : ts ≠ [])
    (hpq : ∀ t, (Automaton.state p).accepts t = (Automaton.state q).accepts t) :
    c.Reads p ts qs c' q' := by
  cases h with
  | refl => exact absurd rfl hts
  | token htoken hreads => exact .token (by rwa [funext hpq]) hreads

end Cursor

theorem Automaton.Admits.of_append {q : Nat} {ts us : List Token} {qs rs : List Nat}
    (h : Admits q (ts ++ us) (qs ++ rs)) (hlength : ts.length = qs.length) :
    Admits (qs.getLastD q) us rs := by
  induction ts generalizing q qs with
  | nil =>
    rw [List.length_eq_zero_iff.1 hlength.symm] at h ⊢
    exact h
  | cons token ts ih =>
    cases qs with
    | nil => cases hlength
    | cons q' qs =>
      cases h with
      | cons _ _ hrest =>
        rw [List.getLastD_cons]
        exact ih hrest (Nat.succ.inj hlength)

theorem Automaton.Admits.length_eq {q : Nat} {ts : List Token} {qs : List Nat}
    (h : Admits q ts qs) : ts.length = qs.length := by
  induction h with
  | nil => rfl
  | cons _ _ _ ih => rw [List.length_cons, List.length_cons, ih]

/-! ### Programs of some statements -/

namespace Production

/-- A phrase that is not made of whole statements does not start with one. -/
theorem isInner_head_rhs {p : Production}
    (h : (Symbol.nonterminal p.lhs).isInner = true ∨ p.lhs = .statement) :
    ∀ s ∈ p.rhs.head?, s.isInner = true := by
  revert h
  cases p <;> decide

end Production

namespace Automaton.Opening

variable {q : Nat}

theorem shifts_forest (hq : Opening q) {ss : List Symbol} (forest : Forest ss)
    (hss : ∀ s ∈ ss.head?, s.isInner = true) : forest.shifts q = forest.shifts 0 := by
  revert hss
  refine @Forest.rec
    (fun s tree => s.isInner = true → tree.shifts q = tree.shifts 0)
    (fun ss forest => (∀ s ∈ ss.head?, s.isInner = true) → forest.shifts q = forest.shifts 0)
    ?leaf ?node ?nil ?cons _ forest
  case leaf =>
    intro token hs
    rw [Tree.shifts, Tree.shifts, hq.next _ hs]
  case node =>
    intro p children ih hs
    exact ih (Production.isInner_head_rhs (Or.inl hs))
  case nil => exact fun _ => rfl
  case cons =>
    intro s ss tree rest ihTree _ hs
    rw [Forest.shifts, Forest.shifts, ihTree (hs s rfl), hq.next s (hs s rfl)]

/-- A statement is read in the same states wherever one is read. -/
theorem shifts_statement (hq : Opening q) (tree : Tree (.nonterminal .statement)) :
    tree.shifts q = tree.shifts 0 := by
  generalize hs : Symbol.nonterminal .statement = s at tree
  cases tree with
  | leaf token => cases hs
  | node p children =>
    exact hq.shifts_forest children
      (Production.isInner_head_rhs (Or.inr (Symbol.nonterminal.inj hs).symm))

end Automaton.Opening

namespace Tree

def semicolon : Token := ⟨.semicolon, [';'], 0, Position.start⟩

/-- The program of one statement. -/
def single (tree : Tree (.nonterminal .statement)) : Tree (.nonterminal .program) :=
  .node .program (.cons (.node .statementsOne (.cons tree .nil)) .nil)

/-- One more statement behind a second or further one. -/
def addStatement (more : Tree (.nonterminal .moreStatements))
    (tree : Tree (.nonterminal .statement)) : Tree (.nonterminal .moreStatements) :=
  .node .moreStatementsNext (.cons more (.cons (.leaf semicolon) (.cons tree .nil)))

/-- The program of some statements with semicolons between them. -/
def several (tree : Tree (.nonterminal .statement)) :
    List (Tree (.nonterminal .statement)) → Tree (.nonterminal .program)
  | [] => single tree
  | second :: trees =>
    .node .program (.cons (.node .statementsMore (.cons tree (.cons
      (trees.foldl addStatement
        (.node .moreStatementsOne (.cons (.leaf semicolon) (.cons second .nil)))) .nil))) .nil)

/-- The states before the second statement and before any further one. -/
def secondOpening : Nat := next (next 0 (.nonterminal .statement)) (.terminal .semicolon)

def furtherOpening : Nat :=
  next (next (next 0 (.nonterminal .statement)) (.nonterminal .moreStatements))
    (.terminal .semicolon)

variable (tree : Tree (.nonterminal .statement)) (trees : List (Tree (.nonterminal .statement)))

theorem tokens_single : (single tree).tokens = tree.tokens := by
  simp only [single, tokens, Forest.tokens, List.append_nil]

theorem shifts_single : (single tree).shifts 0 = tree.shifts 0 := by
  simp only [single, shifts, Forest.shifts, List.append_nil]

theorem tokens_foldl_addStatement (more : Tree (.nonterminal .moreStatements)) :
    (trees.foldl addStatement more).tokens
      = more.tokens ++ trees.flatMap fun t => semicolon :: t.tokens := by
  induction trees generalizing more with
  | nil => simp
  | cons t trees ih =>
    rw [List.foldl_cons, ih, List.flatMap_cons]
    simp only [addStatement, tokens, Forest.tokens, List.append_nil, List.append_assoc,
      List.nil_append, List.cons_append]

theorem shifts_foldl_addStatement (more : Tree (.nonterminal .moreStatements)) {q : Nat}
    (hq : Opening (next (next q (.nonterminal .moreStatements)) (.terminal .semicolon))) :
    (trees.foldl addStatement more).shifts q
      = more.shifts q ++ trees.flatMap fun t =>
        next (next q (.nonterminal .moreStatements)) (.terminal .semicolon) :: t.shifts 0 := by
  induction trees generalizing more with
  | nil => simp
  | cons t trees ih =>
    rw [List.foldl_cons, ih, List.flatMap_cons]
    simp only [addStatement, shifts, Forest.shifts, List.append_nil, List.append_assoc,
      List.nil_append, List.cons_append, semicolon, hq.shifts_statement]

theorem tokens_several : (several tree trees).tokens
    = tree.tokens ++ trees.flatMap fun t => semicolon :: t.tokens := by
  cases trees with
  | nil => rw [several, tokens_single, List.flatMap_nil, List.append_nil]
  | cons second trees =>
    have hfurther := tokens_foldl_addStatement trees
      (.node .moreStatementsOne (.cons (.leaf semicolon) (.cons second .nil)))
    simp only [several, tokens, Forest.tokens, List.append_nil, List.flatMap_cons]
    rw [hfurther]
    simp only [tokens, Forest.tokens, List.append_nil, List.cons_append, List.nil_append]

/-- Each statement is read in the same states as by itself, but for the state before it. -/
theorem exists_shifts_several : ∃ ps : List (Nat × Tree (.nonterminal .statement)),
    ps.map Prod.snd = trees ∧ (∀ p ∈ ps, Opening p.1)
      ∧ (several tree trees).shifts 0
        = tree.shifts 0 ++ ps.flatMap fun p => p.1 :: p.2.shifts 0 := by
  cases trees with
  | nil => exact ⟨[], rfl, List.forall_mem_nil _, by rw [several, shifts_single]; simp⟩
  | cons second trees =>
    refine ⟨(secondOpening, second) :: trees.map fun t => (furtherOpening, t), ?_, ?_, ?_⟩
    · rw [List.map_cons, List.map_map]
      exact congrArg _ (List.map_id trees)
    · intro p hp
      rcases List.mem_cons.1 hp with rfl | hp
      · exact opening_second
      · obtain ⟨t, -, rfl⟩ := List.mem_map.1 hp
        exact opening_further
    · have hsecond := opening_second.shifts_statement second
      have hfurther := shifts_foldl_addStatement trees
        (.node .moreStatementsOne (.cons (.leaf semicolon) (.cons second .nil))) opening_further
      simp only [several, shifts, Forest.shifts, List.append_nil, List.flatMap_cons,
        List.flatMap_map]
      rw [hfurther]
      simp only [shifts, Forest.shifts, List.append_nil, List.cons_append, List.nil_append,
        semicolon, hsecond]
      rfl

end Tree

/-! ### Their sources -/

/-- A source of one statement, with no semicolon behind it. -/
def Text.Holds (s : Text) (tree : Tree (.nonterminal .statement)) : Prop :=
  Tree.ofSource s = .ok tree.single

theorem Text.Holds.spells {s : Text} {tree : Tree (.nonterminal .statement)} (h : s.Holds tree) :
    (Cursor.start s).Spells 0 tree.tokens (tree.shifts 0) := by
  have hspells := Text.hasTokens_iff.1 (Tree.ofSource_eq_ok_iff.1 h)
  rwa [tree.tokens_single, tree.shifts_single] at hspells

theorem Tree.admits_statement (tree : Tree (.nonterminal .statement)) :
    Admits 0 tree.tokens (tree.shifts 0) := by
  have hadmits := tree.single.admits_tokens
  rwa [tree.tokens_single, tree.shifts_single] at hadmits

theorem Text.ends_further (ss : List Text) :
    Lexeme.Ends (ss.flatMap fun t => (';' : CodePoint) :: t) := by
  intro c hc
  cases ss with
  | nil => cases hc
  | cons s ss =>
    cases hc
    rfl

namespace Cursor

theorem token?_semicolon {admitted : Terminal → Bool} {c : Cursor} {s : Text}
    (hadmitted : admitted .semicolon = true) (hc : c.rest = (';' : CodePoint) :: s) :
    ∃ token d, c.token? admitted = some (token, d) ∧ token.unplaced = Tree.semicolon.unplaced
      ∧ d.rest = s := by
  have hlexeme : Terminal.semicolon.lexeme? c.rest = some (([';'] : Text), s) := by
    rw [hc]
    rfl
  refine ⟨_, _, token?_of_first hadmitted hlexeme fun t hlt _ => ?_, rfl, rfl⟩
  refine Terminal.lexeme?_eq_none (by rw [hc]; rfl) ?_
  revert hlt
  cases t <;> decide

/-- Further statements are read up to the end. -/
theorem spells_further {ss : List Text} {ps : List (Nat × Tree (.nonterminal .statement))}
    (h : List.Forall₂ (fun s p => s.Holds p.2) ss ps) (hopen : ∀ p ∈ ps, Opening p.1) {c : Cursor}
    {q : Nat} (hadmits : Admits q (ps.flatMap fun p => Tree.semicolon :: p.2.tokens)
      (ps.flatMap fun p => p.1 :: p.2.shifts 0))
    (hc : c.skip.rest = ss.flatMap fun t => (';' : CodePoint) :: t) :
    ∃ us, us.map Token.unplaced
        = (ps.flatMap fun p => Tree.semicolon :: p.2.tokens).map Token.unplaced
      ∧ c.Spells q us (ps.flatMap fun p => p.1 :: p.2.shifts 0) := by
  induction h generalizing c q with
  | nil => exact ⟨[], rfl, c, q, .refl, hc⟩
  | @cons s p ss ps hs _ ih =>
    simp only [List.flatMap_cons, List.cons_append] at hadmits hc
    cases hadmits with
    | cons haccepts _ hadmits =>
      obtain ⟨token, d, htoken, hplace, hd⟩ := token?_semicolon haccepts hc
      obtain ⟨us, d', q', hus, hreads, hrest⟩ :=
        hs.spells.append p.2.admits_statement (Text.ends_further ss) hd
      have hne : us ≠ [] := by
        rintro rfl
        obtain ⟨token, rest, htokens, -⟩ := p.2.head_starts
        rw [htokens] at hus
        cases hus
      have hreads := hreads.start_congr hne (hopen p List.mem_cons_self).accepts
      have hadmits := hadmits.of_append p.2.admits_statement.length_eq
      rw [← hreads.eq_getLastD] at hadmits
      obtain ⟨vs, hvs, d'', q'', hreads', hend⟩ :=
        ih (fun p hp => hopen p (List.mem_cons_of_mem _ hp)) hadmits hrest
      refine ⟨token :: (us ++ vs), ?_, d'', q'', .token htoken (hreads.trans hreads'), hend⟩
      rw [List.map_cons, List.map_append, hplace, hus, hvs, List.flatMap_cons, List.cons_append,
        List.map_cons, List.map_append]

end Cursor

/-- Sources of one statement each are read as one program of all of them when they are joined by
semicolons. -/
theorem Tree.exists_ofSource_join {s : Text} {ss : List Text}
    {tree : Tree (.nonterminal .statement)} {trees : List (Tree (.nonterminal .statement))}
    (h : s.Holds tree) (hs : List.Forall₂ Text.Holds ss trees) :
    ∃ tree', Tree.ofSource (Text.join [';'] (s :: ss)) = .ok tree'
      ∧ tree'.unplaced = (several tree trees).unplaced := by
  obtain ⟨ps, rfl, hopen, hshifts⟩ := exists_shifts_several tree trees
  have hadmits := (several tree (ps.map Prod.snd)).admits_tokens
  have htokens := tokens_several tree (ps.map Prod.snd)
  rw [List.flatMap_map] at htokens
  rw [hshifts, htokens] at hadmits
  obtain ⟨us, d, q, hus, hreads, hrest⟩ := h.spells.append tree.admits_statement
    (Text.ends_further ss) (d := .start (Text.join [';'] (s :: ss))) (Text.join_cons _ s ss)
  have hadmits := hadmits.of_append tree.admits_statement.length_eq
  rw [← hreads.eq_getLastD] at hadmits
  obtain ⟨vs, hvs, d', q', hreads', hend⟩ :=
    Cursor.spells_further (List.forall₂_map_right_iff.1 hs) hopen hadmits hrest
  have hplaces : (us ++ vs).map Token.unplaced
      = (several tree (ps.map Prod.snd)).tokens.map Token.unplaced := by
    rw [htokens, List.map_append, List.map_append, hus, hvs]
  refine exists_ofSource _ hplaces ⟨d', q', ?_, hend⟩
  rw [hshifts]
  exact hreads.trans hreads'

end Toplevel
