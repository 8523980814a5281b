import Toplevel.Proofs.Syntax.Grammar
import Toplevel.Proofs.Syntax.Statements

/-!
# Programs behind each other

A program whose last token is no semicolon may have a semicolon and another program behind it, and
says the statements of both (`parse_concatenated`). For right after a semicolon the automaton looks
for the same tokens as at the start, and from there it reads a statement in the same states; so the
tokens of both programs with a semicolon between them are read as before in states that admit the
same (`Automaton.admitted`), and they are the tokens of the program of all the statements
(`Tree.written`).
-/

namespace Toplevel

open Automaton

/-! ### States that admit the same tokens -/

/-- The tokens that are looked for in a state. -/
def Automaton.admitted (q : Nat) : Terminal → Bool := (state q).accepts

theorem Automaton.accepts_eq {p q : Nat} (h : admitted p = admitted q) :
    (state p).accepts = (state q).accepts := h

theorem Automaton.Opening.admitted_eq {q : Nat} (h : Opening q) : admitted q = admitted 0 :=
  funext h.accepts

theorem Automaton.Admits.congr {p q : Nat} {ts us : List Token} {qs rs : List Nat}
    (h : Admits q ts qs) (hq : admitted p = admitted q)
    (hts : us.map Token.kind = ts.map Token.kind) (hqs : rs.map admitted = qs.map admitted) :
    Admits p us rs := by
  induction h generalizing p us rs with
  | nil =>
    rw [List.map_eq_nil_iff.1 hts, List.map_eq_nil_iff.1 hqs]
    exact .nil
  | cons haccepts hparen _ ih =>
    obtain ⟨token, us, rfl, hkind, hts⟩ := List.map_eq_cons_iff.1 hts
    obtain ⟨r, rs, rfl, hr, hqs⟩ := List.map_eq_cons_iff.1 hqs
    refine .cons ?_ (fun htoken => ?_) (ih hr hts hqs)
    · rw [hkind, accepts_eq hq]
      exact haccepts
    · rw [accepts_eq hr]
      exact hparen (hkind.symm.trans htoken)

theorem Cursor.Reads.congr {c c' : Cursor} {p q q' : Nat} {ts : List Token} {qs rs : List Nat}
    (h : c.Reads q ts qs c' q') (hq : admitted p = admitted q)
    (hqs : rs.map admitted = qs.map admitted) : ∃ p', c.Reads p ts rs c' p' := by
  induction h generalizing p rs with
  | refl =>
    rw [List.map_eq_nil_iff.1 hqs]
    exact ⟨p, .refl⟩
  | token htoken _ ih =>
    obtain ⟨r, rs, rfl, hr, hqs⟩ := List.map_eq_cons_iff.1 hqs
    obtain ⟨p', hreads⟩ := ih hr hqs
    rw [← accepts_eq hq] at htoken
    exact ⟨p', .token htoken hreads⟩

/-! ### Sources -/

/-- A source, a semicolon and a source are read as a program that has the tokens of both and of the
semicolon, where the semicolon can come. -/
theorem Tree.exists_ofSource_concatenated {a b : Text}
    {tree first second : Tree (.nonterminal .program)} (ha : Tree.ofSource a = .ok first)
    (hb : Tree.ofSource b = .ok second)
    (htokens : tree.tokens.map Token.unplaced
      = (first.tokens ++ semicolon :: second.tokens).map Token.unplaced)
    (hshifts : (tree.shifts 0).map admitted
      = (first.shifts 0 ++ 0 :: second.shifts 0).map admitted) :
    ∃ tree', Tree.ofSource (a ++ (';' : CodePoint) :: b) = .ok tree'
      ∧ tree'.unplaced = tree.unplaced := by
  have hkinds : (first.tokens ++ semicolon :: second.tokens).map Token.kind
      = tree.tokens.map Token.kind := by
    have h := congrArg (List.map Token.kind) htokens
    rw [List.map_map, List.map_map] at h
    exact h.symm
  have hadmits := (tree.admits_tokens.congr rfl hkinds hshifts.symm).of_append
    first.admits_tokens.length_eq
  obtain ⟨us, d, q, hus, hreads, hrest⟩ :=
    (Text.hasTokens_iff.1 (ofSource_eq_ok_iff.1 ha)).append first.admits_tokens
      (u := (';' : CodePoint) :: b) (d := .start _) (by rintro c ⟨⟩; rfl) rfl
  rw [← hreads.eq_getLastD] at hadmits
  cases hadmits with
  | cons haccepts _ _ =>
    obtain ⟨token, e, htoken, hplace, he⟩ := Cursor.token?_semicolon haccepts hrest
    obtain ⟨vs, e', q', hvs, hreads', hend⟩ :=
      (Text.hasTokens_iff.1 (ofSource_eq_ok_iff.1 hb)).append second.admits_tokens
        (u := []) (d := e) (by rintro c ⟨⟩) (by rw [he, List.append_nil]; rfl)
    obtain ⟨q'', hreads''⟩ := (hreads.trans (.token htoken hreads')).congr rfl hshifts
    refine exists_ofSource tree ?_ ⟨e', q'', hreads'', hend⟩
    rw [htokens, List.map_append, List.map_append, List.map_cons, List.map_cons, hus, hplace, hvs]

/-! ### Programs of some statements -/

namespace Tree

variable (tree : Tree (.nonterminal .statement)) (trees : List (Tree (.nonterminal .statement)))

/-- A second statement and further ones, each with a semicolon before it. -/
def further (second : Tree (.nonterminal .statement)) :
    List (Tree (.nonterminal .statement)) → Tree (.nonterminal .moreStatements) :=
  List.foldl addStatement
    (.node .moreStatementsOne (.cons (.leaf semicolon) (.cons second .nil)))

theorem further_concat (second : Tree (.nonterminal .statement)) :
    further second (trees ++ [tree]) = addStatement (further second trees) tree :=
  List.foldl_concat ..

/-- The program of some statements with semicolons between them and, if it is `ended`, behind the
last. -/
def written : List (Tree (.nonterminal .statement)) → Bool → Tree (.nonterminal .program)
  | trees, false => several tree trees
  | [], true =>
    .node .program (.cons (.node .statementsEnd (.cons tree (.cons (.leaf semicolon) .nil))) .nil)
  | second :: trees, true =>
    .node .program (.cons (.node .statementsMoreEnd
      (.cons tree (.cons (further second trees) (.cons (.leaf semicolon) .nil)))) .nil)

def ending (ended : Bool) : List Token := if ended then [semicolon] else []

theorem tokens_written (ended : Bool) : (written tree trees ended).tokens
    = tree.tokens ++ (trees.flatMap fun t => semicolon :: t.tokens) ++ ending ended := by
  cases ended with
  | false => rw [written, tokens_several, ending, if_neg Bool.false_ne_true, List.append_nil]
  | true =>
    rw [← tokens_several]
    cases trees with
    | nil => simp [written, several, single, ending, tokens, Forest.tokens]
    | cons second trees => simp [written, several, further, ending, tokens, Forest.tokens]

theorem admitted_shifts_several : ((several tree trees).shifts 0).map admitted
    = (tree.shifts 0 ++ trees.flatMap fun (t : Tree _) => 0 :: t.shifts 0).map admitted := by
  obtain ⟨ps, rfl, hopen, hshifts⟩ := exists_shifts_several tree trees
  rw [hshifts, List.map_append, List.map_append, List.flatMap_map, List.map_flatMap,
    List.map_flatMap]
  refine congrArg (_ ++ ·) (List.flatMap_congr fun p hp => ?_)
  rw [List.map_cons, List.map_cons, (hopen p hp).admitted_eq]

/-- A semicolon leads to where a statement can start. -/
theorem admitted_shifts_written (ended : Bool) : ((written tree trees ended).shifts 0).map admitted
    = (tree.shifts 0 ++ (trees.flatMap fun (t : Tree _) => 0 :: t.shifts 0)
      ++ (ending ended).map fun _ => 0).map admitted := by
  rw [List.map_append, ← admitted_shifts_several]
  cases ended with
  | false => rw [written, ending, if_neg Bool.false_ne_true, List.map_nil, List.map_nil,
      List.append_nil]
  | true =>
    cases trees with
    | nil =>
      simp [written, several, single, ending, shifts, Forest.shifts, semicolon,
        opening_second.admitted_eq]
    | cons second trees =>
      simp [written, several, further, ending, shifts, Forest.shifts, semicolon,
        opening_further.admitted_eq]

section

variable (tree' : Tree (.nonterminal .statement)) (trees' : List (Tree (.nonterminal .statement)))
  (ended : Bool)

theorem tokens_written_append : (written tree (trees ++ tree' :: trees') ended).tokens
    = (written tree trees false).tokens ++ semicolon :: (written tree' trees' ended).tokens := by
  simp only [tokens_written, ending, Bool.false_eq_true, if_false, List.append_nil,
    List.flatMap_append, List.flatMap_cons, List.append_assoc, List.cons_append]

theorem admitted_shifts_written_append :
    ((written tree (trees ++ tree' :: trees') ended).shifts 0).map admitted
      = ((written tree trees false).shifts 0
        ++ 0 :: (written tree' trees' ended).shifts 0).map admitted := by
  rw [List.map_append, List.map_cons, admitted_shifts_written, admitted_shifts_written,
    admitted_shifts_written]
  simp only [ending, Bool.false_eq_true, if_false, List.map_nil, List.append_nil,
    List.flatMap_append, List.flatMap_cons, List.map_append, List.map_cons, List.append_assoc,
    List.cons_append]

end

def Means (tree : Tree (.nonterminal .statement)) (s : Statement) : Prop := tree.meaning? = .ok s

variable {tree trees} {s : Statement} {ss : List Statement}

theorem meaning?_semicolon : (leaf semicolon).meaning? = .ok ⟨[';'], Position.start⟩ := rfl

theorem meaning?_further {second : Tree (.nonterminal .statement)} (hsecond : second.Means s)
    (htrees : List.Forall₂ Means trees ss) :
    (further second trees).meaning? = .ok (s :: ss) := by
  have hmore : (Tree.node .moreStatementsOne
      (.cons (.leaf semicolon) (.cons second .nil))).meaning? = .ok [s] :=
    meaning?_node_eq_ok.2 ⟨(_, s, ()), Forest.meaning?_cons_eq_ok.2 ⟨meaning?_semicolon,
      Forest.meaning?_cons_eq_ok.2 ⟨hsecond, rfl⟩⟩, rfl⟩
  exact meaning?_foldl_addStatement hmore htrees

theorem meaning?_written (htree : tree.Means s) (htrees : List.Forall₂ Means trees ss)
    (ended : Bool) : (written tree trees ended).meaning? = .ok (⟨s :: ss⟩ : Program) := by
  cases ended with
  | false => exact meaning?_several htree htrees
  | true =>
    cases htrees with
    | nil =>
      exact meaning?_node_eq_ok.2 ⟨([s], ()), Forest.meaning?_cons_eq_ok.2
        ⟨meaning?_node_eq_ok.2 ⟨(s, _, ()), Forest.meaning?_cons_eq_ok.2 ⟨htree,
          Forest.meaning?_cons_eq_ok.2 ⟨meaning?_semicolon, rfl⟩⟩, rfl⟩, rfl⟩, rfl⟩
    | @cons second s' trees ss' hsecond htrees =>
      exact meaning?_node_eq_ok.2 ⟨(s :: s' :: ss', ()), Forest.meaning?_cons_eq_ok.2
        ⟨meaning?_node_eq_ok.2 ⟨(s, s' :: ss', _, ()), Forest.meaning?_cons_eq_ok.2 ⟨htree,
          Forest.meaning?_cons_eq_ok.2 ⟨meaning?_further hsecond htrees,
            Forest.meaning?_cons_eq_ok.2 ⟨meaning?_semicolon, rfl⟩⟩⟩, rfl⟩, rfl⟩, rfl⟩

end Tree

/-! ### Every program is one of some statements -/

namespace Tree

/-- Semicolons are written as such. -/
def Separated (ts : List Token) : Prop :=
  ∀ token ∈ ts, token.kind = .semicolon → token.text = [';']

theorem Separated.unplaced_eq {last : Tree (.terminal .semicolon)} (h : Separated last.tokens) :
    last.unplaced = (leaf semicolon).unplaced := by
  obtain ⟨text, offset, position, rfl⟩ := last.exists_leaf
  have htext : text = [';'] := h _ (List.mem_singleton_self _) rfl
  rw [htext]
  rfl

theorem exists_further {more : Tree (.nonterminal .moreStatements)} {ss : List Statement}
    (hmore : more.meaning? = .ok ss) (hts : Separated more.tokens) :
    ∃ second trees, List.Forall₂ Means (second :: trees) ss
      ∧ more.unplaced = (further second trees).unplaced := by
  induction hn : more.tokens.length using Nat.strong_induction_on generalizing more ss with
  | h n ih =>
    subst hn
    obtain ⟨p, hlhs, children, rfl⟩ := more.exists_children
    cases p with
    | moreStatementsOne =>
      rcases children with _ | ⟨last, _ | ⟨second, _ | _⟩⟩
      obtain ⟨parts, hparts, rfl⟩ := meaning?_node_eq_ok.1 hmore
      have hsecond := (Forest.meaning?_cons_eq_ok.1 (Forest.meaning?_cons_eq_ok.1 hparts).2).1
      have hlast : Separated last.tokens := fun token htoken =>
        hts token (List.mem_append_left _ htoken)
      refine ⟨second, [], .cons hsecond .nil, ?_⟩
      change node .moreStatementsOne (.cons last.unplaced (.cons second.unplaced .nil)) = _
      rw [hlast.unplaced_eq]
      rfl
    | moreStatementsNext =>
      rcases children with _ | ⟨before, _ | ⟨last, _ | ⟨tree, _ | _⟩⟩⟩
      obtain ⟨parts, hparts, rfl⟩ := meaning?_node_eq_ok.1 hmore
      obtain ⟨hbefore, hparts⟩ := Forest.meaning?_cons_eq_ok.1 hparts
      have htree := (Forest.meaning?_cons_eq_ok.1 (Forest.meaning?_cons_eq_ok.1 hparts).2).1
      have hlast : Separated last.tokens := fun token htoken =>
        hts token (List.mem_append_right _ (List.mem_append_left _ htoken))
      have hlt : before.tokens.length < (node .moreStatementsNext
          (.cons before (.cons last (.cons tree .nil)))).tokens.length := by
        obtain ⟨token, rest, htokens, -⟩ := last.head_starts
        simp only [tokens, Forest.tokens, htokens, List.length_append, List.length_cons]
        omega
      obtain ⟨second, trees, hmeaning, hunplaced⟩ := ih _ hlt hbefore
        (fun token htoken => hts token (List.mem_append_left _ htoken)) rfl
      refine ⟨second, trees ++ [tree], List.rel_append hmeaning (.cons htree .nil), ?_⟩
      change node .moreStatementsNext
        (.cons before.unplaced (.cons last.unplaced (.cons tree.unplaced .nil))) = _
      rw [hlast.unplaced_eq, hunplaced, further_concat]
      rfl
    | _ => cases hlhs

/-- Every program is one of some statements up to places. -/
theorem exists_written {program : Tree (.nonterminal .program)} {p : Program}
    (hmeaning : program.meaning? = .ok p) (hts : Separated program.tokens) :
    ∃ tree trees ended, List.Forall₂ Means (tree :: trees) p.statements
      ∧ program.unplaced = (written tree trees ended).unplaced := by
  obtain ⟨children, rfl⟩ := program.program_cases
  rcases children with _ | ⟨statements, _ | _⟩
  obtain ⟨parts, hparts, rfl⟩ := meaning?_node_eq_ok.1 hmeaning
  have hstatements := (Forest.meaning?_cons_eq_ok.1 hparts).1
  replace hts : Separated statements.tokens := fun token htoken =>
    hts token (List.mem_append_left _ htoken)
  change ∃ tree trees ended, List.Forall₂ _ _ parts.1
    ∧ node .program (.cons statements.unplaced .nil) = _
  generalize parts.1 = ss at hstatements
  obtain ⟨p, hlhs, children, rfl⟩ := statements.exists_children
  cases p with
  | statementsOne =>
    rcases children with _ | ⟨tree, _ | _⟩
    obtain ⟨parts, hparts, rfl⟩ := meaning?_node_eq_ok.1 hstatements
    exact ⟨tree, [], false, .cons (Forest.meaning?_cons_eq_ok.1 hparts).1 .nil, rfl⟩
  | statementsMore =>
    rcases children with _ | ⟨first, _ | ⟨more, _ | _⟩⟩
    obtain ⟨parts, hparts, rfl⟩ := meaning?_node_eq_ok.1 hstatements
    obtain ⟨hfirst, hparts⟩ := Forest.meaning?_cons_eq_ok.1 hparts
    obtain ⟨second, trees, hmore, hunplaced⟩ := exists_further
      (Forest.meaning?_cons_eq_ok.1 hparts).1 fun token htoken =>
        hts token (List.mem_append_right _ (List.mem_append_left _ htoken))
    refine ⟨first, second :: trees, false, .cons hfirst hmore, ?_⟩
    change node .program (.cons (node .statementsMore
      (.cons first.unplaced (.cons more.unplaced .nil))) .nil) = _
    rw [hunplaced]
    rfl
  | statementsEnd =>
    rcases children with _ | ⟨first, _ | ⟨last, _ | _⟩⟩
    obtain ⟨parts, hparts, rfl⟩ := meaning?_node_eq_ok.1 hstatements
    have hlast : Separated last.tokens := fun token htoken =>
      hts token (List.mem_append_right _ (List.mem_append_left _ htoken))
    refine ⟨first, [], true, .cons (Forest.meaning?_cons_eq_ok.1 hparts).1 .nil, ?_⟩
    change node .program (.cons (node .statementsEnd
      (.cons first.unplaced (.cons last.unplaced .nil))) .nil) = _
    rw [hlast.unplaced_eq]
    rfl
  | statementsMoreEnd =>
    rcases children with _ | ⟨first, _ | ⟨more, _ | ⟨last, _ | _⟩⟩⟩
    obtain ⟨parts, hparts, rfl⟩ := meaning?_node_eq_ok.1 hstatements
    obtain ⟨hfirst, hparts⟩ := Forest.meaning?_cons_eq_ok.1 hparts
    have hlast : Separated last.tokens := fun token htoken =>
      hts token (List.mem_append_right _ (List.mem_append_right _ (List.mem_append_left _ htoken)))
    obtain ⟨second, trees, hmore, hunplaced⟩ := exists_further
      (Forest.meaning?_cons_eq_ok.1 hparts).1 fun token htoken =>
        hts token (List.mem_append_right _ (List.mem_append_left _ htoken))
    refine ⟨first, second :: trees, true, .cons hfirst hmore, ?_⟩
    change node .program (.cons (node .statementsMoreEnd
      (.cons first.unplaced (.cons more.unplaced (.cons last.unplaced .nil)))) .nil) = _
    rw [hunplaced, hlast.unplaced_eq]
    rfl
  | _ => cases hlhs

end Tree

theorem Cursor.Reads.separated {c c' : Cursor} {q q' : Nat} {ts : List Token} {qs : List Nat}
    (h : c.Reads q ts qs c' q') : Tree.Separated ts := by
  induction h with
  | refl => exact nofun
  | token htoken _ ih =>
    intro t ht hkind
    rcases List.mem_cons.1 ht with rfl | ht
    · have hlexeme := (token?_eq_some htoken).2.1
      rw [hkind] at hlexeme
      exact List.mem_singleton.1 (Lexeme.oneOf?_eq_some hlexeme).1
    · exact ih t ht hkind

theorem Text.exists_written {source : Text} {p : Program} (h : parse source = .ok p) :
    ∃ program tree trees ended, Tree.ofSource source = .ok program
      ∧ List.Forall₂ Tree.Means (tree :: trees) p.statements
      ∧ program.unplaced = (Tree.written tree trees ended).unplaced := by
  obtain ⟨program, hsource, hmeaning⟩ := exists_of_parse h
  obtain ⟨c, q, hreads, -⟩ := Tree.ofSource_eq_ok_iff.1 hsource
  obtain ⟨tree, trees, ended, hstatements, hunplaced⟩ :=
    Tree.exists_written hmeaning hreads.separated
  exact ⟨program, tree, trees, ended, hsource, hstatements, hunplaced⟩

theorem Tree.not_ended {program : Tree (.nonterminal .program)}
    {tree : Tree (.nonterminal .statement)} {trees : List (Tree (.nonterminal .statement))}
    {ended : Bool} (h : program.unplaced = (written tree trees ended).unplaced)
    (hends : ∀ token ∈ program.tokens.getLast?, token.kind ≠ .semicolon) : ended = false := by
  rw [← Bool.not_eq_true]
  rintro rfl
  have htokens := congrArg tokens h
  rw [tokens_unplaced, tokens_unplaced, tokens_written, List.map_append] at htokens
  have hlast := congrArg List.getLast? htokens
  rw [List.getLast?_map, ending, if_pos rfl, List.map_singleton, List.getLast?_concat] at hlast
  obtain ⟨token, htoken, hunplaced⟩ := Option.map_eq_some_iff.1 hlast
  exact hends token htoken (congrArg Token.kind hunplaced)

/-- A program, a semicolon and a program are read as the statements of both, where the first program
does not end in a semicolon itself. -/
theorem parse_concatenated {a b : Text} {p q : Program} (ha : parse a = .ok p)
    (hb : parse b = .ok q) (hends : ∀ tree, Tree.ofSource a = .ok tree →
      ∀ token ∈ tree.tokens.getLast?, token.kind ≠ .semicolon) :
    ∃ r, parse (a ++ (';' : CodePoint) :: b) = .ok r
      ∧ r.unplaced = (⟨p.statements ++ q.statements⟩ : Program).unplaced := by
  obtain ⟨first, tree, trees, ended, hfirst, hp, hunplaced⟩ := Text.exists_written ha
  obtain ⟨second, tree', trees', ended', hsecond, hq, hunplaced'⟩ := Text.exists_written hb
  obtain rfl := Tree.not_ended hunplaced (hends first hfirst)
  have htokens : (Tree.written tree (trees ++ tree' :: trees') ended').tokens.map Token.unplaced
      = (first.tokens ++ Tree.semicolon :: second.tokens).map Token.unplaced := by
    rw [Tree.tokens_written_append, List.map_append, List.map_append, List.map_cons, List.map_cons,
      ← Tree.tokens_unplaced, ← Tree.tokens_unplaced, ← hunplaced, ← hunplaced',
      Tree.tokens_unplaced, Tree.tokens_unplaced]
  have hshifts := Tree.admitted_shifts_written_append tree trees tree' trees' ended'
  rw [← Tree.shifts_of_unplaced hunplaced, ← Tree.shifts_of_unplaced hunplaced'] at hshifts
  obtain ⟨both, hboth, hplaces⟩ :=
    Tree.exists_ofSource_concatenated hfirst hsecond htokens hshifts
  obtain ⟨s, ss, htree, htrees, hp⟩ := List.forall₂_cons_left_iff.1 hp
  have hmeaning := Tree.meaning?_written htree (List.rel_append htrees hq) ended'
  obtain ⟨r, hr, hunplaced⟩ := Tree.meaning?_of_unplaced hplaces hmeaning
  exact ⟨r, parse_of_ofSource hboth hr, by rw [hp]; exact hunplaced⟩

theorem parse_concatenated_negated : ∃ r, parse "- x;- x" = .ok r
    ∧ r.unplaced = ⟨[.expr (.neg (.var "x" .start)), .expr (.neg (.var "x" .start))]⟩ := by
  obtain ⟨tree, hsource, hplaces⟩ := Tree.ofSource_negated
  have hnegated : Tree.negated.meaning? = .ok (⟨[.expr (.neg (.var "x" ⟨1, 3⟩))]⟩ : Program) := rfl
  obtain ⟨p, hp, hunplaced⟩ := Tree.meaning?_of_unplaced hplaces hnegated
  have hparse := parse_of_ofSource hsource hp
  obtain ⟨r, hr, hboth⟩ := parse_concatenated hparse hparse (by
    intro tree' hsource' token htoken
    cases hsource.symm.trans hsource'
    have hmem := List.mem_map_of_mem (f := Token.unplaced) (List.mem_of_mem_getLast? htoken)
    rw [← Tree.tokens_unplaced, hplaces] at hmem
    have hkinds : ∀ t ∈ Tree.negated.unplaced.tokens, t.kind ≠ .semicolon := by decide
    exact hkinds token.unplaced hmem)
  refine ⟨r, hr, ?_⟩
  rw [hboth, Program.unplaced, List.map_append]
  have hstatements : p.statements.map Statement.unplaced = _ :=
    congrArg Program.statements hunplaced
  rw [hstatements]
  rfl

end Toplevel
