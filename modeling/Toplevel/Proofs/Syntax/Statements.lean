import Toplevel.Proofs.Syntax.Joined
import Toplevel.Proofs.Syntax.Unplaced

/-!
# Sources of statements

A source of one statement, with no semicolon behind it, has a tree for this statement alone
(`Text.IsStatement.exists_tree`). Such sources, joined by semicolons, say the statements one after
another (`Text.denotes_join`).
-/

namespace Toplevel

/-! ### Meanings of some statements -/

namespace Tree

variable {tree : Tree (.nonterminal .statement)} {trees : List (Tree (.nonterminal .statement))}
  {s : Statement} {ss ss' : List Statement}

theorem terminal_cases {t : Terminal} (tree : Tree (.terminal t)) :
    ∃ token, tree.tokens = [token] ∧ token.kind = t := by
  cases tree with
  | leaf token => exact ⟨token, rfl, rfl⟩

theorem meaning?_single (htree : tree.meaning? = .ok s) :
    tree.single.meaning? = .ok (⟨[s]⟩ : Program) :=
  meaning?_node_eq_ok.2 ⟨([s], ()), Forest.meaning?_cons_eq_ok.2 ⟨meaning?_node_eq_ok.2
    ⟨(s, ()), Forest.meaning?_cons_eq_ok.2 ⟨htree, rfl⟩, rfl⟩, rfl⟩, rfl⟩

theorem meaning?_addStatement {more : Tree (.nonterminal .moreStatements)}
    (hmore : more.meaning? = .ok ss) (htree : tree.meaning? = .ok s) :
    (more.addStatement tree).meaning? = .ok (ss ++ [s]) :=
  meaning?_node_eq_ok.2 ⟨(ss, _, s, ()), Forest.meaning?_cons_eq_ok.2 ⟨hmore,
    Forest.meaning?_cons_eq_ok.2 ⟨rfl, Forest.meaning?_cons_eq_ok.2 ⟨htree, rfl⟩⟩⟩, rfl⟩

theorem meaning?_foldl_addStatement {more : Tree (.nonterminal .moreStatements)}
    (hmore : more.meaning? = .ok ss)
    (htrees : List.Forall₂ (fun (tree : Tree (.nonterminal .statement)) s => tree.meaning? = .ok s)
      trees ss') :
    (trees.foldl addStatement more).meaning? = .ok (ss ++ ss') := by
  induction htrees generalizing more ss with
  | nil => rw [List.foldl_nil, List.append_nil, hmore]
  | @cons tree s trees ss' htree _ ih =>
    rw [List.foldl_cons, ih (meaning?_addStatement hmore htree), List.append_assoc]
    rfl

theorem meaning?_several (htree : tree.meaning? = .ok s)
    (htrees : List.Forall₂ (fun (tree : Tree (.nonterminal .statement)) s => tree.meaning? = .ok s)
      trees ss) :
    (several tree trees).meaning? = .ok (⟨s :: ss⟩ : Program) := by
  cases htrees with
  | nil => exact meaning?_single htree
  | @cons second s' trees ss' hsecond htrees =>
    have hmore : (Tree.node .moreStatementsOne
        (.cons (.leaf semicolon) (.cons second .nil))).meaning? = .ok [s'] :=
      meaning?_node_eq_ok.2 ⟨(_, s', ()), Forest.meaning?_cons_eq_ok.2 ⟨rfl,
        Forest.meaning?_cons_eq_ok.2 ⟨hsecond, rfl⟩⟩, rfl⟩
    have hrest := meaning?_foldl_addStatement hmore htrees
    exact meaning?_node_eq_ok.2 ⟨(s :: s' :: ss', ()), Forest.meaning?_cons_eq_ok.2
      ⟨meaning?_node_eq_ok.2 ⟨(s, s' :: ss', ()), Forest.meaning?_cons_eq_ok.2 ⟨htree,
        Forest.meaning?_cons_eq_ok.2 ⟨hrest, rfl⟩⟩, rfl⟩, rfl⟩, rfl⟩

theorem moreStatements_ne_nil {more : Tree (.nonterminal .moreStatements)}
    (h : more.meaning? = .ok ss) : ss ≠ [] := by
  obtain ⟨p, hp, children, rfl⟩ := more.exists_children
  cases p with
  | moreStatementsOne =>
    obtain ⟨parts, -, rfl⟩ := meaning?_node_eq_ok.1 h
    exact List.cons_ne_nil _ _
  | moreStatementsNext =>
    obtain ⟨parts, -, rfl⟩ := meaning?_node_eq_ok.1 h
    exact List.append_ne_nil_of_right_ne_nil _ (List.cons_ne_nil _ _)
  | _ => cases hp

end Tree

/-! ### Sources of one statement -/

/-- A source of exactly one statement with no semicolon behind it. -/
structure Text.IsStatement (source : Text) : Prop where
  means : ∃ s, parse source = .ok ⟨[s]⟩
  ends : ∀ tree, Tree.ofSource source = .ok tree →
    ∀ token ∈ tree.tokens.getLast?, token.kind ≠ .semicolon

theorem parse_of_ofSource {source : Text} {tree : Tree (.nonterminal .program)} {p : Program}
    (hsource : Tree.ofSource source = .ok tree) (htree : tree.meaning? = .ok p) :
    parse source = .ok p := by
  simp only [parse, hsource, htree]

/-- What a source says, up to the places, can be told from a derivation for other places. -/
theorem parse_of_unplaced {source : Text} {tree tree' : Tree (.nonterminal .program)} {p : Program}
    (hsource : Tree.ofSource source = .ok tree') (hplaces : tree'.unplaced = tree.unplaced)
    (htree : tree.meaning? = .ok p) :
    ∃ q, parse source = .ok q ∧ q.unplaced = p.unplaced := by
  obtain ⟨q, hq, hunplaced⟩ := Tree.meaning?_of_unplaced hplaces htree
  exact ⟨q, parse_of_ofSource hsource hq, hunplaced⟩

theorem exists_of_parse {source : Text} {p : Program} (h : parse source = .ok p) :
    ∃ tree, Tree.ofSource source = .ok tree ∧ tree.meaning? = .ok p := by
  unfold parse at h
  split at h
  · cases h
  · rename_i tree htree
    split at h
    · cases h
    · rename_i hp
      cases h
      exact ⟨tree, htree, hp⟩

/-- A rule that ends in a semicolon ends so in tokens. -/
theorem Tree.getLast?_of_semicolon (last : Tree (.terminal .semicolon)) (ts : List Token) :
    ∃ token ∈ (ts ++ last.tokens).getLast?, token.kind = .semicolon := by
  obtain ⟨token, htokens, hkind⟩ := last.terminal_cases
  exact ⟨token, by rw [htokens, List.getLast?_concat]; rfl, hkind⟩

/-- Of the ways to write statements only one means a single statement and ends without a
semicolon. -/
theorem Tree.exists_single {program : Tree (.nonterminal .program)} {s : Statement}
    (hmeaning : program.meaning? = .ok (⟨[s]⟩ : Program))
    (hends : ∀ token ∈ program.tokens.getLast?, token.kind ≠ .semicolon) :
    ∃ tree : Tree (.nonterminal .statement), program = tree.single ∧ tree.meaning? = .ok s := by
  obtain ⟨children, rfl⟩ := program.program_cases
  rcases children with _ | ⟨statements, _ | _⟩
  obtain ⟨parts, hparts, hp⟩ := meaning?_node_eq_ok.1 hmeaning
  have hstatements := (Forest.meaning?_cons_eq_ok.1 hparts).1
  have hlist : parts.1 = [s] := congrArg Program.statements hp
  rw [hlist] at hstatements
  obtain ⟨p, hlhs, children, rfl⟩ := statements.exists_children
  cases p with
  | statementsOne =>
    rcases children with _ | ⟨tree, _ | _⟩
    obtain ⟨parts, hparts, hrule⟩ := meaning?_node_eq_ok.1 hstatements
    have htree := (Forest.meaning?_cons_eq_ok.1 hparts).1
    rw [show parts.1 = s from (List.cons.inj hrule).1] at htree
    exact ⟨tree, rfl, htree⟩
  | statementsMore =>
    rcases children with _ | ⟨first, _ | ⟨more, _ | _⟩⟩
    obtain ⟨parts, hparts, hrule⟩ := meaning?_node_eq_ok.1 hstatements
    have hmore := (Forest.meaning?_cons_eq_ok.1 (Forest.meaning?_cons_eq_ok.1 hparts).2).1
    exact absurd (List.cons.inj hrule).2 (moreStatements_ne_nil hmore)
  | statementsEnd =>
    rcases children with _ | ⟨first, _ | ⟨last, _ | _⟩⟩
    obtain ⟨token, htoken, hkind⟩ := last.getLast?_of_semicolon first.tokens
    refine absurd hkind (hends token ?_)
    simpa only [tokens, Forest.tokens, List.append_nil] using htoken
  | statementsMoreEnd =>
    rcases children with _ | ⟨first, _ | ⟨more, _ | ⟨last, _ | _⟩⟩⟩
    obtain ⟨token, htoken, hkind⟩ := last.getLast?_of_semicolon (first.tokens ++ more.tokens)
    refine absurd hkind (hends token ?_)
    simpa only [tokens, Forest.tokens, List.append_nil, List.append_assoc] using htoken
  | _ => cases hlhs

theorem Text.IsStatement.exists_tree {source : Text} (h : source.IsStatement) :
    ∃ tree s, source.Holds tree ∧ tree.meaning? = .ok s := by
  obtain ⟨⟨s, hs⟩, hends⟩ := h
  obtain ⟨program, hsource, hp⟩ := exists_of_parse hs
  obtain ⟨tree, rfl, htree⟩ := Tree.exists_single hp (hends program hsource)
  exact ⟨tree, s, hsource, htree⟩

/-! ### Sources joined by semicolons -/

/-- A source of these statements, which may stand at other places in it. -/
def Text.Denotes (source : Text) (ss : List Statement) : Prop :=
  ∃ ss', parse source = .ok ⟨ss'⟩ ∧ ss'.map Statement.unplaced = ss.map Statement.unplaced

theorem Text.denotes_of_unplaced {source : Text} {tree tree' : Tree (.nonterminal .program)}
    {ss : List Statement} (hsource : Tree.ofSource source = .ok tree')
    (hplaces : tree'.unplaced = tree.unplaced) (htree : tree.meaning? = .ok (⟨ss⟩ : Program)) :
    source.Denotes ss := by
  obtain ⟨p, hparse, hunplaced⟩ := parse_of_unplaced hsource hplaces htree
  exact ⟨p.statements, hparse, congrArg Program.statements hunplaced⟩

theorem Text.Denotes.exists_single {source : Text} {s : Statement} (h : source.Denotes [s]) :
    ∃ s', parse source = .ok ⟨[s']⟩ := by
  obtain ⟨ss, hparse, hunplaced⟩ := h
  obtain ⟨s', ss', rfl, -, hnil⟩ := List.map_eq_cons_iff.1 hunplaced
  rw [List.map_eq_nil_iff.1 hnil] at hparse
  exact ⟨s', hparse⟩

theorem Text.exists_statements {texts : List Text} (h : ∀ t ∈ texts, t.IsStatement) :
    ∃ (trees : List (Tree (.nonterminal .statement))) (ss : List Statement),
      List.Forall₂ Text.Holds texts trees
      ∧ List.Forall₂ (fun (tree : Tree (.nonterminal .statement)) s => tree.meaning? = .ok s)
        trees ss
      ∧ List.Forall₂ (fun t s => t.Denotes [s]) texts ss := by
  induction texts with
  | nil => exact ⟨[], [], .nil, .nil, .nil⟩
  | cons t texts ih =>
    obtain ⟨trees, ss, htrees, hss, hdenotes⟩ := ih fun u hu => h u (List.mem_cons_of_mem t hu)
    obtain ⟨tree, s, htree, hs⟩ := (h t List.mem_cons_self).exists_tree
    exact ⟨tree :: trees, s :: ss, .cons htree htrees, .cons hs hss,
      .cons (denotes_of_unplaced htree rfl (Tree.meaning?_single hs)) hdenotes⟩

theorem Text.Denotes.unique {source : Text} {ss ss' : List Statement} (h : source.Denotes ss)
    (h' : source.Denotes ss') : ss.map Statement.unplaced = ss'.map Statement.unplaced := by
  obtain ⟨p, hp, hunplaced⟩ := h
  obtain ⟨p', hp', hunplaced'⟩ := h'
  rw [hp] at hp'
  cases hp'
  exact hunplaced.symm.trans hunplaced'

theorem Text.forall₂_denotes_unique {texts : List Text} {ss ss' : List Statement}
    (h : List.Forall₂ (fun t s => t.Denotes [s]) texts ss)
    (h' : List.Forall₂ (fun t s => t.Denotes [s]) texts ss') :
    ss.map Statement.unplaced = ss'.map Statement.unplaced := by
  induction h generalizing ss' with
  | nil =>
    cases h'
    rfl
  | cons hs _ ih =>
    cases h' with
    | cons hs' h' =>
      rw [List.map_cons, List.map_cons, ih h']
      exact congrArg (· ++ _) (hs.unique hs')

/-- Joined statements are said one after another. -/
theorem Text.denotes_join {texts : List Text} {ss : List Statement} (hne : texts ≠ [])
    (h : ∀ t ∈ texts, t.IsStatement) (hdenotes : List.Forall₂ (fun t s => t.Denotes [s]) texts ss) :
    (Text.join [';'] texts).Denotes ss := by
  obtain ⟨trees, ss', htrees, hss, hdenotes'⟩ := exists_statements h
  have hunplaced := forall₂_denotes_unique hdenotes' hdenotes
  cases htrees with
  | nil => exact absurd rfl hne
  | cons htree htrees =>
    cases hss with
    | cons hs hss =>
      obtain ⟨tree', hsource, hplaces⟩ := Tree.exists_ofSource_join htree htrees
      obtain ⟨p, hp, hp'⟩ := denotes_of_unplaced hsource hplaces (Tree.meaning?_several hs hss)
      exact ⟨p, hp, hp'.trans hunplaced⟩

end Toplevel
