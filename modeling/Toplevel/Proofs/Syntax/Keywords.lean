import Toplevel.Proofs.Syntax.Breakdown
import Toplevel.Proofs.Syntax.Concatenated

/-!
# Names that are spelled like keywords

A keyword is one only where it can stand: a name is never spelled like a keyword that the tokens in
front of it allow (`Tree.keyword?_ne_of_name`), and where none is allowed, any word is a name. So
what a name of some kind cannot be are the keywords that can stand in place of it wherever it stands
(`Naming.reserved`), and nothing else (`parse_names`).
-/

namespace Toplevel

open Automaton

/-! ### The names of a program -/

/-- What a name is: a variable, the parameter of a function, the name of a definition with or
without `rec` or of a `let` with a body, or the name in a match arm with or without a tag. -/
inductive Naming where
  | var
  | parameter
  | definition (recursive : Bool)
  | binding
  | arm (tagged : Bool)
deriving DecidableEq

namespace Naming

/-- The keywords that can stand wherever such a name can. -/
def reserved : Naming → List Terminal
  | var => [.kwTrue, .kwFalse]
  | definition false => [.kwRec]
  | _ => []

end Naming

mutual

/-- The names in an expression that are not names of fields. -/
def Expr.namings : Expr → List (Naming × Text)
  | .number _ | .string _ | .bool _ => []
  | .var x _ => [(.var, x)]
  | .func x b => (.parameter, x) :: b.namings
  | .letIn x v b => (.binding, x) :: (v.namings ++ b.namings)
  | .neg a | .deref a | .newRef a | .field a _ | .tagged _ a => a.namings
  | .apply a b | .binary _ _ a b | .assign a b => a.namings ++ b.namings
  | .ifElse c y n => c.namings ++ (y.namings ++ n.namings)
  | .matchWith s as => s.namings ++ as.namings
  | .record fs => fs.namings
  | .update b fs => b.namings ++ fs.namings

def Arms.namings : Arms → List (Naming × Text)
  | .nil => []
  | .cons tag x b rest => (.arm tag.isSome, x) :: (b.namings ++ rest.namings)

def Fields.namings : Fields → List (Naming × Text)
  | .nil => []
  | .cons _ v rest => v.namings ++ rest.namings

end

def Statement.namings : Statement → List (Naming × Text)
  | .define x v r => (.definition r, x) :: v.namings
  | .expr e => e.namings

def Program.namings (p : Program) : List (Naming × Text) := p.statements.flatMap Statement.namings

mutual

theorem Expr.namings_unplaced : ∀ e : Expr, e.unplaced.namings = e.namings
  | .number _ | .string _ | .bool _ | .var .. => rfl
  | .func _ a => congrArg (List.cons _) a.namings_unplaced
  | .neg a | .deref a | .newRef a | .field a _ | .tagged _ a => a.namings_unplaced
  | .letIn x a b => by
    rw [Expr.unplaced, Expr.namings, Expr.namings, a.namings_unplaced, b.namings_unplaced]
  | .apply a b | .binary _ _ a b | .assign a b => by
    rw [Expr.unplaced, Expr.namings, Expr.namings, a.namings_unplaced, b.namings_unplaced]
  | .ifElse a b c => by
    rw [Expr.unplaced, Expr.namings, Expr.namings, a.namings_unplaced, b.namings_unplaced,
      c.namings_unplaced]
  | .matchWith a as => by
    rw [Expr.unplaced, Expr.namings, Expr.namings, a.namings_unplaced, as.namings_unplaced]
  | .record fs => fs.namings_unplaced
  | .update a fs => by
    rw [Expr.unplaced, Expr.namings, Expr.namings, a.namings_unplaced, fs.namings_unplaced]

theorem Arms.namings_unplaced : ∀ as : Arms, as.unplaced.namings = as.namings
  | .nil => rfl
  | .cons _ _ b rest => by
    rw [Arms.unplaced, Arms.namings, Arms.namings, b.namings_unplaced, rest.namings_unplaced]

theorem Fields.namings_unplaced : ∀ fs : Fields, fs.unplaced.namings = fs.namings
  | .nil => rfl
  | .cons _ v rest => by
    rw [Fields.unplaced, Fields.namings, Fields.namings, v.namings_unplaced, rest.namings_unplaced]

end

theorem Program.namings_unplaced (p : Program) : p.unplaced.namings = p.namings := by
  rw [namings, namings, unplaced, List.flatMap_map]
  refine congrArg (List.flatMap · p.statements) (funext fun s => ?_)
  cases s with
  | define x v r => exact congrArg (List.cons _) v.namings_unplaced
  | expr e => exact e.namings_unplaced

theorem Arms.namings_append : ∀ as bs : Arms, (as.append bs).namings = as.namings ++ bs.namings
  | .nil, _ => rfl
  | .cons _ _ b rest, bs => by
    rw [Arms.append, Arms.namings, Arms.namings, rest.namings_append bs, List.cons_append,
      List.append_assoc]

theorem Fields.namings_append : ∀ fs gs : Fields, (fs.append gs).namings = fs.namings ++ gs.namings
  | .nil, _ => rfl
  | .cons _ v rest, gs => by
    rw [Fields.append, Fields.namings, Fields.namings, rest.namings_append gs, List.append_assoc]

/-! ### The names in what a rule means -/

/-- What the name is that a rule has among its tokens, unless it is that of a field. -/
def Production.naming? : Production → Option Naming
  | .var => some .var
  | .func => some .parameter
  | .define => some (.definition false)
  | .defineRec => some (.definition true)
  | .letIn => some .binding
  | .anyPattern => some (.arm false)
  | .tagPattern => some (.arm true)
  | _ => none

/-- The names in the meaning of a symbol, apart from the one that it may be itself. -/
def Meaning.namings : (s : Symbol) → Meaning s → List (Naming × Text)
  | .terminal _ => fun _ => []
  | .nonterminal .program => Program.namings
  | .nonterminal .statements | .nonterminal .moreStatements => List.flatMap Statement.namings
  | .nonterminal .statement => Statement.namings
  | .nonterminal .arms | .nonterminal .arm => Arms.namings
  | .nonterminal .pattern => fun p => [(.arm p.1.isSome, p.2)]
  | .nonterminal .moreFields | .nonterminal .field => Fields.namings
  | .nonterminal .expr | .nonterminal .assign | .nonterminal .compare | .nonterminal .concat
  | .nonterminal .sum | .nonterminal .product | .nonterminal .unary | .nonterminal .call
  | .nonterminal .tagged | .nonterminal .simple | .nonterminal .atom => Expr.namings

def Parts.namings : (ss : List Symbol) → Parts Meaning ss → List (Naming × Text)
  | [], () => []
  | s :: ss, (m, ms) => Meaning.namings s m ++ namings ss ms

/-- The text of a symbol that is a name. -/
def Meaning.words : (s : Symbol) → Meaning s → List Text
  | .terminal .name => fun w => [Word.text w]
  | _ => fun _ => []

def Parts.words : (ss : List Symbol) → Parts Meaning ss → List Text
  | [], () => []
  | s :: ss, (m, ms) => Meaning.words s m ++ words ss ms

theorem Statement.namings_concat (ss : List Statement) (s : Statement) :
    (ss ++ [s]).flatMap namings = ss.flatMap namings ++ (s.namings ++ []) := by
  rw [List.flatMap_append, List.flatMap_singleton, List.append_nil]

/-- A rule adds the name that it has itself to those of its parts. -/
theorem Meaning.ofRule_namings (p : Production) (parts : Parts Meaning p.rhs) :
    (namings (.nonterminal p.lhs) (ofRule p parts)).Sublist
      ((p.naming?.elim [] fun k => (parts.words p.rhs).map (k, ·)) ++ parts.namings p.rhs) := by
  have hlast : ∀ l r : List (Naming × Text), l.Sublist (l ++ r) := List.sublist_append_left
  have hkeep : ∀ {k l r : List (Naming × Text)}, l.Sublist r → (k ++ l).Sublist (k ++ r) :=
    fun h => (List.append_sublist_append_left _).2 h
  have harms : ∀ as bs : Arms, (as.append bs).namings.Sublist (as.namings ++ (bs.namings ++ [])) :=
    fun as bs => by rw [as.namings_append, List.append_nil]
  have hfields : ∀ (fs gs : Fields) (r : List (Naming × Text)),
      (fs.append gs).namings.Sublist (fs.namings ++ (gs.namings ++ r)) :=
    fun fs gs r => by rw [fs.namings_append]; exact hkeep (hlast _ _)
  cases p with
  | statementsMoreEnd | statementsMore | matchWith | assign | compare | concat | plus | minus
  | product | apply | applyTagged | updateOne | updateOneEnd => exact hkeep (hlast _ _)
  | ifElse => exact hkeep (hkeep (hlast _ _))
  | statementsEnd | statementsOne | moreStatementsOne | arm | tagPattern | anyPattern | var
  | field => exact .refl _
  | moreStatementsNext => exact Statement.namings_concat _ _ ▸ .refl _
  | define | defineRec | func => exact (hlast _ _).cons_cons _
  | letIn => exact (hkeep (hlast _ _)).cons_cons _
  | armsNext => exact harms _ _
  | number | string | trueLit | falseLit | recordEmpty => exact List.nil_sublist _
  | recordMore | recordMoreEnd | moreFieldsNext => exact hfields _ _ _
  | updateMore | updateMoreEnd => exact hkeep (hfields _ _ _)
  | _ => exact hlast _ _

/-! ### Where the names stand -/

/-- The tokens that can be written for some symbols in a row. -/
def DerivesAll (ss : List Symbol) (ts : List Token) : Prop :=
  ∃ forest : Forest ss, forest.tokens = ts

/-- The name `x` is one of the tokens `ts`, and each keyword that is reserved for such a name could
stand in its place, with other tokens behind it. -/
def Naming.StandsIn (k : Naming) (x : Text) (D : List Token → Prop) (ts : List Token) : Prop :=
  ∃ before token after, ts = before ++ token :: after ∧ token.kind = .name ∧ token.text = x
    ∧ ∀ t ∈ k.reserved, ∃ token' after', token'.kind = t ∧ D (before ++ token' :: after')

theorem Naming.StandsIn.append {k : Naming} {x : Text} {D D' : List Token → Prop}
    {ts : List Token} (h : k.StandsIn x D ts) (us vs : List Token)
    (hD : ∀ ts', D ts' → D' (us ++ (ts' ++ vs))) : k.StandsIn x D' (us ++ (ts ++ vs)) := by
  obtain ⟨before, token, after, rfl, hkind, htext, hreserved⟩ := h
  refine ⟨us ++ before, token, after ++ vs, by simp, hkind, htext, fun t ht => ?_⟩
  obtain ⟨token', after', hkind', hD'⟩ := hreserved t ht
  refine ⟨token', after' ++ vs, hkind', ?_⟩
  have happend := hD _ hD'
  rwa [List.append_assoc, List.cons_append, ← List.append_assoc] at happend

theorem Meaning.exists_name {s : Symbol} {tree : Tree s} {m : Meaning s}
    (hm : tree.meaning? = .ok m) {x : Text} (hx : x ∈ words s m) :
    ∃ token, tree.tokens = [token] ∧ token.kind = .name ∧ token.text = x := by
  cases s with
  | nonterminal n => cases hx
  | terminal t =>
    obtain ⟨text, offset, position, rfl⟩ := tree.exists_leaf
    cases t with
    | name =>
      cases hm
      exact ⟨_, rfl, rfl, (List.mem_singleton.1 hx).symm⟩
    | _ => cases hx

theorem Forest.exists_name {ss : List Symbol} {forest : Forest ss} {parts : Parts Meaning ss}
    (hparts : forest.meaning? = .ok parts) {x : Text} (hx : x ∈ parts.words ss) :
    ∃ before token after, forest.tokens = before ++ token :: after ∧ token.kind = .name
      ∧ token.text = x := by
  induction ss with
  | nil => cases hx
  | cons s ss ih =>
    cases forest with
    | cons tree rest =>
      obtain ⟨hm, hrest⟩ := Forest.meaning?_cons_eq_ok.1 hparts
      rcases List.mem_append.1 hx with hx | hx
      · obtain ⟨token, htokens, hname⟩ := Meaning.exists_name hm hx
        exact ⟨[], token, rest.tokens, by rw [Forest.tokens, htokens]; rfl, hname⟩
      · obtain ⟨before, token, after, htokens, hname⟩ := ih hrest hx
        refine ⟨tree.tokens ++ before, token, after, ?_, hname⟩
        rw [Forest.tokens, htokens, List.append_assoc]

/-- `true` and `false` are atoms as variables are, and `let rec` starts a definition as `let`
does. -/
theorem Tree.standsIn_of_rule {p : Production} {children : Forest p.rhs}
    {parts : Parts Meaning p.rhs} (hparts : children.meaning? = .ok parts) {k : Naming}
    (hk : p.naming? = some k) {x : Text} (hx : x ∈ parts.words p.rhs) :
    k.StandsIn x (Derives (.nonterminal p.lhs)) (node p children).tokens := by
  have hfree : k.reserved = [] →
      k.StandsIn x (Derives (.nonterminal p.lhs)) (node p children).tokens := by
    intro hreserved
    obtain ⟨before, token, after, htokens, hkind, htext⟩ := Forest.exists_name hparts hx
    exact ⟨before, token, after, htokens, hkind, htext, by rw [hreserved]; exact nofun⟩
  cases p with
  | var =>
    cases hk
    rcases children with _ | ⟨name, _ | _⟩
    obtain ⟨token, htokens, hkind, htext⟩ :=
      Meaning.exists_name (Forest.meaning?_cons_eq_ok.1 hparts).1 hx
    refine ⟨[], token, [], ?_, hkind, htext, ?_⟩
    · change name.tokens ++ [] = _
      rw [htokens]
      rfl
    · exact List.forall_mem_cons.2
        ⟨⟨.ofKind .kwTrue, [], rfl, node .trueLit (.cons (.leaf (.ofKind .kwTrue)) .nil), rfl⟩,
        List.forall_mem_singleton.2
          ⟨.ofKind .kwFalse, [], rfl, node .falseLit (.cons (.leaf (.ofKind .kwFalse)) .nil), rfl⟩⟩
  | define =>
    cases hk
    rcases children with _ | ⟨word, _ | ⟨name, rest⟩⟩
    obtain ⟨token, htokens, hkind, htext⟩ := Meaning.exists_name
      (Forest.meaning?_cons_eq_ok.1 (Forest.meaning?_cons_eq_ok.1 hparts).2).1 hx
    refine ⟨word.tokens, token, rest.tokens, ?_, hkind, htext, ?_⟩
    · change word.tokens ++ (name.tokens ++ rest.tokens) = _
      rw [htokens]
      rfl
    · exact List.forall_mem_singleton.2 ⟨.ofKind .kwRec, name.tokens ++ rest.tokens, rfl,
        node .defineRec (.cons word (.cons (.leaf (.ofKind .kwRec)) (.cons name rest))), rfl⟩
  | func | defineRec | letIn | tagPattern | anyPattern =>
    cases hk
    exact hfree rfl
  | _ => cases hk

/-- Each name in what a tree means is one of its tokens. -/
theorem Tree.standsIn_of_namings {s : Symbol} {tree : Tree s} {m : Meaning s}
    (hm : tree.meaning? = .ok m) :
    ∀ o ∈ Meaning.namings s m, o.1.StandsIn o.2 (Derives s) tree.tokens := by
  refine meaning?_induction
    (P := fun s tree m =>
      ∀ o ∈ Meaning.namings s m, o.1.StandsIn o.2 (Derives s) tree.tokens)
    (Q := fun ss forest ms =>
      ∀ o ∈ ms.namings ss, o.1.StandsIn o.2 (DerivesAll ss) forest.tokens)
    ?leaf ?node ?nil ?cons hm
  case leaf => exact fun _ _ _ _ ho => nomatch ho
  case node =>
    intro p children parts hparts ih o ho
    rcases List.mem_append.1 ((Meaning.ofRule_namings p parts).subset ho) with ho | ho
    · cases hk : p.naming? with
      | none =>
        rw [hk] at ho
        cases ho
      | some k =>
        rw [hk] at ho
        obtain ⟨x, hx, rfl⟩ := List.mem_map.1 ho
        exact standsIn_of_rule hparts hk hx
    · obtain ⟨before, token, after, htokens, hkind, htext, hreserved⟩ := ih o ho
      refine ⟨before, token, after, htokens, hkind, htext, fun t ht => ?_⟩
      obtain ⟨token', after', hkind', forest, hforest⟩ := hreserved t ht
      exact ⟨token', after', hkind', node p forest, hforest⟩
  case nil => exact fun _ ho => nomatch ho
  case cons =>
    intro s ss tree rest m ms ihTree ihRest o ho
    rcases List.mem_append.1 ho with ho | ho
    · refine (ihTree o ho).append [] rest.tokens fun ts hts => ?_
      obtain ⟨tree', rfl⟩ := hts
      exact ⟨.cons tree' rest, rfl⟩
    · rw [Forest.tokens, ← List.append_nil rest.tokens]
      refine (ihRest o ho).append tree.tokens [] fun ts hts => ?_
      obtain ⟨rest', rfl⟩ := hts
      exact ⟨.cons tree rest', by rw [Forest.tokens, List.append_nil]⟩

/-! ### Where a keyword could stand -/

theorem Terminal.ctorIdx_of_keyword {t : Terminal} {w : Text} (h : t.keyword? = some w) :
    t.ctorIdx < name.ctorIdx := by
  cases t <;> cases h <;> decide

theorem Cursor.Reads.split {c c' : Cursor} {q q' : Nat} {ts us : List Token} {ps rs : List Nat}
    (h : c.Reads q (ts ++ us) (ps ++ rs) c' q') (hlength : ts.length = ps.length) :
    ∃ d, c.Reads q ts ps d (ps.getLastD q) ∧ d.Reads (ps.getLastD q) us rs c' q' := by
  induction ts generalizing c q ps with
  | nil =>
    rw [List.length_eq_zero_iff.1 hlength.symm] at h ⊢
    exact ⟨c, .refl, h⟩
  | cons token ts ih =>
    cases ps with
    | nil => cases hlength
    | cons p ps =>
      cases h with
      | token htoken hreads =>
        obtain ⟨d, hfront, hback⟩ := ih hreads (Nat.succ.inj hlength)
        rw [List.getLastD_cons]
        exact ⟨d, .token htoken hfront, hback⟩

namespace Tree

/-- A name is not spelled like a keyword that could stand in its place. -/
theorem keyword?_ne_of_name {source : Text} {tree tree' : Tree (.nonterminal .program)}
    (h : Tree.ofSource source = .ok tree) {before after after' : List Token} {token token' : Token}
    (htokens : tree.tokens = before ++ token :: after) (hname : token.kind = .name)
    (htokens' : tree'.tokens = before ++ token' :: after') :
    token'.kind.keyword? ≠ some token.text := by
  intro hkeyword
  obtain ⟨last, hlast, -⟩ := tree'.feedAll?
  rw [htokens'] at hlast
  obtain ⟨stack, hstack, -⟩ := Stack.exists_of_feedAll?_append hlast
  have hlength := (Stack.length_states hstack).symm
  have hadmits := tree'.admits_tokens
  rw [← tree'.states_tokens, htokens', Stack.states_append hstack] at hadmits
  obtain ⟨c, q, hreads, -⟩ := ofSource_eq_ok_iff.1 h
  rw [htokens, Stack.states_append hstack] at hreads
  obtain ⟨d, -, hback⟩ := hreads.split hlength
  generalize stack.states (token :: after) = rs at hback
  have hbehind := hadmits.of_append hlength
  generalize stack.states (token' :: after') = rs' at hbehind
  cases hbehind with
  | cons haccepts _ _ =>
    cases hback with
    | token htoken _ =>
      obtain ⟨-, hlexeme, -, -, -, hfirst⟩ := Cursor.token?_eq_some htoken
      rw [hname] at hlexeme hfirst
      have hnone := hfirst _ (Terminal.ctorIdx_of_keyword hkeyword) haccepts
      rw [Terminal.lexeme?_of_keyword hkeyword,
        show Lexeme.word? d.skip.rest = _ from hlexeme, Option.filter_some,
        if_pos (decide_eq_true rfl)] at hnone
      cases hnone

end Tree

/-! ### Words that are names -/

/-- A word is a name where the keyword that is spelled like it, if there is one, cannot stand. -/
theorem Token.standsAt_name {w : Text} {q : Nat} (hw : Lexeme.word? w = some (w, []))
    (hfree : ∀ t : Terminal, t.keyword? = some w → (state q).accepts t = false) :
    (⟨.name, w, 0, Position.start⟩ : Token).StandsAt q := by
  refine ⟨hw, fun t hlt ht => Terminal.lexeme?_of_word hw hlt fun hkeyword => ?_⟩
  rw [hfree t hkeyword] at ht
  cases ht

namespace Tree

/-- A derivation with one name in it that may be spelled like a keyword. -/
theorem exists_ofSource_name {tree : Tree (.nonterminal .program)} {ts us : List Token} {w : Text}
    {q : Nat} (htokens : tree.tokens = ts ++ ⟨.name, w, 0, Position.start⟩ :: us)
    (hts : ∀ t ∈ ts, t.kind.Spells t.text) (hus : ∀ t ∈ us, t.kind.Spells t.text)
    (hshifts : (0 :: tree.shifts 0)[ts.length]? = some q)
    (hw : Lexeme.word? w = some (w, []))
    (hfree : ∀ t : Terminal, t.keyword? = some w → (state q).accepts t = false) :
    ∃ tree', Tree.ofSource (Text.setApart (tree.tokens.map (·.text))) = .ok tree'
      ∧ tree'.unplaced = tree.unplaced := by
  refine exists_ofSource_standsAt ?_
  obtain ⟨hlt, hq⟩ := List.getElem?_eq_some_iff.1 hshifts
  have hlength : ts.length = ((0 :: tree.shifts 0).take ts.length).length := by
    rw [List.length_take, Nat.min_eq_left hlt.le]
  rw [htokens, ← List.take_append_drop ts.length (0 :: tree.shifts 0),
    List.drop_eq_getElem_cons hlt, hq, List.zip_append hlength, List.zip_cons_cons]
  refine List.forall_mem_append.2 ⟨fun x hx => ?_, List.forall_mem_cons.2 ⟨?_, fun x hx => ?_⟩⟩
  · exact (hts x.1 (List.of_mem_zip hx).1).standsAt x.2
  · exact Token.standsAt_name hw hfree
  · exact (hus x.1 (List.of_mem_zip hx).1).standsAt x.2

/-! ### A program for each kind of name -/

section

variable {ss : List Symbol}

/-- A rule with its parts, as the phrase `n` that it is for. -/
def rule (n : Nonterminal) (p : Production) (forest : Forest ss) (h : p.lhs = n ∧ p.rhs = ss) :
    Tree (.nonterminal n) :=
  h.1 ▸ .node p (h.2 ▸ forest)

variable {n : Nonterminal} {p : Production} (forest : Forest ss) (h : p.lhs = n ∧ p.rhs = ss)

theorem tokens_rule : (rule n p forest h).tokens = forest.tokens := by
  obtain ⟨rfl, rfl⟩ := h
  rfl

theorem shifts_rule (q : Nat) : (rule n p forest h).shifts q = forest.shifts q := by
  obtain ⟨rfl, rfl⟩ := h
  rfl

end

def ofName (w : Text) : Tree (.terminal .name) := .leaf ⟨.name, w, 0, Position.start⟩

def sample (t : Terminal) : Tree (.terminal t) := .leaf (.ofKind t)

/-- A variable. -/
def reference (w : Text) : Tree (.nonterminal .simple) :=
  rule .simple .simpleAtom (.cons (rule .atom .var (.cons (ofName w) .nil) (by decide)) .nil)
    (by decide)

def ofCall (tree : Tree (.nonterminal .call)) : Tree (.nonterminal .unary) :=
  rule .unary .unaryCall (.cons tree .nil) (by decide)

def ofSimple (tree : Tree (.nonterminal .simple)) : Tree (.nonterminal .call) :=
  rule .call .callSimple (.cons tree .nil) (by decide)

def atom (tree : Tree (.nonterminal .atom)) : Tree (.nonterminal .unary) :=
  ofCall (ofSimple (rule .simple .simpleAtom (.cons tree .nil) (by decide)))

def zero : Tree (.nonterminal .unary) :=
  atom (rule .atom .number (.cons (sample .number) .nil) (by decide))

def sumOf (tree : Tree (.nonterminal .unary)) : Tree (.nonterminal .sum) :=
  rule .sum .sumProduct (.cons (rule .product .productUnary (.cons tree .nil) (by decide)) .nil)
    (by decide)

def assignOf (tree : Tree (.nonterminal .unary)) : Tree (.nonterminal .assign) :=
  rule .assign .assignCompare (.cons (rule .compare .compareConcat (.cons
    (rule .concat .concatSum (.cons (sumOf tree) .nil) (by decide)) .nil) (by decide)) .nil)
    (by decide)

def exprOf (tree : Tree (.nonterminal .unary)) : Tree (.nonterminal .expr) :=
  rule .expr .exprAssign (.cons (assignOf tree) .nil) (by decide)

def programOf (tree : Tree (.nonterminal .expr)) : Tree (.nonterminal .program) :=
  single (rule .statement .statementExpr (.cons tree .nil) (by decide))

/-- The field `x = 0`. -/
def fieldZero : Tree (.nonterminal .field) :=
  rule .field .field (.cons (sample .name) (.cons (sample .equals) (.cons (exprOf zero) .nil)))
    (by decide)

def letZero (w : Text) : Tree (.nonterminal .expr) :=
  rule .expr .letIn (.cons (sample .kwLet) (.cons (ofName w) (.cons (sample .equals)
    (.cons (exprOf zero) (.cons (sample .kwIn) (.cons (exprOf zero) .nil)))))) (by decide)

def patternOf (w : Text) : Bool → Tree (.nonterminal .pattern)
  | false => rule .pattern .anyPattern (.cons (ofName w) .nil) (by decide)
  | true => rule .pattern .tagPattern (.cons (sample .tag) (.cons (ofName w) .nil)) (by decide)

def armZero (w : Text) (tagged : Bool) : Tree (.nonterminal .arm) :=
  rule .arm .arm (.cons (sample .bar) (.cons (patternOf w tagged) (.cons (sample .arrow)
    (.cons (assignOf zero) .nil)))) (by decide)

section

variable (t : Terminal) (w : Text) (tree : Tree (.nonterminal .unary)) (q : Nat)

@[simp] theorem tokens_ofName : (ofName w).tokens = [⟨.name, w, 0, Position.start⟩] := rfl

@[simp] theorem shifts_ofName : (ofName w).shifts q = [next q (.terminal .name)] := rfl

@[simp] theorem tokens_sample : (sample t).tokens = [.ofKind t] := rfl

@[simp] theorem shifts_sample : (sample t).shifts q = [next q (.terminal t)] := rfl

@[simp] theorem tokens_reference : (reference w).tokens = [⟨.name, w, 0, Position.start⟩] := by
  simp only [reference, tokens_rule, tokens_ofName, Forest.tokens, List.append_nil]

@[simp] theorem shifts_reference : (reference w).shifts q = [next q (.terminal .name)] := by
  simp only [reference, shifts_rule, shifts_ofName, Forest.shifts, List.append_nil]

@[simp] theorem tokens_atom (tree : Tree (.nonterminal .atom)) :
    (atom tree).tokens = tree.tokens := by
  simp only [atom, ofSimple, ofCall, tokens_rule, Forest.tokens, List.append_nil]

@[simp] theorem shifts_atom (tree : Tree (.nonterminal .atom)) :
    (atom tree).shifts q = tree.shifts q := by
  simp only [atom, ofSimple, ofCall, shifts_rule, Forest.shifts, List.append_nil]

@[simp] theorem tokens_zero : zero.tokens = [.ofKind .number] := by
  simp only [zero, tokens_atom, tokens_rule, tokens_sample, Forest.tokens, List.append_nil]

@[simp] theorem shifts_zero : zero.shifts q = [next q (.terminal .number)] := by
  simp only [zero, shifts_atom, shifts_rule, shifts_sample, Forest.shifts, List.append_nil]

@[simp] theorem tokens_assignOf : (assignOf tree).tokens = tree.tokens := by
  simp only [assignOf, sumOf, tokens_rule, Forest.tokens, List.append_nil]

@[simp] theorem shifts_assignOf : (assignOf tree).shifts q = tree.shifts q := by
  simp only [assignOf, sumOf, shifts_rule, Forest.shifts, List.append_nil]

@[simp] theorem tokens_exprOf : (exprOf tree).tokens = tree.tokens := by
  simp only [exprOf, tokens_rule, tokens_assignOf, Forest.tokens, List.append_nil]

@[simp] theorem shifts_exprOf : (exprOf tree).shifts q = tree.shifts q := by
  simp only [exprOf, shifts_rule, shifts_assignOf, Forest.shifts, List.append_nil]

@[simp] theorem tokens_programOf (tree : Tree (.nonterminal .expr)) :
    (programOf tree).tokens = tree.tokens := by
  simp only [programOf, tokens_single, tokens_rule, Forest.tokens, List.append_nil]

@[simp] theorem shifts_programOf (tree : Tree (.nonterminal .expr)) :
    (programOf tree).shifts 0 = tree.shifts 0 := by
  simp only [programOf, shifts_single, shifts_rule, Forest.shifts, List.append_nil]

end

end Tree

namespace Naming

open Toplevel.Tree

/-- A program in which `w` is a name of some kind: `\x7bw | x = 0\x7d`, `fun w -> 0`,
`let w = 0`, `let rec w = 0`, `(let w = 0 in 0)`, or a `match` with an arm for `w`. -/
def program (w : Text) : Naming → Tree (.nonterminal .program)
  | var => programOf (exprOf (atom (rule .atom .updateOne (.cons (sample .leftBrace)
      (.cons (reference w) (.cons (sample .bar) (.cons fieldZero
        (.cons (sample .rightBrace) .nil))))) (by decide))))
  | parameter => programOf (rule .expr .func (.cons (sample .kwFun) (.cons (ofName w)
      (.cons (sample .arrow) (.cons (exprOf zero) .nil)))) (by decide))
  | definition false => single (rule .statement .define (.cons (sample .kwLet)
      (.cons (ofName w) (.cons (sample .equals) (.cons (exprOf zero) .nil)))) (by decide))
  | definition true => single (rule .statement .defineRec (.cons (sample .kwLet)
      (.cons (sample .kwRec) (.cons (ofName w) (.cons (sample .equals)
        (.cons (exprOf zero) .nil))))) (by decide))
  | binding => programOf (exprOf (atom (rule .atom .parens (.cons (sample .leftParen)
      (.cons (letZero w) (.cons (sample .rightParen) .nil))) (by decide))))
  | arm tagged => programOf (rule .expr .matchWith (.cons (sample .kwMatch) (.cons (exprOf zero)
      (.cons (sample .kwWith) (.cons (rule .arms .armsOne (.cons (armZero w tagged) .nil)
        (by decide)) .nil)))) (by decide))

/-- What stands in front of the name there. -/
def before : Naming → List Terminal
  | var => [.leftBrace]
  | parameter => [.kwFun]
  | definition false => [.kwLet]
  | definition true => [.kwLet, .kwRec]
  | binding => [.leftParen, .kwLet]
  | arm false => [.kwMatch, .number, .kwWith, .bar]
  | arm true => [.kwMatch, .number, .kwWith, .bar, .tag]

/-- What stands behind it. -/
def after : Naming → List Terminal
  | var => [.bar, .name, .equals, .number, .rightBrace]
  | parameter => [.arrow, .number]
  | definition _ => [.equals, .number]
  | binding => [.equals, .number, .kwIn, .number, .rightParen]
  | arm _ => [.arrow, .number]

/-- What has been read in front of it. -/
def path : Naming → List Symbol
  | arm tagged =>
    [.terminal .kwMatch, .nonterminal .expr, .terminal .kwWith, .terminal .bar]
      ++ if tagged then [.terminal .tag] else []
  | k => k.before.map .terminal

theorem path_mem_wordPlaces (k : Naming) : (k.path, k.reserved) ∈ wordPlaces := by
  cases k with
  | definition r => cases r <;> decide
  | arm tagged => cases tagged <;> decide
  | _ => decide

theorem tokens_program (w : Text) (k : Naming) : (k.program w).tokens
    = k.before.map .ofKind ++ ⟨.name, w, 0, Position.start⟩ :: k.after.map .ofKind := by
  rcases k with _ | _ | (_ | _) | _ | (_ | _) <;>
  simp [program, before, after, fieldZero, letZero, armZero, patternOf, tokens_single, tokens_rule,
    Forest.tokens]

theorem shifts_program (w : Text) (k : Naming) :
    (0 :: (k.program w).shifts 0)[k.before.length]? = some (k.path.foldl next 0) := by
  -- a proof by unfolding would have the states computed from the grammar
  rcases k with _ | _ | (_ | _) | _ | (_ | _) <;>
  simp -implicitDefEqProofs [program, before, path, fieldZero, letZero, armZero, patternOf,
    shifts_single, shifts_rule, Forest.shifts]

theorem meaning?_program (w : Text) (k : Naming) :
    ∃ p : Program, (k.program w).meaning? = .ok p ∧ (k, w) ∈ p.namings := by
  cases k with
  | definition r => cases r <;> exact ⟨_, rfl, List.mem_cons_self⟩
  | arm tagged => cases tagged <;> exact ⟨_, rfl, List.mem_cons_self⟩
  | _ => exact ⟨_, rfl, List.mem_cons_self⟩

/-- Any word is a name but for the keywords that are reserved for such a name. -/
theorem exists_parse {k : Naming} {w : Text} (hw : Lexeme.word? w = some (w, []))
    (hfree : ∀ t ∈ k.reserved, t.keyword? ≠ some w) :
    ∃ source p, parse source = .ok p ∧ (k, w) ∈ p.namings := by
  have hsamples : ∀ ts : List Terminal, ∀ t ∈ ts.map Token.ofKind, t.kind.Spells t.text := by
    intro ts t ht
    obtain ⟨t, -, rfl⟩ := List.mem_map.1 ht
    exact t.spells_sample
  obtain ⟨tree, hsource, hplaces⟩ := exists_ofSource_name (tokens_program w k) (hsamples _)
    (hsamples _) (by rw [List.length_map]; exact shifts_program w k) hw fun t ht =>
      not_accepts_of_wordPlace k.path_mem_wordPlaces (by rw [ht]; exact Option.some_ne_none w)
        fun hmem => hfree t hmem ht
  obtain ⟨p, hp, hmem⟩ := meaning?_program w k
  obtain ⟨p', hparse, hunplaced⟩ := parse_of_unplaced hsource hplaces hp
  refine ⟨_, p', hparse, ?_⟩
  rwa [← p'.namings_unplaced, hunplaced, p.namings_unplaced]

/-- A name is a word, and none of the keywords that are reserved for such a name. -/
theorem of_parse {source : Text} {p : Program} (h : parse source = .ok p) {k : Naming} {x : Text}
    (hmem : (k, x) ∈ p.namings) :
    Lexeme.word? x = some (x, []) ∧ ∀ t ∈ k.reserved, t.keyword? ≠ some x := by
  obtain ⟨tree, hsource, hp⟩ := exists_of_parse h
  obtain ⟨before, token, after, htokens, hkind, rfl, hreserved⟩ :=
    standsIn_of_namings hp (k, x) hmem
  constructor
  · obtain ⟨c, q, hreads, -⟩ := ofSource_eq_ok_iff.1 hsource
    have hmem : token ∈ tree.tokens := by
      rw [htokens]
      exact List.mem_append_right _ List.mem_cons_self
    obtain ⟨y, hy⟩ := hreads.isRead token hmem
    rw [hkind] at hy
    exact Lexeme.word?_of_append (r := []) hy
  · intro t ht
    obtain ⟨token', after', rfl, tree', htokens'⟩ := hreserved t ht
    exact keyword?_ne_of_name hsource htokens hkind htokens'

end Naming

/-! ### Words between names -/

namespace Tree

/-- Three names in a row. -/
def applied (f w x : Text) : Tree (.nonterminal .program) :=
  programOf (exprOf (ofCall (rule .call .apply (.cons (rule .call .apply
    (.cons (ofSimple (reference f)) (.cons (reference w) .nil)) (by decide))
    (.cons (reference x) .nil)) (by decide))))

variable (f w x : Text)

theorem tokens_applied : (applied f w x).tokens
    = [⟨.name, f, 0, Position.start⟩] ++ ⟨.name, w, 0, Position.start⟩
      :: [⟨.name, x, 0, Position.start⟩] := by
  simp [applied, ofCall, ofSimple, tokens_rule, Forest.tokens]

theorem shifts_applied :
    (0 :: (applied f w x).shifts 0)[1]? = some ([Symbol.terminal .name].foldl next 0) := by
  simp -implicitDefEqProofs [applied, ofCall, ofSimple, shifts_rule, Forest.shifts]

end Tree

/-- The keywords that are read as such behind a variable. -/
def Terminal.behindVariable : List Terminal := [.kwIn, .kwThen, .kwElse, .kwWith, .kwTrue, .kwFalse]

theorem Tree.exists_ofSource_applied {f w x : Text} (hf : Terminal.name.Spells f)
    (hx : Terminal.name.Spells x) (hw : Lexeme.word? w = some (w, []))
    (hfree : ∀ t ∈ Terminal.behindVariable, t.keyword? ≠ some w) :
    ∃ tree, Tree.ofSource (Text.setApart [f, w, x]) = .ok tree
      ∧ tree.unplaced = (applied f w x).unplaced := by
  have hplace : ([.terminal .name], Terminal.behindVariable) ∈ wordPlaces := by decide
  have hsource := exists_ofSource_name (tokens_applied f w x) (List.forall_mem_singleton.2 hf)
    (List.forall_mem_singleton.2 hx) (shifts_applied f w x) hw fun t ht =>
      not_accepts_of_wordPlace hplace (by rw [ht]; exact Option.some_ne_none w)
        fun hmem => hfree t hmem ht
  rwa [tokens_applied] at hsource

theorem parse_applied {f w x : Text} (hf : Terminal.name.Spells f) (hx : Terminal.name.Spells x)
    (hw : Lexeme.word? w = some (w, []))
    (hfree : ∀ t ∈ Terminal.behindVariable, t.keyword? ≠ some w) :
    ∃ p, parse (Text.setApart [f, w, x]) = .ok p ∧ p.unplaced
      = ⟨[.expr (.apply (.apply (.var f .start) (.var w .start)) (.var x .start))]⟩ := by
  obtain ⟨tree, hsource, hplaces⟩ := Tree.exists_ofSource_applied hf hx hw hfree
  have hmeaning : (Tree.applied f w x).meaning? = .ok (⟨[.expr (.apply (.apply (.var f .start)
    (.var w .start)) (.var x .start))]⟩ : Program) := rfl
  exact parse_of_unplaced hsource hplaces hmeaning

/-- The names of accepted sources are the words, but for those keywords that are reserved for the
kind of name; a name is never spelled like a keyword with which another program goes on behind the
same tokens; and of three words in a row the one between two names is read as a variable too, unless
it is a keyword that is looked for behind a variable. -/
theorem parse_names :
    (∀ (k : Naming) (x : Text), (∃ source p, parse source = .ok p ∧ (k, x) ∈ p.namings)
        ↔ Lexeme.word? x = some (x, []) ∧ ∀ t ∈ k.reserved, t.keyword? ≠ some x)
      ∧ (∀ (source : Text) (tree tree' : Tree (.nonterminal .program))
          (before after after' : List Token) (token token' : Token),
        Tree.ofSource source = .ok tree → tree.tokens = before ++ token :: after →
        token.kind = .name → tree'.tokens = before ++ token' :: after' →
        token'.kind.keyword? ≠ some token.text)
      ∧ ∀ f w x : Text, Terminal.name.Spells f → Terminal.name.Spells x →
        Lexeme.word? w = some (w, []) → (∀ t ∈ Terminal.behindVariable, t.keyword? ≠ some w) →
        ∃ p, parse (Text.setApart [f, w, x]) = .ok p ∧ p.unplaced
          = ⟨[.expr (.apply (.apply (.var f .start) (.var w .start)) (.var x .start))]⟩ := by
  refine ⟨fun k x => ⟨?_, fun ⟨hx, hfree⟩ => Naming.exists_parse hx hfree⟩, ?_, ?_⟩
  · rintro ⟨source, p, hparse, hmem⟩
    exact Naming.of_parse hparse hmem
  · intro source tree tree' before after after' token token' hsource htokens hname htokens'
    exact Tree.keyword?_ne_of_name hsource htokens hname htokens'
  · exact fun f w x => parse_applied

theorem parse_names_ref :
    (∃ source p, parse source = .ok p ∧ (Naming.parameter, ("fun" : Text)) ∈ p.namings)
      ∧ (∃ tree token after, Tree.ofSource "f ref x" = .ok tree ∧ tree.tokens = token :: after
        ∧ token.kind = .name ∧ token.text = "f" ∧ Terminal.kwTrue.keyword? ≠ some token.text)
      ∧ ∃ p, parse "f ref x" = .ok p ∧ p.unplaced
        = ⟨[.expr (.apply (.apply (.var "f" .start) (.var "ref" .start)) (.var "x" .start))]⟩ := by
  have hf : Terminal.name.Spells "f" := by decide
  have hx : Terminal.name.Spells "x" := by decide
  have hfree : ∀ t ∈ Terminal.behindVariable, t.keyword? ≠ some ("ref" : Text) := by decide
  refine ⟨(parse_names.1 .parameter "fun").2 ⟨by decide, by decide⟩, ?_,
    parse_names.2.2 "f" "ref" "x" hf hx (by decide) hfree⟩
  obtain ⟨tree, hsource, hplaces⟩ := Tree.exists_ofSource_applied hf hx (by decide) hfree
  have htokens := congrArg Tree.tokens hplaces
  rw [Tree.tokens_unplaced, Tree.tokens_unplaced, Tree.tokens_applied] at htokens
  obtain ⟨token, after, htoken, hunplaced, -⟩ := List.map_eq_cons_iff.1 htokens
  have hkind : token.kind = .name := (Token.mk.inj hunplaced).1
  refine ⟨tree, token, after, hsource, htoken, hkind, (Token.mk.inj hunplaced).2.1, ?_⟩
  exact parse_names.2.1 _ tree
    (.programOf (.exprOf (.atom (.rule .atom .trueLit (.cons (.sample .kwTrue) .nil) (by decide)))))
    [] after [] token (.ofKind .kwTrue) hsource htoken hkind
    (by simp [Tree.tokens_rule, Forest.tokens])

/-- Keywords are not reserved everywhere. -/
theorem parse_ref_as_name :
    ¬∀ (source : Text) (p : Program), parse source = .ok p → ∀ x ∈ p.namings,
      ∀ t : Terminal, t.keyword? ≠ some x.2 := by
  intro h
  have hf : Terminal.name.Spells "f" := by decide
  have hx : Terminal.name.Spells "x" := by decide
  obtain ⟨p, hp, hunplaced⟩ := parse_applied hf hx (w := "ref") (by decide) (by decide)
  have hmem : (Naming.var, ("ref" : Text)) ∈ p.namings := by
    rw [← p.namings_unplaced, hunplaced]
    decide
  exact h "f ref x" p hp _ hmem .kwRef rfl

end Toplevel
