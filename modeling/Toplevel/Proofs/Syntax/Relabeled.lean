import Toplevel.Proofs.Syntax.Cut
import Toplevel.Proofs.Syntax.Grammar
import Toplevel.Proofs.Syntax.Rewriting
import Toplevel.Proofs.Syntax.Statements

/-!
# Programs with other names

If the names of a program that are not names of fields are replaced by other names, anywhere and in
any way, then the result is a program too: it has a source (`exists_parse_of_relabels`). For a tree
means it that has other names among its tokens and is the same tree otherwise
(`Tree.exists_relabeled`), and the automaton takes tokens of the same kinds through the same states.
-/

namespace Toplevel

/-- A name that stays as it is or is replaced by one of the names `W`. -/
def Text.Relabels (W : Text → Prop) (x y : Text) : Prop := y = x ∨ W y

theorem Text.Relabels.refl (W : Text → Prop) (x : Text) : x.Relabels W x := .inl rfl

section

variable (W : Text → Prop)

mutual

/-- The second expression is the first with some names replaced by names `W`. -/
inductive Expr.Relabels : Expr → Expr → Prop
  | number (x : Float) : Expr.Relabels (.number x) (.number x)
  | string (s : Text) : Expr.Relabels (.string s) (.string s)
  | bool (b : Bool) : Expr.Relabels (.bool b) (.bool b)
  | var {x y : Text} (hx : x.Relabels W y) (p : Position) : Expr.Relabels (.var x p) (.var y p)
  | func {x y : Text} {b c : Expr} (hx : x.Relabels W y) (hb : b.Relabels c) :
    Expr.Relabels (.func x b) (.func y c)
  | apply {f g a b : Expr} (hf : f.Relabels g) (ha : a.Relabels b) :
    Expr.Relabels (.apply f a) (.apply g b)
  | letIn {x y : Text} {v w b c : Expr} (hx : x.Relabels W y) (hv : v.Relabels w)
    (hb : b.Relabels c) : Expr.Relabels (.letIn x v b) (.letIn y w c)
  | ifElse {c y n c' y' n' : Expr} (hc : c.Relabels c') (hy : y.Relabels y')
    (hn : n.Relabels n') : Expr.Relabels (.ifElse c y n) (.ifElse c' y' n')
  | matchWith {s t : Expr} {as bs : Arms} (hs : s.Relabels t) (has : as.Relabels bs) :
    Expr.Relabels (.matchWith s as) (.matchWith t bs)
  | binary (op : BinaryOp) (p : Position) {l r l' r' : Expr} (hl : l.Relabels l')
    (hr : r.Relabels r') : Expr.Relabels (.binary op p l r) (.binary op p l' r')
  | neg {a b : Expr} (ha : a.Relabels b) : Expr.Relabels (.neg a) (.neg b)
  | deref {a b : Expr} (ha : a.Relabels b) : Expr.Relabels (.deref a) (.deref b)
  | assign {t v t' v' : Expr} (ht : t.Relabels t') (hv : v.Relabels v') :
    Expr.Relabels (.assign t v) (.assign t' v')
  | record {fs gs : Fields} (hfs : fs.Relabels gs) : Expr.Relabels (.record fs) (.record gs)
  | update {b c : Expr} {fs gs : Fields} (hb : b.Relabels c) (hfs : fs.Relabels gs) :
    Expr.Relabels (.update b fs) (.update c gs)
  | field {b c : Expr} (hb : b.Relabels c) (x : Text) :
    Expr.Relabels (.field b x) (.field c x)
  | tagged (t : Text) {a b : Expr} (ha : a.Relabels b) :
    Expr.Relabels (.tagged t a) (.tagged t b)
  | newRef {a b : Expr} (ha : a.Relabels b) : Expr.Relabels (.newRef a) (.newRef b)

inductive Arms.Relabels : Arms → Arms → Prop
  | nil : Arms.Relabels .nil .nil
  | cons (tag : Option Text) {x y : Text} {b c : Expr} {as bs : Arms} (hx : x.Relabels W y)
    (hb : b.Relabels c) (has : as.Relabels bs) :
    Arms.Relabels (.cons tag x b as) (.cons tag y c bs)

inductive Fields.Relabels : Fields → Fields → Prop
  | nil : Fields.Relabels .nil .nil
  | cons (x : Text) {v w : Expr} {fs gs : Fields} (hv : v.Relabels w) (hfs : fs.Relabels gs) :
    Fields.Relabels (.cons x v fs) (.cons x w gs)

end

/-- Only names that are bound within the statement are replaced. -/
inductive Statement.Relabels : Statement → Statement → Prop
  | define (x : Text) {v w : Expr} (hv : v.Relabels W w) (recursive : Bool) :
    Relabels (.define x v recursive) (.define x w recursive)
  | expr {e e' : Expr} (he : e.Relabels W e') : Relabels (.expr e) (.expr e')

def Program.Relabels (p q : Program) : Prop :=
  List.Forall₂ (Statement.Relabels W) p.statements q.statements

end

section

variable {W : Text → Prop}

mutual

theorem Expr.relabels_self : ∀ e : Expr, e.Relabels W e
  | .number x => .number x
  | .string s => .string s
  | .bool b => .bool b
  | .var x p => .var (.refl W x) p
  | .func x b => .func (.refl W x) b.relabels_self
  | .apply f a => .apply f.relabels_self a.relabels_self
  | .letIn x v b => .letIn (.refl W x) v.relabels_self b.relabels_self
  | .ifElse c y n => .ifElse c.relabels_self y.relabels_self n.relabels_self
  | .matchWith s as => .matchWith s.relabels_self as.relabels_self
  | .binary op p l r => .binary op p l.relabels_self r.relabels_self
  | .neg a => .neg a.relabels_self
  | .deref a => .deref a.relabels_self
  | .assign t v => .assign t.relabels_self v.relabels_self
  | .record fs => .record fs.relabels_self
  | .update b fs => .update b.relabels_self fs.relabels_self
  | .field b x => .field b.relabels_self x
  | .tagged t a => .tagged t a.relabels_self
  | .newRef a => .newRef a.relabels_self

theorem Arms.relabels_self : ∀ as : Arms, as.Relabels W as
  | .nil => .nil
  | .cons tag x b rest => .cons tag (.refl W x) b.relabels_self rest.relabels_self

theorem Fields.relabels_self : ∀ fs : Fields, fs.Relabels W fs
  | .nil => .nil
  | .cons x v rest => .cons x v.relabels_self rest.relabels_self

end

theorem Statement.relabels_self : ∀ s : Statement, s.Relabels W s
  | .define x v recursive => .define x v.relabels_self recursive
  | .expr e => .expr e.relabels_self

section

variable {R : Expr → Expr → Prop} (hR : ∀ e e', R e e' → e.Relabels W e')

include hR

set_option linter.unusedSectionVars false in
mutual

theorem Expr.Rewrites.relabels : ∀ {e e' : Expr}, e.Rewrites R e' → e.Relabels W e'
  | _, _, .here h => hR _ _ h
  | _, _, .func x h => .func (.refl W x) h.relabels
  | _, _, .applyFunc h a => .apply h.relabels a.relabels_self
  | _, _, .applyArg f h => .apply f.relabels_self h.relabels
  | _, _, .letValue x h b => .letIn (.refl W x) h.relabels b.relabels_self
  | _, _, .letBody x v h => .letIn (.refl W x) v.relabels_self h.relabels
  | _, _, .ifCond h y n => .ifElse h.relabels y.relabels_self n.relabels_self
  | _, _, .ifYes c h n => .ifElse c.relabels_self h.relabels n.relabels_self
  | _, _, .ifNo c y h => .ifElse c.relabels_self y.relabels_self h.relabels
  | _, _, .matchSubject h as => .matchWith h.relabels as.relabels_self
  | _, _, .matchArms s h => .matchWith s.relabels_self h.relabels
  | _, _, .binaryLeft op p h r => .binary op p h.relabels r.relabels_self
  | _, _, .binaryRight op p l h => .binary op p l.relabels_self h.relabels
  | _, _, .neg h => .neg h.relabels
  | _, _, .deref h => .deref h.relabels
  | _, _, .assignTarget h v => .assign h.relabels v.relabels_self
  | _, _, .assignValue t h => .assign t.relabels_self h.relabels
  | _, _, .record h => .record h.relabels
  | _, _, .updateBase h fs => .update h.relabels fs.relabels_self
  | _, _, .updateFields b h => .update b.relabels_self h.relabels
  | _, _, .field h x => .field h.relabels x
  | _, _, .tagged t h => .tagged t h.relabels
  | _, _, .newRef h => .newRef h.relabels

theorem Arms.Rewrites.relabels : ∀ {as as' : Arms}, as.Rewrites R as' → as.Relabels W as'
  | _, _, .body tag x h rest => .cons tag (.refl W x) h.relabels rest.relabels_self
  | _, _, .rest tag x b h => .cons tag (.refl W x) b.relabels_self h.relabels

theorem Fields.Rewrites.relabels : ∀ {fs fs' : Fields}, fs.Rewrites R fs' → fs.Relabels W fs'
  | _, _, .value x h rest => .cons x h.relabels rest.relabels_self
  | _, _, .rest x v h => .cons x v.relabels_self h.relabels

end

/-- A program with one expression replaced by one that differs in names differs in names. -/
theorem Program.Rewrites.relabels {p q : Program} (h : p.Rewrites R q) : p.Relabels W q := by
  obtain ⟨before, h, after⟩ := h
  have hself : ∀ ss : List Statement, List.Forall₂ (Statement.Relabels W) ss ss := fun ss =>
    List.forall₂_same.2 fun s _ => s.relabels_self
  refine List.rel_append (hself before) (.cons ?_ (hself after))
  cases h with
  | define x h recursive => exact .define x (h.relabels hR) recursive
  | expr h => exact .expr (h.relabels hR)

end

/-! ### Parts put together -/

theorem Arms.Relabels.append_inv : ∀ {as bs cs : Arms}, (as.append bs).Relabels W cs →
    ∃ as' bs' : Arms, as.Relabels W as' ∧ bs.Relabels W bs' ∧ as'.append bs' = cs
  | .nil, _, cs, h => ⟨.nil, cs, .nil, h, rfl⟩
  | .cons .., _, _, .cons tag hx hb has => by
    obtain ⟨as', bs', has', hbs', rfl⟩ := Arms.Relabels.append_inv has
    exact ⟨.cons tag _ _ as', bs', .cons tag hx hb has', hbs', rfl⟩

theorem Fields.Relabels.append_inv : ∀ {fs gs hs : Fields}, (fs.append gs).Relabels W hs →
    ∃ fs' gs' : Fields, fs.Relabels W fs' ∧ gs.Relabels W gs' ∧ fs'.append gs' = hs
  | .nil, _, hs, h => ⟨.nil, hs, .nil, h, rfl⟩
  | .cons .., _, _, .cons x hv hfs => by
    obtain ⟨fs', gs', hfs', hgs', rfl⟩ := Fields.Relabels.append_inv hfs
    exact ⟨.cons x _ fs', gs', .cons x hv hfs', hgs', rfl⟩

theorem exists_of_forall₂_concat {α β : Type} {R : α → β → Prop} {xs : List α} {x : α}
    {ys : List β} (h : List.Forall₂ R (xs ++ [x]) ys) :
    ∃ ys' y, List.Forall₂ R xs ys' ∧ R x y ∧ ys' ++ [y] = ys := by
  induction xs generalizing ys with
  | nil =>
    cases h with
    | cons hx hnil =>
      cases hnil
      exact ⟨[], _, .nil, hx, rfl⟩
  | cons x' xs ih =>
    cases h with
    | cons hx' hxs =>
      obtain ⟨ys', y, hys, hx, rfl⟩ := ih hxs
      exact ⟨_ :: ys', y, .cons hx' hys, hx, rfl⟩

/-! ### Meanings -/

/-- How the meanings of a symbol differ in names. Of the words only names do. -/
def Meaning.Relabels (W : Text → Prop) : (s : Symbol) → Meaning s → Meaning s → Prop
  | .terminal .name => fun w w' => (Word.text w).Relabels W (Word.text w')
    ∧ Word.position w' = Word.position w
  | .terminal _ => Eq
  | .nonterminal .program => Program.Relabels W
  | .nonterminal .statements | .nonterminal .moreStatements =>
    List.Forall₂ (Statement.Relabels W)
  | .nonterminal .statement => Statement.Relabels W
  | .nonterminal .arms | .nonterminal .arm => Arms.Relabels W
  | .nonterminal .pattern => fun p p' : Option Text × Text => p'.1 = p.1 ∧ p.2.Relabels W p'.2
  | .nonterminal .moreFields | .nonterminal .field => Fields.Relabels W
  | .nonterminal .expr | .nonterminal .assign | .nonterminal .compare | .nonterminal .concat
  | .nonterminal .sum | .nonterminal .product | .nonterminal .unary | .nonterminal .call
  | .nonterminal .tagged | .nonterminal .simple | .nonterminal .atom => Expr.Relabels W

def Parts.Relabels (W : Text → Prop) : (ss : List Symbol) → Parts Meaning ss → Parts Meaning ss →
    Prop
  | [], (), () => True
  | s :: ss, (m, ms), (m', ms') => Meaning.Relabels W s m m' ∧ Relabels W ss ms ms'

/-- A word with another name. -/
theorem Word.relabels {w : Word} {y : Text} (h : w.text.Relabels W y) :
    Meaning.Relabels W (.terminal .name) w (⟨y, w.position⟩ : Word) := ⟨h, rfl⟩

theorem Word.relabels_self (w : Word) : Meaning.Relabels W (.terminal .name) w w :=
  ⟨.refl W _, rfl⟩

/-- If what a rule means has other names, then so do its parts. -/
theorem Meaning.exists_parts (p : Production) {parts : Parts Meaning p.rhs}
    {m : Meaning (.nonterminal p.lhs)} (h : Relabels W (.nonterminal p.lhs) (ofRule p parts) m) :
    ∃ parts', parts.Relabels W p.rhs parts' ∧ ofRule p parts' = m := by
  cases p with
  | program => exact ⟨(Program.statements m, ()), ⟨h, trivial⟩, rfl⟩
  | statementsMoreEnd =>
    obtain ⟨s, ss, semicolon, ⟨⟩⟩ := parts
    cases h with
    | cons hs hss => exact ⟨(_, _, semicolon, ()), ⟨hs, hss, rfl, trivial⟩, rfl⟩
  | statementsMore =>
    cases h with
    | cons hs hss => exact ⟨(_, _, ()), ⟨hs, hss, trivial⟩, rfl⟩
  | statementsEnd =>
    obtain ⟨s, semicolon, ⟨⟩⟩ := parts
    cases h with
    | cons hs hss =>
      cases hss
      exact ⟨(_, semicolon, ()), ⟨hs, rfl, trivial⟩, rfl⟩
  | statementsOne =>
    cases h with
    | cons hs hss =>
      cases hss
      exact ⟨(_, ()), ⟨hs, trivial⟩, rfl⟩
  | moreStatementsOne =>
    obtain ⟨semicolon, s, ⟨⟩⟩ := parts
    cases h with
    | cons hs hss =>
      cases hss
      exact ⟨(semicolon, _, ()), ⟨rfl, hs, trivial⟩, rfl⟩
  | moreStatementsNext =>
    obtain ⟨ss, semicolon, s, ⟨⟩⟩ := parts
    obtain ⟨ss', s', hss, hs, rfl⟩ := exists_of_forall₂_concat h
    exact ⟨(ss', semicolon, s', ()), ⟨hss, rfl, hs, trivial⟩, rfl⟩
  | define =>
    obtain ⟨word, x, equals, v, ⟨⟩⟩ := parts
    cases h with
    | define _ hv => exact ⟨(word, x, equals, _, ()), ⟨rfl, x.relabels_self, rfl, hv, trivial⟩, rfl⟩
  | defineRec =>
    obtain ⟨word, word', x, equals, v, ⟨⟩⟩ := parts
    cases h with
    | define _ hv =>
      exact ⟨(word, word', x, equals, _, ()), ⟨rfl, rfl, x.relabels_self, rfl, hv, trivial⟩, rfl⟩
  | statementExpr =>
    cases h with
    | expr he => exact ⟨(_, ()), ⟨he, trivial⟩, rfl⟩
  | func =>
    obtain ⟨word, x, arrow, b, ⟨⟩⟩ := parts
    cases h with
    | func hx hb =>
      exact ⟨(word, _, arrow, _, ()), ⟨rfl, Word.relabels hx, rfl, hb, trivial⟩, rfl⟩
  | letIn =>
    obtain ⟨word, x, equals, v, word', b, ⟨⟩⟩ := parts
    cases h with
    | letIn hx hv hb =>
      exact ⟨(word, _, equals, _, word', _, ()),
        ⟨rfl, Word.relabels hx, rfl, hv, rfl, hb, trivial⟩, rfl⟩
  | ifElse =>
    obtain ⟨word, c, word', y, word'', n, ⟨⟩⟩ := parts
    cases h with
    | ifElse hc hy hn =>
      exact ⟨(word, _, word', _, word'', _, ()), ⟨rfl, hc, rfl, hy, rfl, hn, trivial⟩, rfl⟩
  | matchWith =>
    obtain ⟨word, s, word', as, ⟨⟩⟩ := parts
    cases h with
    | matchWith hs has => exact ⟨(word, _, word', _, ()), ⟨rfl, hs, rfl, has, trivial⟩, rfl⟩
  | armsNext =>
    obtain ⟨as', a', has, ha, rfl⟩ := Arms.Relabels.append_inv h
    exact ⟨(as', a', ()), ⟨has, ha, trivial⟩, rfl⟩
  | arm =>
    obtain ⟨bar, ⟨tag, x⟩, arrow, b, ⟨⟩⟩ := parts
    cases h with
    | @cons _ _ y _ c _ _ hx hb hnil =>
      cases hnil
      exact ⟨(bar, (tag, y), arrow, c, ()), ⟨rfl, ⟨rfl, hx⟩, rfl, hb, trivial⟩, rfl⟩
  | tagPattern =>
    obtain ⟨tag, x, ⟨⟩⟩ := parts
    obtain ⟨tag', y⟩ := m
    obtain ⟨rfl, hx⟩ := h
    exact ⟨(tag, _, ()), ⟨rfl, Word.relabels hx, trivial⟩, rfl⟩
  | anyPattern =>
    obtain ⟨tag', y⟩ := m
    obtain ⟨rfl, hx⟩ := h
    exact ⟨(_, ()), ⟨Word.relabels hx, trivial⟩, rfl⟩
  | assign =>
    obtain ⟨t, becomes, v, ⟨⟩⟩ := parts
    cases h with
    | assign ht hv => exact ⟨(_, becomes, _, ()), ⟨ht, rfl, hv, trivial⟩, rfl⟩
  | compare | concat | plus | minus | product =>
    obtain ⟨l, op, r, ⟨⟩⟩ := parts
    cases h with
    | binary _ _ hl hr => exact ⟨(_, op, _, ()), ⟨hl, rfl, hr, trivial⟩, rfl⟩
  | neg =>
    obtain ⟨mark, a, ⟨⟩⟩ := parts
    cases h with
    | neg ha => exact ⟨(mark, _, ()), ⟨rfl, ha, trivial⟩, rfl⟩
  | deref =>
    obtain ⟨mark, a, ⟨⟩⟩ := parts
    cases h with
    | deref ha => exact ⟨(mark, _, ()), ⟨rfl, ha, trivial⟩, rfl⟩
  | newRef =>
    obtain ⟨mark, a, ⟨⟩⟩ := parts
    cases h with
    | newRef ha => exact ⟨(mark, _, ()), ⟨rfl, ha, trivial⟩, rfl⟩
  | apply | applyTagged =>
    cases h with
    | apply hf ha => exact ⟨(_, _, ()), ⟨hf, ha, trivial⟩, rfl⟩
  | taggedSimple | taggedTagged =>
    obtain ⟨tag, a, ⟨⟩⟩ := parts
    cases h with
    | tagged _ ha => exact ⟨(tag, _, ()), ⟨rfl, ha, trivial⟩, rfl⟩
  | fieldAccess =>
    obtain ⟨b, dot, x, ⟨⟩⟩ := parts
    cases h with
    | field hb => exact ⟨(_, dot, x, ()), ⟨hb, rfl, x.relabels_self, trivial⟩, rfl⟩
  | number | string =>
    obtain ⟨word, ⟨⟩⟩ := parts
    cases h
    exact ⟨(word, ()), ⟨rfl, trivial⟩, rfl⟩
  | trueLit | falseLit =>
    obtain ⟨word, ⟨⟩⟩ := parts
    cases h
    exact ⟨(word, ()), ⟨rfl, trivial⟩, rfl⟩
  | var =>
    obtain ⟨x, ⟨⟩⟩ := parts
    cases h with
    | var hx => exact ⟨(_, ()), ⟨Word.relabels hx, trivial⟩, rfl⟩
  | recordEmpty =>
    obtain ⟨left, right, ⟨⟩⟩ := parts
    cases h with
    | record hnil =>
      cases hnil
      exact ⟨(left, right, ()), ⟨rfl, rfl, trivial⟩, rfl⟩
  | recordOne =>
    obtain ⟨left, f, right, ⟨⟩⟩ := parts
    cases h with
    | record hf => exact ⟨(left, _, right, ()), ⟨rfl, hf, rfl, trivial⟩, rfl⟩
  | recordOneEnd =>
    obtain ⟨left, f, semicolon, right, ⟨⟩⟩ := parts
    cases h with
    | record hf => exact ⟨(left, _, semicolon, right, ()), ⟨rfl, hf, rfl, rfl, trivial⟩, rfl⟩
  | recordMore =>
    obtain ⟨left, f, fs, right, ⟨⟩⟩ := parts
    cases h with
    | record hfs =>
      obtain ⟨f', fs', hf, hmore, rfl⟩ := hfs.append_inv
      exact ⟨(left, f', fs', right, ()), ⟨rfl, hf, hmore, rfl, trivial⟩, rfl⟩
  | recordMoreEnd =>
    obtain ⟨left, f, fs, semicolon, right, ⟨⟩⟩ := parts
    cases h with
    | record hfs =>
      obtain ⟨f', fs', hf, hmore, rfl⟩ := hfs.append_inv
      exact ⟨(left, f', fs', semicolon, right, ()), ⟨rfl, hf, hmore, rfl, rfl, trivial⟩, rfl⟩
  | updateOne =>
    obtain ⟨left, b, bar, f, right, ⟨⟩⟩ := parts
    cases h with
    | update hb hf => exact ⟨(left, _, bar, _, right, ()), ⟨rfl, hb, rfl, hf, rfl, trivial⟩, rfl⟩
  | updateOneEnd =>
    obtain ⟨left, b, bar, f, semicolon, right, ⟨⟩⟩ := parts
    cases h with
    | update hb hf =>
      exact ⟨(left, _, bar, _, semicolon, right, ()), ⟨rfl, hb, rfl, hf, rfl, rfl, trivial⟩, rfl⟩
  | updateMore =>
    obtain ⟨left, b, bar, f, fs, right, ⟨⟩⟩ := parts
    cases h with
    | update hb hfs =>
      obtain ⟨f', fs', hf, hmore, rfl⟩ := hfs.append_inv
      exact ⟨(left, _, bar, f', fs', right, ()), ⟨rfl, hb, rfl, hf, hmore, rfl, trivial⟩, rfl⟩
  | updateMoreEnd =>
    obtain ⟨left, b, bar, f, fs, semicolon, right, ⟨⟩⟩ := parts
    cases h with
    | update hb hfs =>
      obtain ⟨f', fs', hf, hmore, rfl⟩ := hfs.append_inv
      exact ⟨(left, _, bar, f', fs', semicolon, right, ()),
        ⟨rfl, hb, rfl, hf, hmore, rfl, rfl, trivial⟩, rfl⟩
  | parens =>
    obtain ⟨left, e, right, ⟨⟩⟩ := parts
    exact ⟨(left, m, right, ()), ⟨rfl, h, rfl, trivial⟩, rfl⟩
  | moreFieldsOne =>
    obtain ⟨semicolon, f, ⟨⟩⟩ := parts
    exact ⟨(semicolon, m, ()), ⟨rfl, h, trivial⟩, rfl⟩
  | moreFieldsNext =>
    obtain ⟨fs, semicolon, f, ⟨⟩⟩ := parts
    obtain ⟨fs', f', hfs, hf, rfl⟩ := Fields.Relabels.append_inv h
    exact ⟨(fs', semicolon, f', ()), ⟨hfs, rfl, hf, trivial⟩, rfl⟩
  | field =>
    obtain ⟨x, equals, v, ⟨⟩⟩ := parts
    cases h with
    | cons _ hv hnil =>
      cases hnil
      exact ⟨(x, equals, _, ()), ⟨x.relabels_self, rfl, hv, trivial⟩, rfl⟩
  | exprAssign | armsOne | assignCompare | compareConcat | concatSum | sumProduct | productUnary
  | unaryCall | callSimple | callTagged | simpleAtom => exact ⟨(m, ()), ⟨h, trivial⟩, rfl⟩

/-! ### Trees -/

/-- A token, or a name in its place. -/
def Token.Relabels (W : Text → Prop) (token token' : Token) : Prop :=
  token' = token ∨ token'.kind = .name ∧ W token'.text

/-- If what a tree means has other names, then it is what another tree means, with other names among
its tokens, which the automaton takes through the same states. -/
theorem Tree.exists_relabeled {s : Symbol} {tree : Tree s} {m m' : Meaning s}
    (hm : tree.meaning? = .ok m) (h : Meaning.Relabels W s m m') :
    ∃ tree' : Tree s, tree'.meaning? = .ok m' ∧ (∀ q, tree'.shifts q = tree.shifts q)
      ∧ List.Forall₂ (Token.Relabels W) tree.tokens tree'.tokens := by
  refine meaning?_induction
    (P := fun s tree m => ∀ m', Meaning.Relabels W s m m' →
      ∃ tree' : Tree s, tree'.meaning? = .ok m' ∧ (∀ q, tree'.shifts q = tree.shifts q)
        ∧ List.Forall₂ (Token.Relabels W) tree.tokens tree'.tokens)
    (Q := fun ss forest ms => ∀ ms', ms.Relabels W ss ms' →
      ∃ forest' : Forest ss, forest'.meaning? = .ok ms'
        ∧ (∀ q, forest'.shifts q = forest.shifts q)
        ∧ List.Forall₂ (Token.Relabels W) forest.tokens forest'.tokens)
    ?leaf ?node ?nil ?cons hm m' h
  case leaf =>
    rintro ⟨kind, text, offset, position⟩ w hw w' h
    have hsame : w' = w → ∃ tree' : Tree (.terminal kind), tree'.meaning? = .ok w'
        ∧ (∀ q, tree'.shifts q = (Tree.leaf ⟨kind, text, offset, position⟩).shifts q)
        ∧ List.Forall₂ (Token.Relabels W) [⟨kind, text, offset, position⟩] tree'.tokens := by
      rintro rfl
      exact ⟨.leaf ⟨kind, text, offset, position⟩, hw, fun _ => rfl, .cons (.inl rfl) .nil⟩
    cases kind with
    | name =>
      obtain ⟨text', position'⟩ := w'
      cases hw
      obtain ⟨htext, rfl⟩ := h
      rcases htext with rfl | hW
      · exact hsame rfl
      · have htoken : Token.Relabels W ⟨.name, text, offset, position'⟩
            ⟨.name, text', offset, position'⟩ := Or.inr ⟨rfl, hW⟩
        exact ⟨.leaf ⟨.name, text', offset, position'⟩, rfl, fun _ => rfl, .cons htoken .nil⟩
    | _ => exact hsame (Eq.symm h)
  case node =>
    intro p children parts _ ih m' h
    obtain ⟨parts', hrelabels, rfl⟩ := Meaning.exists_parts p h
    obtain ⟨children', hparts', hshifts, htokens⟩ := ih parts' hrelabels
    exact ⟨.node p children', meaning?_node_eq_ok.2 ⟨parts', hparts', rfl⟩, hshifts, htokens⟩
  case nil =>
    intro ms' _
    exact ⟨.nil, rfl, fun _ => rfl, .nil⟩
  case cons =>
    intro s ss tree rest m ms ihTree ihRest ms' h
    obtain ⟨tree', hm', hshifts, htokens⟩ := ihTree _ h.1
    obtain ⟨rest', hrest', hshifts', htokens'⟩ := ihRest _ h.2
    refine ⟨.cons tree' rest', Forest.meaning?_cons_eq_ok.2 ⟨hm', hrest'⟩, fun q => ?_, ?_⟩
    · rw [Forest.shifts, Forest.shifts, hshifts, hshifts']
    · exact List.rel_append htokens htokens'

/-- A token that is read stands in the state in which it is read. -/
theorem Cursor.Reads.standsAt {c c' : Cursor} {q q' : Nat} {ts : List Token} {qs : List Nat}
    (h : c.Reads q ts qs c' q') : ∀ x ∈ ts.zip (q :: qs), x.1.StandsAt x.2 := by
  induction h with
  | refl => exact nofun
  | token htoken _ ih =>
    refine List.forall_mem_cons.2 ⟨?_, ih⟩
    obtain ⟨-, hlexeme, -, -, -, hfirst⟩ := token?_eq_some htoken
    have hsplit := (Terminal.lexeme?_eq_some hlexeme).1.2
    rw [← hsplit] at hlexeme hfirst
    exact ⟨Terminal.lexeme?_of_append (r := []) hlexeme, fun t hlt ht =>
      Terminal.lexeme?_eq_none_of_append (r := []) hlexeme (hfirst t hlt ht)⟩

theorem Token.standsAt_of_relabels (hW : ∀ x, W x → Terminal.name.Spells x) {ts us : List Token}
    (h : List.Forall₂ (Token.Relabels W) ts us) {qs : List Nat}
    (hts : ∀ x ∈ ts.zip qs, x.1.StandsAt x.2) : ∀ x ∈ us.zip qs, x.1.StandsAt x.2 := by
  induction h generalizing qs with
  | nil => exact nofun
  | @cons token token' ts us htoken _ ih =>
    cases qs with
    | nil => exact nofun
    | cons q qs =>
      obtain ⟨hstands, hts⟩ := List.forall_mem_cons.1 hts
      refine List.forall_mem_cons.2 ⟨?_, ih hts⟩
      rcases htoken with rfl | ⟨hkind, hname⟩
      · exact hstands
      · refine Terminal.Spells.standsAt ?_ q
        rw [hkind]
        exact hW _ hname

/-- With other names, a program that has a source has one as well. -/
theorem exists_parse_of_relabels (hW : ∀ x, W x → Terminal.name.Spells x) {source : Text}
    {p q : Program} (hp : parse source = .ok p) (h : p.unplaced.Relabels W q) :
    ∃ source' q', parse source' = .ok q' ∧ q'.unplaced = q.unplaced := by
  obtain ⟨tree, hsource, hmeaning⟩ := exists_of_parse hp
  have hunplaced : tree.unplaced.meaning? = .ok p.unplaced := by
    rw [tree.meaning?_unplaced, hmeaning]
    rfl
  obtain ⟨tree', hmeaning', hshifts, htokens⟩ := Tree.exists_relabeled hunplaced h
  obtain ⟨c, q₁, hreads, -⟩ := Text.hasTokens_iff.1 (Tree.ofSource_eq_ok_iff.1 hsource)
  have hstands : ∀ x ∈ tree.unplaced.tokens.zip (0 :: tree'.shifts 0), x.1.StandsAt x.2 := by
    rw [hshifts, tree.shifts_unplaced, tree.tokens_unplaced, List.zip_map_left]
    intro x hx
    obtain ⟨y, hy, rfl⟩ := List.mem_map.1 hx
    exact hreads.standsAt y hy
  obtain ⟨tree'', hsource', hplaces⟩ :=
    Tree.exists_ofSource_standsAt (Token.standsAt_of_relabels hW htokens hstands)
  obtain ⟨q', hq', hsame⟩ := Tree.meaning?_of_unplaced hplaces hmeaning'
  exact ⟨_, q', parse_of_ofSource hsource' hq', hsame⟩

end

end Toplevel
