import Toplevel.Proofs.Code.Names
import Toplevel.Proofs.Number.Numeral
import Toplevel.Proofs.Syntax.Layout
import Toplevel.Proofs.Syntax.Phrases

/-!
# Programs written out

A program is written out with every part that is no atom in parentheses (`Expr.words`), strings as
they are displayed and statements joined by semicolons (`Program.render`). However its tokens are
laid out, they are read as this program again, up to places (`Program.parse_render`).
-/

namespace Toplevel

open Toplevel.Tree

/-! ### Writing out -/

def Expr.isAtomic : Expr → Bool
  | number _ | string _ | bool _ | var .. | record _ | update .. => true
  | _ => false

/-- Parentheses around what is no atom. -/
def enclose (atomic : Bool) (ts : List Token) : List Token :=
  if atomic then ts else mark .leftParen :: (ts ++ [mark .rightParen])

/-- The kind of token that an operator is. -/
def BinaryOp.kind : BinaryOp → Terminal
  | less | lessEqual | greater | greaterEqual | equal | notEqual => .compareOp
  | concat => .caret
  | plus => .plus
  | minus => .minus
  | times | divide | remainder => .productOp

mutual

def Expr.words : Expr → List Token
  | .number x => [word .number (Text.literal x)]
  | .string s => [word .string s.jsonQuoted]
  | .bool b => [if b then mark .kwTrue else mark .kwFalse]
  | .var x _ => [word .name x]
  | .func x b => [mark .kwFun, word .name x, mark .arrow] ++ enclose b.isAtomic b.words
  | .apply f a => enclose f.isAtomic f.words ++ enclose a.isAtomic a.words
  | .letIn x v b =>
    [mark .kwLet, word .name x, mark .equals] ++ enclose v.isAtomic v.words
      ++ [mark .kwIn] ++ enclose b.isAtomic b.words
  | .ifElse c y n =>
    [mark .kwIf] ++ enclose c.isAtomic c.words ++ [mark .kwThen] ++ enclose y.isAtomic y.words
      ++ [mark .kwElse] ++ enclose n.isAtomic n.words
  | .matchWith s as => [mark .kwMatch] ++ enclose s.isAtomic s.words ++ [mark .kwWith] ++ as.words
  | .binary op _ l r =>
    enclose l.isAtomic l.words ++ [word op.kind op.text] ++ enclose r.isAtomic r.words
  | .neg a => [mark .minus] ++ enclose a.isAtomic a.words
  | .deref a => [mark .bang] ++ enclose a.isAtomic a.words
  | .assign t v => enclose t.isAtomic t.words ++ [mark .becomes] ++ enclose v.isAtomic v.words
  | .record fs => [mark .leftBrace] ++ fs.words [] ++ [mark .rightBrace]
  | .update b fs =>
    [mark .leftBrace] ++ enclose b.isAtomic b.words ++ [mark .bar] ++ fs.words []
      ++ [mark .rightBrace]
  | .field b x => enclose b.isAtomic b.words ++ [mark .dot, word .name x]
  | .tagged t p => [word .tag t] ++ enclose p.isAtomic p.words
  | .newRef a => [mark .kwRef] ++ enclose a.isAtomic a.words

def Arms.words : Arms → List Token
  | .nil => []
  | .cons tag x b rest =>
    [mark .bar] ++ tag.toList.map (word .tag) ++ [word .name x, mark .arrow]
      ++ enclose b.isAtomic b.words ++ rest.words

/-- Fields with `before` in front of the first and a semicolon in front of the others. -/
def Fields.words (before : List Token) : Fields → List Token
  | .nil => []
  | .cons x v rest =>
    before ++ [word .name x, mark .equals] ++ enclose v.isAtomic v.words
      ++ rest.words [mark .semicolon]

end

def Statement.words : Statement → List Token
  | define x v recursive =>
    [mark .kwLet] ++ (if recursive then [mark .kwRec] else []) ++ [word .name x, mark .equals]
      ++ enclose v.isAtomic v.words
  | expr e => e.words

/-- The tokens of a program: those of its statements, with semicolons between them. -/
def Program.words (p : Program) : List Token :=
  match p.statements with
  | [] => []
  | s :: ss => s.words ++ ss.flatMap fun s => mark .semicolon :: s.words

/-- A program in one line: a blank between the tokens of a statement, a semicolon between
statements. -/
def Program.render (p : Program) : Text :=
  Text.join [';'] (p.statements.map fun s => Text.setApart (s.words.map (·.text)))

/-! ### What can be written out -/

mutual

/-- Names are names and no keywords, tags are tags, and the text of a number reads back. -/
def Expr.Writable : Expr → Prop
  | .number x => ReadsBack x
  | .string _ | .bool _ => True
  | .var x _ => Terminal.name.Spells x
  | .func x b => Terminal.name.Spells x ∧ b.Writable
  | .apply f a => f.Writable ∧ a.Writable
  | .letIn x v b => Terminal.name.Spells x ∧ v.Writable ∧ b.Writable
  | .ifElse c y n => c.Writable ∧ y.Writable ∧ n.Writable
  | .matchWith s as => s.Writable ∧ as ≠ .nil ∧ as.Writable
  | .binary _ _ l r => l.Writable ∧ r.Writable
  | .neg a => a.Writable
  | .deref a => a.Writable
  | .assign t v => t.Writable ∧ v.Writable
  | .record fs => fs.Writable
  | .update b fs => b.Writable ∧ fs ≠ .nil ∧ fs.Writable
  | .field b x => b.Writable ∧ Terminal.name.Spells x
  | .tagged t p => t.IsTag ∧ p.Writable
  | .newRef a => a.Writable

def Arms.Writable : Arms → Prop
  | .nil => True
  | .cons tag x b rest =>
    (∀ t ∈ tag, t.IsTag) ∧ Terminal.name.Spells x ∧ b.Writable ∧ rest.Writable

def Fields.Writable : Fields → Prop
  | .nil => True
  | .cons x v rest => Terminal.name.Spells x ∧ v.Writable ∧ rest.Writable

end

def Statement.Writable : Statement → Prop
  | define x v _ => Terminal.name.Spells x ∧ v.Writable
  | expr e => e.Writable

structure Program.Writable (p : Program) : Prop where
  nonempty : p.statements ≠ []
  statements : ∀ s ∈ p.statements, s.Writable

/-! ### What is written -/

/-- The words of an expression write it, as an atom if it is one. -/
def Expr.Written (e : Expr) : Prop :=
  (e.isAtomic = true → Nonterminal.atom.Writes e.words e.unplaced)
    ∧ Nonterminal.expr.Writes e.words e.unplaced

namespace Expr.Written

variable {e : Expr}

theorem of_atom (h : Nonterminal.atom.Writes e.words e.unplaced) : e.Written :=
  ⟨fun _ => h, h.simple.call.unary.product.sum.concat.compare.assign.expr⟩

theorem of_expr (he : e.isAtomic = false) (h : Nonterminal.expr.Writes e.words e.unplaced) :
    e.Written := by
  refine ⟨fun hatomic => ?_, h⟩
  rw [he] at hatomic
  cases hatomic

/-- Whatever is written may stand in the place of an atom once it is enclosed. -/
theorem atom (h : e.Written) : Nonterminal.atom.Writes (enclose e.isAtomic e.words) e.unplaced := by
  cases hatomic : e.isAtomic with
  | true => exact h.1 hatomic
  | false =>
    exact Production.parens.writes (.mark rfl (.cons h.2 (.last (Symbol.writes_mark _ rfl))))

theorem unary (h : e.Written) : Nonterminal.unary.Writes (enclose e.isAtomic e.words) e.unplaced :=
  h.atom.simple.call.unary

theorem compare (h : e.Written) :
    Nonterminal.compare.Writes (enclose e.isAtomic e.words) e.unplaced :=
  h.unary.product.sum.concat.compare

theorem assign (h : e.Written) :
    Nonterminal.assign.Writes (enclose e.isAtomic e.words) e.unplaced :=
  h.compare.assign

theorem expr (h : e.Written) : Nonterminal.expr.Writes (enclose e.isAtomic e.words) e.unplaced :=
  h.assign.expr

end Expr.Written

theorem BinaryOp.writes (op : BinaryOp) {l r : Expr} (hl : l.Written) (hr : r.Written) :
    Nonterminal.compare.Writes
      (enclose l.isAtomic l.words ++ [word op.kind op.text] ++ enclose r.isAtomic r.words)
      (Expr.binary op Position.start l.unplaced r.unplaced) := by
  have hl := hl.unary.product
  have hr' := hr.unary
  have hr := hr'.product
  have hword : (Symbol.terminal op.kind).Writes [word op.kind op.text] ⟨op.text, Position.start⟩ :=
    Symbol.writes_spelling (by cases op <;> decide)
  rw [List.append_assoc]
  cases op with
  | less | lessEqual | greater | greaterEqual | equal | notEqual =>
    exact Production.compare.writes (.cons hl.sum.concat (.cons hword (.last hr.sum.concat)))
  | concat =>
    exact (Production.concat.writes (.cons hl.sum (.cons hword (.last hr.sum.concat)))).compare
  | plus => exact (Production.plus.writes (.cons hl.sum (.cons hword (.last hr)))).concat.compare
  | minus => exact (Production.minus.writes (.cons hl.sum (.cons hword (.last hr)))).concat.compare
  | times | divide | remainder =>
    exact (Production.product.writes (.cons hl (.cons hword (.last hr')))).sum.concat.compare

theorem Arms.writes_one {tag : Option Text} (htag : ∀ t ∈ tag, t.IsTag) {x : Text}
    (hx : Terminal.name.Spells x) {b : Expr} (hb : b.Written) :
    Nonterminal.arm.Writes
      ([mark .bar] ++ tag.toList.map (word .tag) ++ [word .name x, mark .arrow]
        ++ enclose b.isAtomic b.words)
      (Arms.cons tag x b.unplaced .nil) := by
  have hpattern : Nonterminal.pattern.Writes (tag.toList.map (word .tag) ++ [word .name x])
      ((tag, x) : Option Text × Text) := by
    cases tag with
    | none => exact Production.anyPattern.writes (.last (Symbol.writes_word (by decide) hx))
    | some t =>
      exact Production.tagPattern.writes (.word (by decide) ⟨htag t rfl, nofun⟩
        (.last (Symbol.writes_word (by decide) hx)))
  have harm := Production.arm.writes (.mark rfl (.cons hpattern (.mark rfl (.last hb.assign))))
  rw [List.append_assoc] at harm
  simp only [List.append_assoc]
  exact harm

theorem Arms.append_nil (as : Arms) : as.append .nil = as := by
  cases as with
  | nil => rfl
  | cons tag x b rest => rw [Arms.append, append_nil rest]

theorem Arms.append_assoc : ∀ as bs cs : Arms, (as.append bs).append cs = as.append (bs.append cs)
  | .nil, _, _ => rfl
  | .cons tag x b rest, bs, cs => by rw [Arms.append, Arms.append, append_assoc rest]; rfl

theorem Expr.writes_number {x : Float} (h : ReadsBack x) :
    Nonterminal.atom.Writes [word .number (Text.literal x)] (Expr.number x) := by
  have hnumber : Nonterminal.atom.Writes [word .number (Text.literal x)]
      (Expr.number (floatOfLiteral (Text.literal x))) :=
    Production.number.writes (.last (Symbol.writes_word (by decide) h.spells))
  rwa [h.floatOfLiteral_literal] at hnumber

mutual

theorem Expr.written : ∀ e : Expr, e.Writable → e.Written
  | .number _, h => .of_atom (Expr.writes_number h)
  | .string s, _ => .of_atom (Production.string.writes (.last (Symbol.writes_jsonQuoted s)))
  | .bool true, _ => .of_atom (Production.trueLit.writes (.last (Symbol.writes_mark _ rfl)))
  | .bool false, _ => .of_atom (Production.falseLit.writes (.last (Symbol.writes_mark _ rfl)))
  | .var x _, hx => .of_atom (Production.var.writes (.last (Symbol.writes_word (by decide) hx)))
  | .func x b, h =>
    .of_expr rfl (Production.func.writes (.mark rfl (.word (by decide) h.1 (.mark rfl
      (.last (b.written h.2).expr)))))
  | .apply f a, h => by
    have hcall : Nonterminal.call.Writes (Expr.apply f a).words (Expr.apply f a).unplaced :=
      Production.apply.writes
        (.cons (f.written h.1).atom.simple.call (.last (a.written h.2).atom.simple))
    exact .of_expr rfl hcall.unary.product.sum.concat.compare.assign.expr
  | .letIn x v b, h => by
    refine .of_expr rfl ?_
    simp only [Expr.words, List.append_assoc]
    exact Production.letIn.writes (.mark rfl (.word (by decide) h.1 (.mark rfl
      (.cons (v.written h.2.1).expr (.mark rfl (.last (b.written h.2.2).expr))))))
  | .ifElse c y n, h => by
    refine .of_expr rfl ?_
    simp only [Expr.words, List.append_assoc]
    exact Production.ifElse.writes (.mark rfl (.cons (c.written h.1).expr (.mark rfl
      (.cons (y.written h.2.1).expr (.mark rfl (.last (n.written h.2.2).expr))))))
  | .matchWith s .nil, h => absurd rfl h.2.1
  | .matchWith s (.cons tag x b rest), ⟨hs, _, htag, hx, hb, hrest⟩ => by
    refine .of_expr rfl ?_
    have harms := rest.writes_more hrest
      (Production.armsOne.writes (.last (Arms.writes_one htag hx (b.written hb))))
    simp only [Expr.words, Arms.words, List.append_assoc]
    simp only [List.append_assoc] at harms
    exact Production.matchWith.writes (.mark rfl (.cons (s.written hs).expr (.mark rfl
      (.last harms))))
  | .binary op _ l r, h =>
    .of_expr rfl (op.writes (l.written h.1) (r.written h.2)).assign.expr
  | .neg a, h => by
    have hunary : Nonterminal.unary.Writes (Expr.neg a).words (Expr.neg a).unplaced :=
      Production.neg.writes (.mark rfl (.last (a.written h).unary))
    exact .of_expr rfl hunary.product.sum.concat.compare.assign.expr
  | .deref a, h => by
    have hunary : Nonterminal.unary.Writes (Expr.deref a).words (Expr.deref a).unplaced :=
      Production.deref.writes (.mark rfl (.last (a.written h).unary))
    exact .of_expr rfl hunary.product.sum.concat.compare.assign.expr
  | .assign t v, h => by
    have hassign : Nonterminal.assign.Writes (Expr.assign t v).words
        (Expr.assign t v).unplaced := by
      simp only [Expr.words, List.append_assoc]
      exact Production.assign.writes (.cons (t.written h.1).compare (.mark rfl
        (.last (v.written h.2).compare)))
    exact .of_expr rfl hassign.expr
  | .record .nil, _ =>
    .of_atom (Production.recordEmpty.writes (.mark rfl (.last (Symbol.writes_mark _ rfl))))
  | .record (.cons x v rest), ⟨hx, hv, hrest⟩ => by
    refine .of_atom ?_
    simp only [Expr.words, Fields.words, List.append_assoc]
    exact (rest.written hrest).record hx (v.written hv).expr
  | .update b .nil, h => absurd rfl h.2.1
  | .update b (.cons x v rest), ⟨hb, _, hx, hv, hrest⟩ => by
    refine .of_atom ?_
    simp only [Expr.words, Fields.words, List.append_assoc]
    exact (rest.written hrest).update (b.written hb).atom.simple hx (v.written hv).expr
  | .field b x, h => by
    have hsimple : Nonterminal.simple.Writes (Expr.field b x).words (Expr.field b x).unplaced :=
      Production.fieldAccess.writes (.cons (b.written h.1).atom.simple
        (.mark rfl (.last (Symbol.writes_word (by decide) h.2))))
    exact .of_expr rfl hsimple.call.unary.product.sum.concat.compare.assign.expr
  | .tagged t p, h => by
    have htagged : Nonterminal.tagged.Writes (Expr.tagged t p).words (Expr.tagged t p).unplaced :=
      Production.taggedSimple.writes (.word (by decide) ⟨h.1, nofun⟩
        (.last (p.written h.2).atom.simple))
    exact .of_expr rfl htagged.callTagged.unary.product.sum.concat.compare.assign.expr
  | .newRef a, h => by
    have hcall : Nonterminal.call.Writes (Expr.newRef a).words (Expr.newRef a).unplaced :=
      Production.newRef.writes (.mark rfl (.last (a.written h).atom.simple))
    exact .of_expr rfl hcall.unary.product.sum.concat.compare.assign.expr

theorem Arms.writes_more : ∀ as : Arms, as.Writable → ∀ {ts : List Token} {bs : Arms},
    Nonterminal.arms.Writes ts bs →
    Nonterminal.arms.Writes (ts ++ as.words) (bs.append as.unplaced)
  | .nil, _, ts, bs, h => by
    rw [Arms.words, Arms.unplaced, Arms.append_nil, List.append_nil]
    exact h
  | .cons tag x b rest, ⟨htag, hx, hb, hrest⟩, ts, bs, h => by
    have hone := Arms.writes_one htag hx (b.written hb)
    have hnext : Nonterminal.arms.Writes _ (bs.append (.cons tag x b.unplaced .nil)) :=
      Production.armsNext.writes (.cons h (.last hone))
    have hall := rest.writes_more hrest hnext
    rw [Arms.append_assoc] at hall
    simp only [Arms.words, List.append_assoc]
    simp only [List.append_assoc] at hall
    exact hall

theorem Fields.written : ∀ fs : Fields, fs.Writable →
    fs.unplaced.Further (fs.words [mark .semicolon])
  | .nil, _ => .nil
  | .cons _ v rest, ⟨hx, hv, hrest⟩ => (rest.written hrest).cons hx (v.written hv).expr

end

theorem Statement.writes : ∀ {s : Statement}, s.Writable →
    Nonterminal.statement.Writes s.words s.unplaced
  | define x v recursive, ⟨hx, hv⟩ => by
    have hvalue := (v.written hv).expr
    cases recursive with
    | false =>
      exact Production.define.writes (.mark rfl (.word (by decide) hx (.mark rfl (.last hvalue))))
    | true =>
      exact Production.defineRec.writes (.mark rfl (.mark rfl (.word (by decide) hx (.mark rfl
        (.last hvalue)))))
  | expr e, he => Production.statementExpr.writes (.last (e.written he).2)

theorem Statement.exists_trees {ss : List Statement} (h : ∀ s ∈ ss, s.Writable) :
    ∃ trees : List (Tree (.nonterminal .statement)),
      List.Forall₂ (fun (tree : Tree (.nonterminal .statement)) s => tree.meaning? = .ok s) trees
        (ss.map Statement.unplaced)
      ∧ (trees.flatMap fun tree => Tree.semicolon :: tree.tokens)
        = ss.flatMap fun s => mark .semicolon :: s.words := by
  induction ss with
  | nil => exact ⟨[], .nil, rfl⟩
  | cons s ss ih =>
    obtain ⟨hs, hss⟩ := List.forall_mem_cons.1 h
    obtain ⟨trees, hmeanings, htokens⟩ := ih hss
    obtain ⟨-, tree, htree, hmeaning⟩ := Statement.writes hs
    refine ⟨tree :: trees, .cons hmeaning hmeanings, ?_⟩
    rw [List.flatMap_cons, List.flatMap_cons, htokens, htree]
    rfl

namespace Program

variable {p : Program}

theorem writes (h : p.Writable) : Nonterminal.program.Writes p.words p.unplaced := by
  obtain ⟨statements⟩ := p
  obtain ⟨s, ss, rfl⟩ := List.exists_cons_of_ne_nil h.nonempty
  obtain ⟨hs, hss⟩ := List.forall_mem_cons.1 h.statements
  obtain ⟨hspells, tree, htree, hmeaning⟩ := Statement.writes hs
  obtain ⟨trees, hmeanings, htokens⟩ := Statement.exists_trees hss
  refine ⟨?_, several tree trees, ?_, meaning?_several hmeaning hmeanings⟩
  · refine List.forall_mem_append.2 ⟨hspells, fun token htoken => ?_⟩
    obtain ⟨s', hs', htoken⟩ := List.mem_flatMap.1 htoken
    rcases List.mem_cons.1 htoken with rfl | htoken
    · exact Terminal.spells_of_spelling (by decide)
    · exact (Statement.writes (hss s' hs')).spells token htoken
  · rw [tokens_several, htree, htokens]
    rfl

theorem laysOut_further {ss : List Statement} (h : ∀ s ∈ ss, s.Writable) :
    Text.LaysOut
      (ss.flatMap fun s => (';' : CodePoint) :: Text.setApart (s.words.map (·.text)))
      (ss.flatMap fun s => mark .semicolon :: s.words) := by
  induction ss with
  | nil => exact .nil (List.forall_mem_nil _)
  | cons s ss ih =>
    obtain ⟨hs, hss⟩ := List.forall_mem_cons.1 h
    have hrest := Text.laysOut_setApart_append (Statement.writes hs).spells ?_ (ih hss)
    · exact .token (mark .semicolon) (Terminal.spells_of_spelling (by decide))
        (fun _ _ => rfl) hrest
    · intro t
      cases ss with
      | nil => exact .nil
      | cons s' ss => exact .cons (Terminal.not_continues_of_ends (Or.inl rfl) t)

theorem render_laysOut (h : p.Writable) : p.render.LaysOut p.words := by
  obtain ⟨statements⟩ := p
  obtain ⟨s, ss, rfl⟩ := List.exists_cons_of_ne_nil h.nonempty
  obtain ⟨hs, hss⟩ := List.forall_mem_cons.1 h.statements
  rw [render, List.map_cons, Text.join_cons, List.flatMap_map]
  refine Text.laysOut_setApart_append (Statement.writes hs).spells ?_ (laysOut_further hss)
  intro t
  cases ss with
  | nil => exact .nil
  | cons s' ss => exact .cons (Terminal.not_continues_of_ends (Or.inl rfl) t)

end Program

/-! ### Reading back -/

mutual

theorem Expr.unplaced_unplaced : ∀ e : Expr, e.unplaced.unplaced = e.unplaced
  | .number _ | .string _ | .bool _ | .var .. => rfl
  | .func _ a | .neg a | .deref a | .field a _ | .tagged _ a | .newRef a => by
    simp only [Expr.unplaced, a.unplaced_unplaced]
  | .apply a b | .letIn _ a b | .binary _ _ a b | .assign a b => by
    simp only [Expr.unplaced, a.unplaced_unplaced, b.unplaced_unplaced]
  | .ifElse c y n => by
    simp only [Expr.unplaced, c.unplaced_unplaced, y.unplaced_unplaced, n.unplaced_unplaced]
  | .matchWith s as => by
    simp only [Expr.unplaced, s.unplaced_unplaced, as.unplaced_unplaced]
  | .record fs => by simp only [Expr.unplaced, fs.unplaced_unplaced]
  | .update b fs => by simp only [Expr.unplaced, b.unplaced_unplaced, fs.unplaced_unplaced]

theorem Arms.unplaced_unplaced : ∀ as : Arms, as.unplaced.unplaced = as.unplaced
  | .nil => rfl
  | .cons _ _ b rest => by
    simp only [Arms.unplaced, b.unplaced_unplaced, rest.unplaced_unplaced]

theorem Fields.unplaced_unplaced : ∀ fs : Fields, fs.unplaced.unplaced = fs.unplaced
  | .nil => rfl
  | .cons _ v rest => by
    simp only [Fields.unplaced, v.unplaced_unplaced, rest.unplaced_unplaced]

end

theorem Program.unplaced_unplaced (p : Program) : p.unplaced.unplaced = p.unplaced := by
  simp only [Program.unplaced, List.map_map]
  refine congrArg _ (List.map_congr_left fun s _ => ?_)
  cases s <;> simp only [Function.comp_apply, Statement.unplaced, Expr.unplaced_unplaced]

/-- A text that lays out the tokens of a program is read as this program. -/
theorem Text.LaysOut.parse {source : Text} {ts : List Token} {p : Program} (h : source.LaysOut ts)
    (hp : Nonterminal.program.Writes ts p) :
    ∃ q, Toplevel.parse source = .ok q ∧ q.unplaced = p.unplaced := by
  obtain ⟨-, tree, rfl, hmeaning⟩ := hp
  obtain ⟨tree', hsource, hplaces⟩ := Tree.exists_ofSource_laysOut h
  exact parse_of_unplaced hsource hplaces hmeaning

theorem isDefinitionAsTrue_unplaced (p : Program) :
    isDefinitionAsTrue (.ok p.unplaced) = isDefinitionAsTrue (.ok p) := by
  obtain ⟨_ | ⟨s, ss⟩⟩ := p
  · rfl
  cases s with
  | expr e => rfl
  | define x v recursive =>
    cases v with
    | bool b => cases b <;> cases recursive <;> cases ss <;> rfl
    | _ => rfl

theorem isDefinitionAsItself_unplaced (p : Program) :
    isDefinitionAsItself (.ok p.unplaced) = isDefinitionAsItself (.ok p) := by
  obtain ⟨_ | ⟨s, ss⟩⟩ := p
  · rfl
  cases s with
  | expr e => rfl
  | define x v recursive =>
    cases v with
    | var y q => cases recursive <;> cases ss <;> rfl
    | _ => rfl

/-- Two definitions of one name are read as what they are when they are written out. -/
theorem parse_definitions_of_x :
    isDefinitionAsTrue (parse "let x = true") ∧ isDefinitionAsItself (parse "let rec x = x") := by
  have hx : Terminal.name.Spells "x" := by decide
  constructor
  · let p : Program := ⟨[.define "x" (.bool true) false]⟩
    have hp : p.Writable := ⟨List.cons_ne_nil _ _, List.forall_mem_singleton.2 ⟨hx, trivial⟩⟩
    obtain ⟨q, hq, hunplaced⟩ := (Program.render_laysOut hp).parse (Program.writes hp)
    rw [show ("let x = true" : Text) = p.render by decide, hq, ← isDefinitionAsTrue_unplaced,
      hunplaced]
    rfl
  · let p : Program := ⟨[.define "x" (.var "x" .start) true]⟩
    have hp : p.Writable := ⟨List.cons_ne_nil _ _, List.forall_mem_singleton.2 ⟨hx, hx⟩⟩
    obtain ⟨q, hq, hunplaced⟩ := (Program.render_laysOut hp).parse (Program.writes hp)
    rw [show ("let rec x = x" : Text) = p.render by decide, hq, ← isDefinitionAsItself_unplaced,
      hunplaced]
    rfl

/-- Reading undoes writing out, up to places: a program that is written out with every part that is
no atom in parentheses is read as this program, in one line with blanks between the tokens and
semicolons between the statements, and in any other layout. -/
theorem Program.parse_render (p : Program) (h : p.Writable) :
    (∃ q, parse p.render = .ok q ∧ q.unplaced = p.unplaced)
      ∧ ∀ source : Text, source.LaysOut p.words →
        ∃ q, parse source = .ok q ∧ q.unplaced = p.unplaced := by
  have hlayout : ∀ source : Text, source.LaysOut p.words →
      ∃ q, parse source = .ok q ∧ q.unplaced = p.unplaced := by
    intro source hsource
    obtain ⟨q, hq, hunplaced⟩ := hsource.parse (writes h)
    exact ⟨q, hq, hunplaced.trans p.unplaced_unplaced⟩
  exact ⟨hlayout _ (render_laysOut h), hlayout⟩

/-- A program of two statements, with a definition, two arms, an update and a string. -/
def Program.sample : Program where
  statements :=
    [.define "f" (.func "x" (.matchWith (.var "x" Position.start)
        (.cons (some "`Some") "y" (.field (.var "y" Position.start) "b")
          (.cons none "z" (.update (.var "z" Position.start)
            (.cons "b" (.number (Float.ofBits 0x3FF8000000000000)) .nil)) .nil)))) true,
      .expr (.binary .concat Position.start (.neg (.number (Binary.infinity false)))
        (.string ['"', '\n']))]

theorem Program.parse_render_sample :
    sample.render = Text.concat ["let rec f = ( fun x -> ( match x with | `Some y -> ( y . b ) ",
        "| z -> \x7b z | b = 1.5 \x7d ) );( - 1e999 ) ^ ", ['"', '\\', '"', '\\', 'n', '"']]
      ∧ ∃ q, parse sample.render = .ok q ∧ q.unplaced = sample.unplaced := by
  have hname : ∀ x ∈ [("f" : Text), "x", "y", "z", "b"], Terminal.name.Spells x := by decide
  have hfinite : ReadsBack (Float.ofBits 0x3FF8000000000000) := by
    have hexact : Binary.ofFloat (Float.ofBits 0x3FF8000000000000)
        = .finite false (3 * 2 ^ 51) (-52) := by decide +kernel
    exact ⟨by rw [hexact]; rfl, fun _ => by decide +kernel⟩
  have hinfinite : ReadsBack (Binary.infinity false) := by
    have hexact : Binary.ofFloat (Binary.infinity false) = .infinite false := by decide +kernel
    exact ⟨by rw [hexact]; rfl, fun h => absurd hexact h⟩
  have hf := hname "f" (by decide)
  have hx := hname "x" (by decide)
  have hy := hname "y" (by decide)
  have hz := hname "z" (by decide)
  have hb := hname "b" (by decide)
  refine ⟨by decide +kernel, (parse_render sample ⟨List.cons_ne_nil _ _, ?_⟩).1⟩
  refine List.forall_mem_cons.2 ⟨⟨hf, hx, hx, nofun, ?_, hy, ⟨hy, hb⟩, nofun, hz,
    ⟨hz, nofun, hb, hfinite, trivial⟩, trivial⟩, List.forall_mem_singleton.2 ⟨hinfinite, trivial⟩⟩
  rintro t ht
  cases ht
  rfl

end Toplevel
