import Toplevel.Proofs.Syntax.Quoted
import Toplevel.Proofs.Syntax.Statements

/-!
# Phrases and their meanings

Tokens write a meaning as a phrase (`Nonterminal.Writes`) if they are spelled as they are read and
have a derivation with this meaning. There is one lemma for rules (`Production.writes`), over the
meanings of their parts, and one for each rule that passes on the meaning of a tighter phrase.
-/

namespace Toplevel

/-- A token at no particular place. -/
def Tree.word (kind : Terminal) (text : Text) : Token := ⟨kind, text, 0, Position.start⟩

/-- A token of a kind that has but one spelling. -/
def Tree.mark (kind : Terminal) : Token := word kind (kind.spellings.headD [])

theorem Terminal.spells_of_spelling {t : Terminal} {w : Text} (h : w ∈ t.spellings) :
    t.Spells w := by
  have hall : ∀ t ∈ all, ∀ w ∈ t.spellings, t.lexeme? w = some (w, []) ∧ t ≠ name := by decide
  obtain ⟨hlexeme, hname⟩ := hall t t.mem_all w h
  exact ⟨hlexeme, fun heq => absurd heq hname⟩

/-- Tokens that are spelled as they are read, and write the meaning `m` as the symbol `s`. -/
structure Symbol.Writes (s : Symbol) (ts : List Token) (m : Meaning s) : Prop where
  spells : ∀ token ∈ ts, token.kind.Spells token.text
  tree : ∃ tree : Tree s, tree.tokens = ts ∧ tree.meaning? = .ok m

def Nonterminal.Writes (n : Nonterminal) (ts : List Token) (m : Meaning (.nonterminal n)) : Prop :=
  (Symbol.nonterminal n).Writes ts m

/-- Tokens that write some meanings, one behind the other. -/
structure Parts.Writes {ss : List Symbol} (ts : List Token) (parts : Parts Meaning ss) : Prop where
  spells : ∀ token ∈ ts, token.kind.Spells token.text
  forest : ∃ forest : Forest ss, forest.tokens = ts ∧ forest.meaning? = .ok parts

/-! ### Tokens -/

namespace Symbol

theorem writes_word {kind : Terminal} {text : Text} (hkind : kind ≠ .string)
    (h : kind.Spells text) :
    (terminal kind).Writes [Tree.word kind text] (⟨text, Position.start⟩ : Word) :=
  ⟨List.forall_mem_singleton.2 h, .leaf (Tree.word kind text), rfl, if_neg hkind⟩

/-- A keyword, an operator or a mark. -/
theorem writes_spelling {kind : Terminal} {text : Text} (h : text ∈ kind.spellings) :
    (terminal kind).Writes [Tree.word kind text] (⟨text, Position.start⟩ : Word) := by
  refine writes_word ?_ (Terminal.spells_of_spelling h)
  rintro rfl
  cases h

theorem writes_mark (kind : Terminal) (h : kind.spellings.isEmpty = false) :
    (terminal kind).Writes [Tree.mark kind]
      (⟨kind.spellings.headD [], Position.start⟩ : Word) := by
  refine writes_spelling ?_
  cases hspellings : kind.spellings with
  | nil =>
    rw [hspellings] at h
    cases h
  | cons w ws => exact List.mem_cons_self

theorem writes_jsonQuoted (s : Text) :
    (terminal .string).Writes [Tree.word .string s.jsonQuoted] (⟨s, Position.start⟩ : Word) :=
  ⟨List.forall_mem_singleton.2 s.spells_jsonQuoted, .leaf (Tree.word .string s.jsonQuoted), rfl,
    Meaning.ofToken_jsonQuoted s 0 Position.start⟩

end Symbol

/-! ### Rules -/

namespace Parts.Writes

variable {s : Symbol} {ss : List Symbol} {ts us : List Token} {m : Meaning s}
  {parts : Parts Meaning ss}

theorem last (h : s.Writes ts m) : @Writes [s] ts (m, ()) := by
  obtain ⟨tree, rfl, hm⟩ := h.tree
  exact ⟨h.spells, .cons tree .nil, List.append_nil _, Forest.meaning?_cons_eq_ok.2 ⟨hm, rfl⟩⟩

theorem cons (h : s.Writes ts m) (hs : Writes us parts) :
    @Writes (s :: ss) (ts ++ us) (m, parts) := by
  obtain ⟨tree, rfl, hm⟩ := h.tree
  obtain ⟨forest, rfl, hms⟩ := hs.forest
  exact ⟨List.forall_mem_append.2 ⟨h.spells, hs.spells⟩, .cons tree forest, rfl,
    Forest.meaning?_cons_eq_ok.2 ⟨hm, hms⟩⟩

theorem mark {kind : Terminal} (h : kind.spellings.isEmpty = false) (hs : Writes us parts) :
    @Writes (.terminal kind :: ss) (Tree.mark kind :: us)
      (⟨kind.spellings.headD [], Position.start⟩, parts) :=
  .cons (Symbol.writes_mark kind h) hs

theorem word {kind : Terminal} (hkind : kind ≠ .string) {text : Text} (h : kind.Spells text)
    (hs : Writes us parts) : @Writes (.terminal kind :: ss) (Tree.word kind text :: us)
      (⟨text, Position.start⟩, parts) :=
  .cons (Symbol.writes_word hkind h) hs

end Parts.Writes

/-- A rule writes what it makes of the meanings of its parts. -/
theorem Production.writes (p : Production) {ts : List Token} {parts : Parts Meaning p.rhs}
    (h : parts.Writes ts) : p.lhs.Writes ts (Meaning.ofRule p parts) := by
  obtain ⟨forest, rfl, hparts⟩ := h.forest
  exact ⟨h.spells, .node p forest, rfl, Tree.meaning?_node_eq_ok.2 ⟨parts, hparts, rfl⟩⟩

/-! ### Expressions

An atom is an expression on every level, and so is any phrase on the levels above its own. -/

namespace Nonterminal.Writes

variable {ts : List Token} {e : Expr}

theorem simple (h : Nonterminal.atom.Writes ts e) : Nonterminal.simple.Writes ts e :=
  Production.simpleAtom.writes (.last h)

theorem call (h : Nonterminal.simple.Writes ts e) : Nonterminal.call.Writes ts e :=
  Production.callSimple.writes (.last h)

theorem callTagged (h : Nonterminal.tagged.Writes ts e) : Nonterminal.call.Writes ts e :=
  Production.callTagged.writes (.last h)

theorem unary (h : Nonterminal.call.Writes ts e) : Nonterminal.unary.Writes ts e :=
  Production.unaryCall.writes (.last h)

theorem product (h : Nonterminal.unary.Writes ts e) : Nonterminal.product.Writes ts e :=
  Production.productUnary.writes (.last h)

theorem sum (h : Nonterminal.product.Writes ts e) : Nonterminal.sum.Writes ts e :=
  Production.sumProduct.writes (.last h)

theorem concat (h : Nonterminal.sum.Writes ts e) : Nonterminal.concat.Writes ts e :=
  Production.concatSum.writes (.last h)

theorem compare (h : Nonterminal.concat.Writes ts e) : Nonterminal.compare.Writes ts e :=
  Production.compareConcat.writes (.last h)

theorem assign (h : Nonterminal.compare.Writes ts e) : Nonterminal.assign.Writes ts e :=
  Production.assignCompare.writes (.last h)

theorem expr (h : Nonterminal.assign.Writes ts e) : Nonterminal.expr.Writes ts e :=
  Production.exprAssign.writes (.last h)

end Nonterminal.Writes

/-! ### Fields -/

namespace Fields

open Toplevel.Tree

theorem append_nil (fs : Fields) : fs.append .nil = fs := by
  cases fs with
  | nil => rfl
  | cons x v rest => rw [append, append_nil rest]

theorem append_assoc : ∀ fs gs hs : Fields, (fs.append gs).append hs = fs.append (gs.append hs)
  | .nil, _, _ => rfl
  | .cons x v rest, gs, hs => by rw [append, append, append_assoc rest]; rfl

theorem writes_one {x : Text} (hx : Terminal.name.Spells x) {ts : List Token} {e : Expr}
    (he : Nonterminal.expr.Writes ts e) :
    Nonterminal.field.Writes ([word .name x, mark .equals] ++ ts) (cons x e .nil) :=
  Production.field.writes (.word (by decide) hx (.mark rfl (.last he)))

/-- The tokens of fields with semicolons in front of them: these fields may stand behind other such
fields, and by themselves if there is one. -/
structure Further (fs : Fields) (ts : List Token) : Prop where
  behind : ∀ {us : List Token} {gs : Fields}, Nonterminal.moreFields.Writes us gs →
    Nonterminal.moreFields.Writes (us ++ ts) (gs.append fs)
  alone : (fs = .nil ∧ ts = []) ∨ Nonterminal.moreFields.Writes ts fs

namespace Further

theorem nil : Further .nil [] where
  behind {us gs} h := by
    rw [append_nil, List.append_nil]
    exact h
  alone := Or.inl ⟨rfl, rfl⟩

variable {fs : Fields} {x : Text} {e : Expr} {ts us : List Token}

theorem cons (hrest : fs.Further us) (hx : Terminal.name.Spells x)
    (he : Nonterminal.expr.Writes ts e) :
    (Fields.cons x e fs).Further
      (mark .semicolon :: word .name x :: mark .equals :: (ts ++ us)) where
  behind {us' gs} h := by
    have hnext : Nonterminal.moreFields.Writes
        (us' ++ mark .semicolon :: ([word .name x, mark .equals] ++ ts))
        (gs.append (.cons x e .nil)) :=
      Production.moreFieldsNext.writes (.cons h (.mark rfl (.last (writes_one hx he))))
    have hall := hrest.behind hnext
    rw [append_assoc, List.append_assoc] at hall
    exact hall
  alone := by
    have hone : Nonterminal.moreFields.Writes
        (mark .semicolon :: ([word .name x, mark .equals] ++ ts)) (Fields.cons x e .nil) :=
      Production.moreFieldsOne.writes (.mark rfl (.last (writes_one hx he)))
    exact Or.inr (hrest.behind hone)

/-- A record of some fields: the first, and the others behind it. -/
theorem record (hrest : fs.Further us) (hx : Terminal.name.Spells x)
    (he : Nonterminal.expr.Writes ts e) :
    Nonterminal.atom.Writes
      (mark .leftBrace :: word .name x :: mark .equals :: (ts ++ (us ++ [mark .rightBrace])))
      (Expr.record (.cons x e fs)) := by
  have hone := writes_one hx he
  have hclose := Symbol.writes_mark .rightBrace rfl
  rcases hrest.alone with ⟨rfl, rfl⟩ | hmore
  · exact Production.recordOne.writes (.mark rfl (.cons hone (.last hclose)))
  · exact Production.recordMore.writes (.mark rfl (.cons hone (.cons hmore (.last hclose))))

theorem update (hrest : fs.Further us) {b : Expr} {bs : List Token}
    (hb : Nonterminal.simple.Writes bs b) (hx : Terminal.name.Spells x)
    (he : Nonterminal.expr.Writes ts e) :
    Nonterminal.atom.Writes (mark .leftBrace :: (bs ++ mark .bar :: word .name x :: mark .equals ::
      (ts ++ (us ++ [mark .rightBrace]))))
      (Expr.update b (.cons x e fs)) := by
  have hone := writes_one hx he
  have hclose := Symbol.writes_mark .rightBrace rfl
  rcases hrest.alone with ⟨rfl, rfl⟩ | hmore
  · exact Production.updateOne.writes (.mark rfl (.cons hb (.mark rfl (.cons hone
      (.last hclose)))))
  · exact Production.updateMore.writes (.mark rfl (.cons hb (.mark rfl (.cons hone
      (.cons hmore (.last hclose))))))

end Further

end Fields

end Toplevel
