import Mathlib.Data.List.Nodup
import Mathlib.Data.List.TakeWhile
import Toplevel.Proofs.Code.Scope
import Toplevel.Proofs.Number.Literal
import Toplevel.Proofs.Syntax.Reading
import Toplevel.Proofs.Syntax.Unplaced

/-!
# The names in compiled code

A source gives names and tags to a program only through tokens, so that every field of a record in
its code is spelled like a name and every tag like a tag; and no record has a field twice
(`compileSource_named`).
-/

namespace Toplevel

/-- A text that is read as a name, as a whole. -/
def Text.IsName (x : Text) : Prop := Terminal.name.lexeme? x = some (x, [])

/-- A text that is read as a tag, as a whole. -/
def Text.IsTag (t : Text) : Prop := Terminal.tag.lexeme? t = some (t, [])

/-! ### Tokens -/

theorem Text.isName_of_lexeme? {s x rest : Text} (h : Terminal.name.lexeme? s = some (x, rest)) :
    x.IsName := by
  cases s with
  | nil => cases h
  | cons c s =>
    simp only [Terminal.lexeme?, Lexeme.word?] at h
    split at h
    · rename_i hc
      cases h
      have hall : ∀ d ∈ s.takeWhile CodePoint.isWord, d.isWord = true :=
        fun _ => List.mem_takeWhile_imp
      simp only [IsName, Terminal.lexeme?, Lexeme.word?, if_pos hc,
        List.takeWhile_eq_self_iff.2 hall, List.dropWhile_eq_nil_iff.2 hall]
    · cases h

theorem Text.isTag_of_lexeme? {s t rest : Text} (h : Terminal.tag.lexeme? s = some (t, rest)) :
    t.IsTag := by
  cases s with
  | nil => cases h
  | cons c s =>
    simp only [Terminal.lexeme?, Lexeme.tag?] at h
    split at h
    · rename_i hc
      cases h
      have hall : ∀ d ∈ s.takeWhile CodePoint.isWord, d.isWord = true :=
        fun _ => List.mem_takeWhile_imp
      have hc' : (c = ('`' : CodePoint)
          && (s.takeWhile CodePoint.isWord).head?.any CodePoint.isWord) = true := by
        rw [← hc]
        cases s with
        | nil => rfl
        | cons d s => by_cases hd : d.isWord <;> simp [hd]
      simp only [IsTag, Terminal.lexeme?, Lexeme.tag?, if_pos hc',
        List.takeWhile_eq_self_iff.2 hall, List.dropWhile_eq_nil_iff.2 hall]
    · cases h

/-- A token whose text is what its kind is spelled like, if it is a name or a tag. -/
structure Token.Named (token : Token) : Prop where
  name : token.kind = .name → token.text.IsName
  tag : token.kind = .tag → token.text.IsTag

theorem Cursor.Reads.named {c c' : Cursor} {q q' : Nat} {ts : List Token} {qs : List Nat}
    (h : c.Reads q ts qs c' q') : ∀ token ∈ ts, token.Named := by
  induction h with
  | refl => exact nofun
  | token htoken _ ih =>
    intro t ht
    rcases List.mem_cons.1 ht with rfl | ht
    · have hlexeme := (token?_eq_some htoken).2.1
      constructor <;> intro hkind <;> rw [hkind] at hlexeme
      · exact Text.isName_of_lexeme? hlexeme
      · exact Text.isTag_of_lexeme? hlexeme
    · exact ih t ht

theorem Tree.named_of_ofSource {source : Text} {tree : Tree (.nonterminal .program)}
    (h : Tree.ofSource source = .ok tree) : ∀ token ∈ tree.tokens, token.Named := by
  obtain ⟨c, q, hreads, -⟩ := ofSource_eq_ok_iff.1 h
  exact hreads.named

/-! ### Expressions -/

mutual

/-- Variables and the fields of records are names, tags are tags, and numbers have no sign. -/
def Expr.Named : Expr → Prop
  | .number x => (Binary.ofFloat x).Unsigned
  | .string _ | .bool _ => True
  | .var x _ => x.IsName
  | .func x b => x.IsName ∧ b.Named
  | .apply f a => f.Named ∧ a.Named
  | .letIn x v b => x.IsName ∧ v.Named ∧ b.Named
  | .ifElse c y n => c.Named ∧ y.Named ∧ n.Named
  | .matchWith s as => s.Named ∧ as.Named
  | .binary _ _ l r => l.Named ∧ r.Named
  | .neg a => a.Named
  | .deref a => a.Named
  | .assign t v => t.Named ∧ v.Named
  | .record fs => fs.Named
  | .update b fs => b.Named ∧ fs.Named
  | .field b _ => b.Named
  | .tagged t p => t.IsTag ∧ p.Named
  | .newRef a => a.Named

def Arms.Named : Arms → Prop
  | .nil => True
  | .cons _ x b rest => x.IsName ∧ b.Named ∧ rest.Named

def Fields.Named : Fields → Prop
  | .nil => True
  | .cons x v rest => x.IsName ∧ v.Named ∧ rest.Named

end

def Statement.Named : Statement → Prop
  | .define x v _ => x.IsName ∧ v.Named
  | .expr e => e.Named

structure Program.Named (p : Program) : Prop where
  nonempty : p.statements ≠ []
  statements : ∀ s ∈ p.statements, s.Named

theorem Arms.named_append {as bs : Arms} (ha : as.Named) (hb : bs.Named) :
    (as.append bs).Named := by
  match as with
  | .nil => exact hb
  | .cons _ _ _ rest => exact ⟨ha.1, ha.2.1, named_append ha.2.2 hb⟩

theorem Fields.named_append {fs gs : Fields} (hf : fs.Named) (hg : gs.Named) :
    (fs.append gs).Named := by
  match fs with
  | .nil => exact hg
  | .cons _ _ rest => exact ⟨hf.1, hf.2.1, named_append hf.2.2 hg⟩

/-! ### What trees mean -/

/-- What the names are in the meaning of a symbol. -/
def Meaning.Named : (s : Symbol) → Meaning s → Prop
  | .terminal .name => fun w => Text.IsName (Word.text w)
  | .terminal .tag => fun w => Text.IsTag (Word.text w)
  | .terminal _ => fun _ => True
  | .nonterminal .program => Program.Named
  | .nonterminal .statements => fun ss : List Statement => ss ≠ [] ∧ ∀ s ∈ ss, s.Named
  | .nonterminal .moreStatements => fun ss : List Statement => ∀ s ∈ ss, s.Named
  | .nonterminal .statement => Statement.Named
  | .nonterminal .arms | .nonterminal .arm => Arms.Named
  | .nonterminal .pattern => fun p : Option Text × Text => p.2.IsName
  | .nonterminal .moreFields | .nonterminal .field => Fields.Named
  | .nonterminal .expr | .nonterminal .assign | .nonterminal .compare | .nonterminal .concat
  | .nonterminal .sum | .nonterminal .product | .nonterminal .unary | .nonterminal .call
  | .nonterminal .tagged | .nonterminal .simple | .nonterminal .atom => Expr.Named

def Parts.Named : (ss : List Symbol) → Parts Meaning ss → Prop
  | [], () => True
  | s :: ss, (m, ms) => Meaning.Named s m ∧ Named ss ms

theorem Meaning.ofRule_named (p : Production) {parts : Parts Meaning p.rhs}
    (h : parts.Named p.rhs) : Named (.nonterminal p.lhs) (ofRule p parts) := by
  cases p with
  | program => exact ⟨h.1.1, h.1.2⟩
  | statementsMoreEnd | statementsMore =>
    exact ⟨List.cons_ne_nil _ _, List.forall_mem_cons.2 ⟨h.1, h.2.1⟩⟩
  | statementsEnd | statementsOne =>
    exact ⟨List.cons_ne_nil _ _, List.forall_mem_singleton.2 h.1⟩
  | moreStatementsOne => exact List.forall_mem_singleton.2 h.2.1
  | moreStatementsNext =>
    exact List.forall_mem_append.2 ⟨h.1, List.forall_mem_singleton.2 h.2.2.1⟩
  | define => exact ⟨h.2.1, h.2.2.2.1⟩
  | defineRec => exact ⟨h.2.2.1, h.2.2.2.2.1⟩
  | func => exact ⟨h.2.1, h.2.2.2.1⟩
  | letIn => exact ⟨h.2.1, h.2.2.2.1, h.2.2.2.2.2.1⟩
  | ifElse => exact ⟨h.2.1, h.2.2.2.1, h.2.2.2.2.2.1⟩
  | matchWith => exact ⟨h.2.1, h.2.2.2.1⟩
  | armsNext => exact Arms.named_append h.1 h.2.1
  | arm => exact ⟨h.2.1, h.2.2.2.1, trivial⟩
  | number => exact Binary.unsigned_floatOfLiteral _
  | tagPattern => exact h.2.1
  | assign | compare | concat | plus | minus | product => exact ⟨h.1, h.2.2.1⟩
  | neg | deref | newRef | parens | moreFieldsOne => exact h.2.1
  | apply | applyTagged | taggedSimple | taggedTagged => exact ⟨h.1, h.2.1⟩
  | string | trueLit | falseLit | recordEmpty => exact trivial
  | recordOne | recordOneEnd => exact h.2.1
  | recordMore | recordMoreEnd => exact Fields.named_append h.2.1 h.2.2.1
  | updateOne | updateOneEnd => exact ⟨h.2.1, h.2.2.2.1⟩
  | updateMore | updateMoreEnd => exact ⟨h.2.1, Fields.named_append h.2.2.2.1 h.2.2.2.2.1⟩
  | moreFieldsNext => exact Fields.named_append h.1 h.2.2.1
  | field => exact ⟨h.1, h.2.2.1, trivial⟩
  | _ => exact h.1

theorem Meaning.ofToken_named {token : Token} (h : token.Named) {w : Word}
    (hw : ofToken token = .ok w) : Named (.terminal token.kind) w := by
  obtain ⟨kind, text, offset, position⟩ := token
  cases kind with
  | name =>
    cases hw
    exact h.name rfl
  | tag =>
    cases hw
    exact h.tag rfl
  | _ => exact trivial

/-- What a tree means has the names of the tokens. -/
theorem Tree.named_meaning? {s : Symbol} {tree : Tree s}
    (h : ∀ token ∈ tree.tokens, token.Named) {m : Meaning s} (hm : tree.meaning? = .ok m) :
    Meaning.Named s m := by
  refine meaning?_induction
    (P := fun s tree m => (∀ token ∈ tree.tokens, token.Named) → Meaning.Named s m)
    (Q := fun ss forest ms => (∀ token ∈ forest.tokens, token.Named) → ms.Named ss)
    ?leaf ?node ?nil ?cons hm h
  case leaf =>
    intro token w hw h
    exact Meaning.ofToken_named (h token List.mem_cons_self) hw
  case node =>
    intro p children parts _ ih h
    exact Meaning.ofRule_named p (ih h)
  case nil =>
    intro _
    exact trivial
  case cons =>
    intro s ss tree rest m ms ihTree ihRest h
    exact ⟨ihTree fun t ht => h t (List.mem_append_left _ ht),
      ihRest fun t ht => h t (List.mem_append_right _ ht)⟩

theorem parse_named {source : Text} {p : Program} (h : parse source = .ok p) : p.Named := by
  unfold parse at h
  split at h
  · cases h
  · rename_i tree htree
    split at h
    · cases h
    · rename_i hm
      cases h
      exact Tree.named_meaning? (Tree.named_of_ofSource htree) hm

/-! ### Code -/

def Entries.names : Entries → List Text
  | .nil => []
  | .cons x _ rest => x :: rest.names

mutual

/-- The fields of records are names, and no record has one twice; and tags are tags. -/
def Code.Named : Code → Prop
  | .number _ | .string _ | .bool _ | .localVar _ | .globalVar _ => True
  | .lambda _ b => b.Named
  | .call f a => f.Named ∧ a.Named
  | .ifElse c y n => c.Named ∧ y.Named ∧ n.Named
  | .matchOn s cs => s.Named ∧ cs.Named
  | .binary _ l r => l.Named ∧ r.Named
  | .remainder l r => l.Named ∧ r.Named
  | .neg a => a.Named
  | .deref a => a.Named
  | .assign t v => t.Named ∧ v.Named
  | .record es => es.Named ∧ es.names.Nodup
  | .extend b es => b.Named ∧ es.Named ∧ es.names.Nodup
  | .field b _ => b.Named
  | .tagged t p => t.IsTag ∧ p.Named
  | .newRef a => a.Named

def Cases.Named : Cases → Prop
  | .nil => True
  | .otherwise _ b => b.Named
  | .cons _ _ b rest => b.Named ∧ rest.Named

def Entries.Named : Entries → Prop
  | .nil => True
  | .cons x c rest => x.IsName ∧ c.Named ∧ rest.Named

end

def Step.Named : Step → Prop
  | .define _ c => c.Named
  | .expr c => c.Named

structure Compiled.Named (c : Compiled) : Prop where
  nonempty : c.steps ≠ []
  steps : ∀ s ∈ c.steps, s.Named

theorem BinaryOp.compile_named {l r : Code} (hl : l.Named) (hr : r.Named) (op : BinaryOp) :
    (op.compile l r).Named := by
  cases op <;> exact ⟨hl, hr⟩

section

variable {globals : Bindings}

mutual

theorem Expr.HasCode.named : ∀ {scope : List Text} {e : Expr} {c : Code},
    e.HasCode globals scope c → e.Named → c.Named
  | _, _, _, .number _, _ | _, _, _, .string _, _ | _, _, _, .bool _, _
  | _, _, _, .localVar _ _, _ | _, _, _, .globalVar _ _ _, _ => trivial
  | _, _, .lambda _ c, .func hb, hn => (hb.named hn.2 : c.Named)
  | _, _, _, .apply hf ha, hn => ⟨hf.named hn.1, ha.named hn.2⟩
  | _, _, .call (.lambda _ d) _, .letIn hv hb, hn =>
    ⟨(hb.named hn.2.2 : d.Named), hv.named hn.2.1⟩
  | _, _, _, .ifElse he hy hno, hn => ⟨he.named hn.1, hy.named hn.2.1, hno.named hn.2.2⟩
  | _, _, _, .matchWith hs has, hn => ⟨hs.named hn.1, has.named hn.2⟩
  | _, _, _, .binary op _ hl hr, hn => op.compile_named (hl.named hn.1) (hr.named hn.2)
  | _, _, .neg c, .neg ha, hn | _, _, .deref c, .deref ha, hn | _, _, .newRef c, .newRef ha, hn
  | _, _, .field c _, .field ha _, hn => (ha.named hn : c.Named)
  | _, _, _, .assign ht hv, hn => ⟨ht.named hn.1, hv.named hn.2⟩
  | _, _, _, .record hfs, hn => by
    obtain ⟨hnamed, hnodup, -⟩ := hfs.named hn
    exact ⟨hnamed, hnodup⟩
  | _, _, _, .update hb hfs, hn => by
    obtain ⟨hnamed, hnodup, -⟩ := hfs.named hn.2
    exact ⟨hb.named hn.1, hnamed, hnodup⟩
  | _, _, _, .tagged _ ha, hn => ⟨hn.1, ha.named hn.2⟩

theorem Arms.HaveCode.named : ∀ {scope tags : List Text} {as : Arms} {cs : Cases},
    as.HaveCode globals scope tags cs → as.Named → cs.Named
  | _, _, _, _, .nil, _ => trivial
  | _, _, _, .otherwise _ c, .otherwise hb, hn => (hb.named hn.2.1 : c.Named)
  | _, _, _, _, .cons _ hb hrest, hn => ⟨hb.named hn.2.1, hrest.named hn.2.2⟩

theorem Fields.HaveCode.named : ∀ {scope names : List Text} {fs : Fields} {es : Entries},
    fs.HaveCode globals scope names es → fs.Named →
      es.Named ∧ es.names.Nodup ∧ ∀ x ∈ es.names, x ∉ names
  | _, _, _, _, .nil, _ => ⟨trivial, List.nodup_nil, nofun⟩
  | _, _, _, _, .cons (x := x) hx hv hrest, hn => by
    obtain ⟨hnamed, hnodup, hnew⟩ := hrest.named hn.2.2
    refine ⟨⟨hn.1, hv.named hn.2.1, hnamed⟩, ?_, ?_⟩
    · exact List.nodup_cons.2 ⟨fun hmem => hnew x hmem List.mem_cons_self, hnodup⟩
    · intro y hy
      rcases List.mem_cons.1 hy with rfl | hy
      · exact hx
      · exact fun hmem => hnew y hy (List.mem_cons_of_mem x hmem)

end

end

theorem compileAll_named {ss : List Statement} {d d' : Definitions} {steps : List Step}
    (h : compileAll d ss = .ok (steps, d')) (hss : ∀ s ∈ ss, s.Named) :
    steps.length = ss.length ∧ ∀ s ∈ steps, s.Named := by
  induction ss generalizing d steps with
  | nil =>
    cases h
    exact ⟨rfl, nofun⟩
  | cons s ss ih =>
    obtain ⟨step, d₁, rest, rfl, hs, hrest⟩ := compileAll_cons_eq_ok_iff.1 h
    obtain ⟨hlength, hnamed⟩ := ih hrest fun s hs => hss s (List.mem_cons_of_mem _ hs)
    have hsn := hss s List.mem_cons_self
    refine ⟨congrArg (· + 1) hlength, List.forall_mem_cons.2 ⟨?_, hnamed⟩⟩
    cases Statement.compile?_eq_ok_iff.1 hs with
    | define x recursive hv => exact hv.named hsn.2
    | expr he => exact he.named hsn

/-- The code of a source that compiles has at least one step, and only names in it. -/
theorem compileSource_named {source : Text} {d d' : Definitions} {code : Compiled}
    (h : compileSource source d = .ok (code, d')) : code.Named := by
  obtain ⟨p, hp, hall⟩ := exists_compileAll h
  obtain ⟨hnonempty, hstatements⟩ := parse_named hp
  obtain ⟨hlength, hnamed⟩ := compileAll_named hall hstatements
  refine ⟨?_, hnamed⟩
  rw [← List.length_pos_iff, hlength]
  exact List.length_pos_iff.2 hnonempty

end Toplevel
