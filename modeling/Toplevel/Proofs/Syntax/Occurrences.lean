import Toplevel.Proofs.Syntax.Statements
import Toplevel.Proofs.Syntax.Trimmed

/-!
# Where variables and operators stand

The variables and binary operators of a program, from left to right, are among the tokens of its
source, in the order in which they stand there (`Tree.meaning?_signs`). Each token stands behind the
one before it (`Cursor.Reads.increasing`), so the places of the variables increase (`parse_vars`).
-/

namespace Toplevel

/-! ### The order of places -/

namespace Position

/-- One place comes before another: on an earlier line, or further to the left on the same. -/
def Before (p q : Position) : Prop := p.line < q.line ∨ p.line = q.line ∧ p.column < q.column

variable {p q r : Position}

theorem Before.trans (h : p.Before q) (h' : q.Before r) : p.Before r := by
  unfold Before at *
  omega

theorem before_after (p : Position) (c : CodePoint) : p.Before (p.after c) := by
  rw [after]
  split
  · exact .inl (Nat.lt_succ_self _)
  · exact .inr ⟨rfl, Nat.lt_succ_self _⟩

theorem before_afterText {t : Text} (ht : t ≠ []) : p.Before (p.afterText t) := by
  induction t generalizing p with
  | nil => exact absurd rfl ht
  | cons c t ih =>
    by_cases hnil : t = []
    · rw [hnil]
      exact p.before_after c
    · exact (p.before_after c).trans (ih hnil)

end Position

namespace Cursor

variable {s : Text} {c d : Cursor}

/-- Of two places of a source, the one that more of the source follows comes first. -/
theorem Of.before (hc : c.Of s) (hd : d.Of s) (hlt : d.rest.length < c.rest.length) :
    c.position.Before d.position := by
  obtain ⟨u, hu, -, hpos⟩ := hc
  obtain ⟨v, hv, -, hpos'⟩ := hd
  have hlength := congrArg List.length (hu.symm.trans hv)
  rw [List.length_append, List.length_append] at hlength
  have hprefix : u <+: v := List.prefix_of_prefix_length_le (hu ▸ List.prefix_append u c.rest)
    (hv ▸ List.prefix_append v d.rest) (by omega)
  obtain ⟨w, rfl⟩ := hprefix
  rw [hpos, hpos', Position.afterText_append]
  refine Position.before_afterText ?_
  rintro rfl
  rw [List.append_nil] at hlength
  omega

/-- Each token stands behind the one before it. -/
theorem Reads.increasing {c' : Cursor} {q q' : Nat} {ts : List Token} {qs : List Nat}
    (h : c.Reads q ts qs c' q') (hc : c.Of s) :
    ts.Pairwise (fun t u => t.position.Before u.position)
      ∧ ∀ t ∈ ts, ∃ d : Cursor, d.Of s ∧ d.position = t.position
        ∧ d.rest.length ≤ c.rest.length := by
  induction h with
  | refl => exact ⟨.nil, nofun⟩
  | @token c c₁ _ _ _ _ token ts _ htoken _ ih =>
    have hskip := hc.skip
    have hlt := token?_length_lt htoken
    have hle := c.length_skip_le
    obtain ⟨-, -, -, hposition, -⟩ := token?_eq_some htoken
    obtain ⟨hpairwise, hplaces⟩ := ih (hskip.token? htoken)
    refine ⟨.cons (fun t ht => ?_) hpairwise, List.forall_mem_cons.2 ⟨?_, fun t ht => ?_⟩⟩
    · obtain ⟨d, hd, hpos, hrest⟩ := hplaces t ht
      rw [hposition, ← hpos]
      exact hskip.before hd (by omega)
    · exact ⟨_, hskip, hposition.symm, hle⟩
    · obtain ⟨d, hd, hpos, hrest⟩ := hplaces t ht
      exact ⟨d, hd, hpos, by omega⟩

end Cursor

/-! ### Variables -/

mutual

/-- The variables of an expression from left to right, each with its place. -/
def Expr.vars : Expr → List (Text × Position)
  | .number _ | .string _ | .bool _ => []
  | .var x p => [(x, p)]
  | .func _ a | .neg a | .deref a | .newRef a | .field a _ | .tagged _ a => a.vars
  | .apply a b | .letIn _ a b | .binary _ _ a b | .assign a b => a.vars ++ b.vars
  | .ifElse c y n => c.vars ++ (y.vars ++ n.vars)
  | .matchWith s as => s.vars ++ as.vars
  | .record fs => fs.vars
  | .update b fs => b.vars ++ fs.vars

def Arms.vars : Arms → List (Text × Position)
  | .nil => []
  | .cons _ _ b rest => b.vars ++ rest.vars

def Fields.vars : Fields → List (Text × Position)
  | .nil => []
  | .cons _ v rest => v.vars ++ rest.vars

end

def Statement.vars : Statement → List (Text × Position)
  | .define _ v _ => v.vars
  | .expr e => e.vars

def Program.vars (p : Program) : List (Text × Position) :=
  p.statements.flatMap Statement.vars

/-! ### Variables and operators -/

/-- What of a program remembers its place: a variable or a binary operator. -/
inductive Sign where
  | var (name : Text)
  | op (op : BinaryOp)
deriving DecidableEq

def Sign.var? : Sign × Position → Option (Text × Position)
  | (.var x, q) => some (x, q)
  | (.op _, _) => none

mutual

/-- The variables and operators of an expression from left to right, each with its place. -/
def Expr.signs : Expr → List (Sign × Position)
  | .number _ | .string _ | .bool _ => []
  | .var x p => [(.var x, p)]
  | .func _ a | .neg a | .deref a | .newRef a | .field a _ | .tagged _ a => a.signs
  | .apply a b | .letIn _ a b | .assign a b => a.signs ++ b.signs
  | .binary op p a b => a.signs ++ (.op op, p) :: b.signs
  | .ifElse c y n => c.signs ++ (y.signs ++ n.signs)
  | .matchWith s as => s.signs ++ as.signs
  | .record fs => fs.signs
  | .update b fs => b.signs ++ fs.signs

def Arms.signs : Arms → List (Sign × Position)
  | .nil => []
  | .cons _ _ b rest => b.signs ++ rest.signs

def Fields.signs : Fields → List (Sign × Position)
  | .nil => []
  | .cons _ v rest => v.signs ++ rest.signs

end

def Statement.signs : Statement → List (Sign × Position)
  | .define _ v _ => v.signs
  | .expr e => e.signs

def Program.signs (p : Program) : List (Sign × Position) :=
  p.statements.flatMap Statement.signs

mutual

theorem Expr.vars_eq : ∀ e : Expr, e.vars = e.signs.filterMap Sign.var?
  | .number _ | .string _ | .bool _ | .var .. => rfl
  | .func _ a | .neg a | .deref a | .newRef a | .field a _ | .tagged _ a => a.vars_eq
  | .apply a b | .letIn _ a b | .assign a b => by
    rw [Expr.vars, Expr.signs, List.filterMap_append, a.vars_eq, b.vars_eq]
  | .binary op p a b => by
    rw [Expr.vars, Expr.signs, List.filterMap_append, List.filterMap_cons_none rfl, a.vars_eq,
      b.vars_eq]
  | .ifElse c y n => by
    rw [Expr.vars, Expr.signs, List.filterMap_append, List.filterMap_append, c.vars_eq, y.vars_eq,
      n.vars_eq]
  | .matchWith s as => by
    rw [Expr.vars, Expr.signs, List.filterMap_append, s.vars_eq, as.vars_eq]
  | .record fs => fs.vars_eq
  | .update b fs => by
    rw [Expr.vars, Expr.signs, List.filterMap_append, b.vars_eq, fs.vars_eq]

theorem Arms.vars_eq : ∀ as : Arms, as.vars = as.signs.filterMap Sign.var?
  | .nil => rfl
  | .cons _ _ b rest => by
    rw [Arms.vars, Arms.signs, List.filterMap_append, b.vars_eq, rest.vars_eq]

theorem Fields.vars_eq : ∀ fs : Fields, fs.vars = fs.signs.filterMap Sign.var?
  | .nil => rfl
  | .cons _ v rest => by
    rw [Fields.vars, Fields.signs, List.filterMap_append, v.vars_eq, rest.vars_eq]

end

theorem Program.vars_eq (p : Program) : p.vars = p.signs.filterMap Sign.var? := by
  rw [vars, signs, List.filterMap_flatMap]
  refine congrArg (List.flatMap · p.statements) (funext fun s => ?_)
  cases s with
  | define _ v _ => exact v.vars_eq
  | expr e => exact e.vars_eq

/-! What is put together from parts has their signs in order, whatever follows. -/

section

variable (r : List (Sign × Position))

theorem Arms.signs_append (as bs : Arms) :
    (as.append bs).signs.Sublist (as.signs ++ (bs.signs ++ r)) := by
  cases as with
  | nil => exact List.sublist_append_left _ _
  | cons tag x b rest =>
    rw [Arms.append, Arms.signs, Arms.signs, List.append_assoc]
    exact (List.append_sublist_append_left _).2 (rest.signs_append bs)

theorem Fields.signs_append (fs gs : Fields) :
    (fs.append gs).signs.Sublist (fs.signs ++ (gs.signs ++ r)) := by
  cases fs with
  | nil => exact List.sublist_append_left _ _
  | cons x v rest =>
    rw [Fields.append, Fields.signs, Fields.signs, List.append_assoc]
    exact (List.append_sublist_append_left _).2 (rest.signs_append gs)

theorem Statement.signs_concat (ss : List Statement) (s : Statement) :
    ((ss ++ [s]).flatMap signs).Sublist (ss.flatMap signs ++ (s.signs ++ r)) := by
  rw [List.flatMap_append, List.flatMap_singleton]
  exact (List.append_sublist_append_left _).2 (List.sublist_append_left _ _)

end

/-! ### What trees mean -/

/-- What a token of a kind is in a tree: a name may be a variable, and what looks like an operator
one. -/
def Terminal.sign? : Terminal → Text → Option Sign
  | name, x => some (.var x)
  | compareOp, t => some (.op (BinaryOp.find BinaryOp.comparisons t .greater))
  | caret, t => some (.op (BinaryOp.find [.concat] t .concat))
  | plus, t => some (.op (BinaryOp.find [.plus] t .plus))
  | minus, t => some (.op (BinaryOp.find [.minus] t .minus))
  | productOp, t => some (.op (BinaryOp.find BinaryOp.products t .remainder))
  | _, _ => none

/-- The signs in the meaning of a symbol; a token may be one. -/
def Meaning.signs : (s : Symbol) → Meaning s → List (Sign × Position)
  | .terminal t => fun w => ((t.sign? (Word.text w)).map (·, Word.position w)).toList
  | .nonterminal .program => Program.signs
  | .nonterminal .statements | .nonterminal .moreStatements => List.flatMap Statement.signs
  | .nonterminal .statement => Statement.signs
  | .nonterminal .arms | .nonterminal .arm => Arms.signs
  | .nonterminal .pattern => fun _ => []
  | .nonterminal .moreFields | .nonterminal .field => Fields.signs
  | .nonterminal .expr | .nonterminal .assign | .nonterminal .compare | .nonterminal .concat
  | .nonterminal .sum | .nonterminal .product | .nonterminal .unary | .nonterminal .call
  | .nonterminal .tagged | .nonterminal .simple | .nonterminal .atom => Expr.signs

def Parts.signs : (ss : List Symbol) → Parts Meaning ss → List (Sign × Position)
  | [], () => []
  | s :: ss, (m, ms) => Meaning.signs s m ++ signs ss ms

/-- A rule keeps the signs of its parts in order. It leaves out the names that are bound and the
minus that negates. -/
theorem Meaning.ofRule_signs (p : Production) (parts : Parts Meaning p.rhs) :
    (signs (.nonterminal p.lhs) (ofRule p parts)).Sublist (parts.signs p.rhs) := by
  -- A part in front is kept, and the last one stands before nothing or a token.
  have hlast : ∀ l r : List (Sign × Position), l.Sublist (l ++ r) := List.sublist_append_left
  have hkeep : ∀ {k l r : List (Sign × Position)}, l.Sublist r → (k ++ l).Sublist (k ++ r) :=
    fun h => (List.append_sublist_append_left _).2 h
  cases p with
  | statementsMoreEnd | statementsMore | matchWith | assign | apply | applyTagged | updateOne
  | updateOneEnd => exact hkeep (hlast _ _)
  | compare | concat | plus | minus | product => exact hkeep ((hlast _ _).cons_cons _)
  | ifElse => exact hkeep (hkeep (hlast _ _))
  | statementsEnd | statementsOne | moreStatementsOne | arm | var => exact .refl _
  | moreStatementsNext => exact Statement.signs_concat _ _ _
  | define | defineRec | func | neg => exact (hlast _ _).cons _
  | letIn => exact (hkeep (hlast _ _)).cons _
  | armsNext => exact Arms.signs_append _ _ _
  | tagPattern | anyPattern | number | string | trueLit | falseLit | recordEmpty =>
    exact List.nil_sublist _
  | recordMore | recordMoreEnd | moreFieldsNext => exact Fields.signs_append _ _ _
  | updateMore | updateMoreEnd => exact hkeep (Fields.signs_append _ _ _)
  | field => exact List.sublist_cons_self _ _
  | _ => exact hlast _ _

def Token.sign? (token : Token) : Option (Sign × Position) :=
  (token.kind.sign? token.text).map (·, token.position)

theorem Meaning.ofToken_signs {token : Token} {w : Word} (hw : ofToken token = .ok w) :
    signs (.terminal token.kind) w = [token].filterMap Token.sign? := by
  obtain ⟨kind, text, offset, position⟩ := token
  cases kind with
  | string => rfl
  | _ =>
    cases hw
    rfl

/-- The signs in what a tree means are among its tokens, in the same order. -/
theorem Tree.meaning?_signs {s : Symbol} {tree : Tree s} {m : Meaning s}
    (hm : tree.meaning? = .ok m) :
    (Meaning.signs s m).Sublist (tree.tokens.filterMap Token.sign?) := by
  refine meaning?_induction
    (P := fun s tree m => (Meaning.signs s m).Sublist (tree.tokens.filterMap Token.sign?))
    (Q := fun ss forest ms => (ms.signs ss).Sublist (forest.tokens.filterMap Token.sign?))
    ?leaf ?node ?nil ?cons hm
  case leaf =>
    intro token w hw
    rw [Meaning.ofToken_signs hw]
    exact .refl _
  case node =>
    intro p children parts _ ih
    exact (Meaning.ofRule_signs p parts).trans ih
  case nil => exact List.nil_sublist _
  case cons =>
    intro s ss tree rest m ms ihTree ihRest
    rw [Forest.tokens, List.filterMap_append]
    exact ihTree.append ihRest

theorem Token.pairwise_sign? {ts : List Token}
    (h : ts.Pairwise fun t u => t.position.Before u.position) :
    (ts.filterMap sign?).Pairwise fun o o' => o.2.Before o'.2 := by
  refine h.filterMap _ fun t t' hbefore o ho o' ho' => ?_
  obtain ⟨_, -, rfl⟩ := Option.map_eq_some_iff.1 ho
  obtain ⟨_, -, rfl⟩ := Option.map_eq_some_iff.1 ho'
  exact hbefore

/-- From left to right the variables and operators of a program stand ever further behind. -/
theorem parse_signs {source : Text} {p : Program} (h : parse source = .ok p) :
    p.signs.Pairwise fun o o' => o.2.Before o'.2 := by
  obtain ⟨tree, hsource, hmeaning⟩ := exists_of_parse h
  obtain ⟨c, q, hreads, -⟩ := Tree.ofSource_eq_ok_iff.1 hsource
  exact (Token.pairwise_sign? (hreads.increasing (Cursor.of_start source)).1).sublist
    (Tree.meaning?_signs hmeaning)

theorem parse_vars {source : Text} {p : Program} (h : parse source = .ok p) :
    p.vars.Pairwise fun o o' => o.2.Before o'.2 := by
  rw [p.vars_eq]
  refine (parse_signs h).filterMap _ fun s s' hbefore o ho o' ho' => ?_
  obtain ⟨s, q⟩ := s
  obtain ⟨s', q'⟩ := s'
  cases s <;> cases ho
  cases s' <;> cases ho'
  exact hbefore

end Toplevel
