import Toplevel.Proofs.Code.Rules
import Toplevel.Proofs.Grammar.Places
import Toplevel.Proofs.Syntax.Placed

/-!
# Programs up to places

Places are kept in programs for messages alone: a tree without places means the same program without
places (`Tree.meaning?_unplaced`), and the code of a program that compiles does not depend on them
(`compileAll_unplaced`). To leave the places out is to put everything in one place.
-/

namespace Toplevel

mutual

/-- An expression without its places. -/
def Expr.unplaced : Expr → Expr
  | .number x => .number x
  | .string s => .string s
  | .bool b => .bool b
  | .var x _ => .var x Position.start
  | .func x b => .func x b.unplaced
  | .apply f a => .apply f.unplaced a.unplaced
  | .letIn x v b => .letIn x v.unplaced b.unplaced
  | .ifElse c y n => .ifElse c.unplaced y.unplaced n.unplaced
  | .matchWith s as => .matchWith s.unplaced as.unplaced
  | .binary op _ l r => .binary op Position.start l.unplaced r.unplaced
  | .neg a => .neg a.unplaced
  | .deref a => .deref a.unplaced
  | .assign t v => .assign t.unplaced v.unplaced
  | .record fs => .record fs.unplaced
  | .update b fs => .update b.unplaced fs.unplaced
  | .field b x => .field b.unplaced x
  | .tagged t p => .tagged t p.unplaced
  | .newRef a => .newRef a.unplaced

def Arms.unplaced : Arms → Arms
  | .nil => .nil
  | .cons tag x b rest => .cons tag x b.unplaced rest.unplaced

def Fields.unplaced : Fields → Fields
  | .nil => .nil
  | .cons x v rest => .cons x v.unplaced rest.unplaced

end

def Statement.unplaced : Statement → Statement
  | .define x v recursive => .define x v.unplaced recursive
  | .expr e => .expr e.unplaced

def Program.unplaced (p : Program) : Program := ⟨p.statements.map Statement.unplaced⟩

mutual

theorem Expr.unplaced_eq : ∀ e : Expr, e.unplaced = e.placed fun _ => Position.start
  | .number _ | .string _ | .bool _ | .var .. => rfl
  | .func _ a | .neg a | .deref a | .newRef a | .field a _ | .tagged _ a => by
    simp only [Expr.unplaced, Expr.placed, a.unplaced_eq]
  | .apply a b | .letIn _ a b | .binary _ _ a b | .assign a b => by
    simp only [Expr.unplaced, Expr.placed, a.unplaced_eq, b.unplaced_eq]
  | .ifElse c y n => by
    simp only [Expr.unplaced, Expr.placed, c.unplaced_eq, y.unplaced_eq, n.unplaced_eq]
  | .matchWith s as => by simp only [Expr.unplaced, Expr.placed, s.unplaced_eq, as.unplaced_eq]
  | .record fs => by simp only [Expr.unplaced, Expr.placed, fs.unplaced_eq]
  | .update b fs => by simp only [Expr.unplaced, Expr.placed, b.unplaced_eq, fs.unplaced_eq]

theorem Arms.unplaced_eq (as : Arms) : as.unplaced = as.placed fun _ => Position.start := by
  cases as with
  | nil => rfl
  | cons _ _ b rest => simp only [Arms.unplaced, Arms.placed, b.unplaced_eq, rest.unplaced_eq]

theorem Fields.unplaced_eq (fs : Fields) :
    fs.unplaced = fs.placed fun _ => Position.start := by
  cases fs with
  | nil => rfl
  | cons _ v rest => simp only [Fields.unplaced, Fields.placed, v.unplaced_eq, rest.unplaced_eq]

end

theorem Statement.unplaced_eq (s : Statement) :
    s.unplaced = s.placed fun _ => Position.start := by
  cases s <;> simp only [unplaced, placed, Expr.unplaced_eq]

theorem Program.unplaced_eq (p : Program) : p.unplaced = p.placed fun _ => Position.start := by
  rw [Program.unplaced, funext Statement.unplaced_eq]
  rfl

theorem Tree.unplaced_eq {s : Symbol} (tree : Tree s) :
    tree.unplaced = tree.placed (fun _ => Position.start) fun _ => 0 := by
  refine @Tree.rec
    (fun _ tree => tree.unplaced = tree.placed (fun _ => Position.start) fun _ => 0)
    (fun _ forest => forest.unplaced = forest.placed (fun _ => Position.start) fun _ => 0)
    ?_ ?_ ?_ ?_ _ tree
  · intro token
    rfl
  · intro p children ih
    rw [Tree.unplaced, Tree.placed, ih]
  · rfl
  · intro s ss tree rest ihTree ihRest
    rw [Forest.unplaced, Forest.placed, ihTree, ihRest]

/-! ### What trees mean -/

theorem Tree.meaning?_node_eq_ok {p : Production} {children : Forest p.rhs}
    {m : Meaning (.nonterminal p.lhs)} : (Tree.node p children).meaning? = .ok m
      ↔ ∃ parts, children.meaning? = .ok parts ∧ Meaning.ofRule p parts = m := by
  change (do return Meaning.ofRule p (← children.meaning?)) = _ ↔ _
  rcases children.meaning? with e | parts
  · exact ⟨fun h => (nomatch h), fun ⟨_, h, _⟩ => (nomatch h)⟩
  · constructor
    · intro h
      exact ⟨parts, rfl, Except.ok.inj h⟩
    · rintro ⟨_, h, rfl⟩
      cases h
      rfl

theorem Forest.meaning?_cons_eq_ok {s : Symbol} {ss : List Symbol} {tree : Tree s}
    {rest : Forest ss} {parts : Parts Meaning (s :: ss)} :
    (Forest.cons tree rest).meaning? = .ok parts
      ↔ tree.meaning? = .ok parts.1 ∧ rest.meaning? = .ok parts.2 := by
  change (do return (← tree.meaning?, ← rest.meaning?)) = _ ↔ _
  rcases tree.meaning? with e | m
  · exact ⟨fun h => (nomatch h), fun h => (nomatch h.1)⟩
  · rcases rest.meaning? with e | ms
    · exact ⟨fun h => (nomatch h), fun h => (nomatch h.2)⟩
    · constructor
      · intro h
        cases h
        exact ⟨rfl, rfl⟩
      · rintro ⟨h1, h2⟩
        rw [Except.ok.inj h1, Except.ok.inj h2]
        rfl

/-- What is true of a tree and its meaning, from what its tokens mean and what each rule makes of
the meanings of the children. -/
theorem Tree.meaning?_induction {P : ∀ s, Tree s → Meaning s → Prop}
    {Q : ∀ ss, Forest ss → Parts Meaning ss → Prop}
    (leaf : ∀ token w, Meaning.ofToken token = .ok w → P _ (.leaf token) w)
    (node : ∀ p children parts, children.meaning? = .ok parts → Q p.rhs children parts →
      P _ (.node p children) (Meaning.ofRule p parts))
    (nil : Q [] .nil ())
    (cons : ∀ s ss tree rest m ms, P s tree m → Q ss rest ms →
      Q (s :: ss) (.cons tree rest) (m, ms))
    {s : Symbol} {tree : Tree s} {m : Meaning s} (hm : tree.meaning? = .ok m) : P s tree m := by
  refine @Tree.rec
    (fun s tree => ∀ m, tree.meaning? = .ok m → P s tree m)
    (fun ss forest => ∀ ms, forest.meaning? = .ok ms → Q ss forest ms)
    leaf ?_ ?_ ?_ _ tree m hm
  · intro p children ih m hm
    obtain ⟨parts, hparts, rfl⟩ := meaning?_node_eq_ok.1 hm
    exact node p children parts hparts (ih parts hparts)
  · intro _ _
    exact nil
  · intro s ss tree rest ihTree ihRest ms hms
    obtain ⟨hm, hrest⟩ := Forest.meaning?_cons_eq_ok.1 hms
    exact cons s ss tree rest _ _ (ihTree _ hm) (ihRest _ hrest)

/-! ### Places in meanings -/

def Word.unplaced (w : Word) : Word := ⟨w.text, Position.start⟩

/-- The meaning of a symbol without its places. -/
def Meaning.unplaced : (s : Symbol) → Meaning s → Meaning s
  | .terminal _ => Word.unplaced
  | .nonterminal .program => Program.unplaced
  | .nonterminal .statements | .nonterminal .moreStatements => List.map Statement.unplaced
  | .nonterminal .statement => Statement.unplaced
  | .nonterminal .arms | .nonterminal .arm => Arms.unplaced
  | .nonterminal .pattern => id
  | .nonterminal .moreFields | .nonterminal .field => Fields.unplaced
  | .nonterminal .expr | .nonterminal .assign | .nonterminal .compare | .nonterminal .concat
  | .nonterminal .sum | .nonterminal .product | .nonterminal .unary | .nonterminal .call
  | .nonterminal .tagged | .nonterminal .simple | .nonterminal .atom => Expr.unplaced

theorem Meaning.unplaced_eq (s : Symbol) : unplaced s = placed (fun _ => Position.start) s := by
  cases s with
  | terminal t => rfl
  | nonterminal n =>
    cases n with
    | program => exact funext Program.unplaced_eq
    | statements | moreStatements => exact congrArg List.map (funext Statement.unplaced_eq)
    | statement => exact funext Statement.unplaced_eq
    | arms | arm => exact funext Arms.unplaced_eq
    | pattern => rfl
    | moreFields | field => exact funext Fields.unplaced_eq
    | _ => exact funext Expr.unplaced_eq

theorem Tree.meaning?_unplaced {s : Symbol} (tree : Tree s) : tree.unplaced.meaning?
    = (tree.meaning?.mapError (BadEscape.placed (fun _ => Position.start) fun _ => 0)).map
      (Meaning.unplaced s) := by
  rw [unplaced_eq, meaning?_placed, Meaning.unplaced_eq]

/-- Trees that are the same up to places mean the same up to places. -/
theorem Tree.meaning?_of_unplaced {s : Symbol} {tree tree' : Tree s} {m : Meaning s}
    (h : tree'.unplaced = tree.unplaced) (hm : tree.meaning? = .ok m) :
    ∃ m', tree'.meaning? = .ok m' ∧ Meaning.unplaced s m' = Meaning.unplaced s m := by
  have hmeaning := tree'.meaning?_unplaced
  rw [h, tree.meaning?_unplaced, hm] at hmeaning
  cases hm' : tree'.meaning? with
  | error e =>
    rw [hm'] at hmeaning
    cases hmeaning
  | ok m' =>
    rw [hm'] at hmeaning
    exact ⟨m', rfl, (Except.ok.inj hmeaning).symm⟩

/-! ### What compiles -/

theorem toOption_eq_some_iff {ε α : Type} {x : Except ε α} {a : α} :
    x.toOption = some a ↔ x = .ok a := by
  cases x <;> simp [Except.toOption]

theorem toOption_mapError {ε ε' α : Type} (h : ε → ε') (x : Except ε α) :
    (x.mapError h).toOption = x.toOption := by
  cases x <;> rfl

theorem compileAll_unplaced (ss : List Statement) (d : Definitions) :
    (compileAll d (ss.map Statement.unplaced)).toOption = (compileAll d ss).toOption := by
  rw [funext Statement.unplaced_eq, compileAll_placed _ id, toOption_mapError]

theorem compileAll_of_unplaced {ss ss' : List Statement}
    (h : ss'.map Statement.unplaced = ss.map Statement.unplaced) (d : Definitions) :
    (compileAll d ss').toOption = (compileAll d ss).toOption := by
  rw [← compileAll_unplaced, h, compileAll_unplaced]

/-- A program that compiles still does with its names in other places. -/
theorem Program.compile?_of_unplaced {p q : Program} (h : q.unplaced = p.unplaced)
    {d d' : Definitions} {c : Compiled} (hc : p.compile? d = .ok (c, d')) :
    q.compile? d = .ok (c, d') := by
  have hall := compileAll_of_unplaced (congrArg Program.statements h) d
  rw [Program.compile?_eq_ok_iff.1 hc] at hall
  exact Program.compile?_eq_ok_iff.2 (toOption_eq_some_iff.1 hall)

end Toplevel
