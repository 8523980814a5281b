import Toplevel.Proofs.Syntax.Alike

/-!
# Rewriting in one place

`Program.Rewrites R` relates a program to what it becomes if one expression somewhere in it is
replaced, as `R` says. Programs are alike where the expression is like the one in its place
(`Program.Rewrites.alike`).
-/

namespace Toplevel

section

variable (R : Expr → Expr → Prop)

mutual

/-- The second expression is the first with one expression in it replaced. -/
inductive Expr.Rewrites : Expr → Expr → Prop
  | here {e e' : Expr} (h : R e e') : Expr.Rewrites e e'
  | func (x : Text) {b b' : Expr} (h : b.Rewrites b') : Expr.Rewrites (.func x b) (.func x b')
  | applyFunc {f f' : Expr} (h : f.Rewrites f') (a : Expr) :
    Expr.Rewrites (.apply f a) (.apply f' a)
  | applyArg (f : Expr) {a a' : Expr} (h : a.Rewrites a') :
    Expr.Rewrites (.apply f a) (.apply f a')
  | letValue (x : Text) {v v' : Expr} (h : v.Rewrites v') (b : Expr) :
    Expr.Rewrites (.letIn x v b) (.letIn x v' b)
  | letBody (x : Text) (v : Expr) {b b' : Expr} (h : b.Rewrites b') :
    Expr.Rewrites (.letIn x v b) (.letIn x v b')
  | ifCond {c c' : Expr} (h : c.Rewrites c') (y n : Expr) :
    Expr.Rewrites (.ifElse c y n) (.ifElse c' y n)
  | ifYes (c : Expr) {y y' : Expr} (h : y.Rewrites y') (n : Expr) :
    Expr.Rewrites (.ifElse c y n) (.ifElse c y' n)
  | ifNo (c y : Expr) {n n' : Expr} (h : n.Rewrites n') :
    Expr.Rewrites (.ifElse c y n) (.ifElse c y n')
  | matchSubject {s s' : Expr} (h : s.Rewrites s') (as : Arms) :
    Expr.Rewrites (.matchWith s as) (.matchWith s' as)
  | matchArms (s : Expr) {as as' : Arms} (h : as.Rewrites as') :
    Expr.Rewrites (.matchWith s as) (.matchWith s as')
  | binaryLeft (op : BinaryOp) (p : Position) {l l' : Expr} (h : l.Rewrites l') (r : Expr) :
    Expr.Rewrites (.binary op p l r) (.binary op p l' r)
  | binaryRight (op : BinaryOp) (p : Position) (l : Expr) {r r' : Expr} (h : r.Rewrites r') :
    Expr.Rewrites (.binary op p l r) (.binary op p l r')
  | neg {a a' : Expr} (h : a.Rewrites a') : Expr.Rewrites (.neg a) (.neg a')
  | deref {a a' : Expr} (h : a.Rewrites a') : Expr.Rewrites (.deref a) (.deref a')
  | assignTarget {t t' : Expr} (h : t.Rewrites t') (v : Expr) :
    Expr.Rewrites (.assign t v) (.assign t' v)
  | assignValue (t : Expr) {v v' : Expr} (h : v.Rewrites v') :
    Expr.Rewrites (.assign t v) (.assign t v')
  | record {fs fs' : Fields} (h : fs.Rewrites fs') : Expr.Rewrites (.record fs) (.record fs')
  | updateBase {b b' : Expr} (h : b.Rewrites b') (fs : Fields) :
    Expr.Rewrites (.update b fs) (.update b' fs)
  | updateFields (b : Expr) {fs fs' : Fields} (h : fs.Rewrites fs') :
    Expr.Rewrites (.update b fs) (.update b fs')
  | field {b b' : Expr} (h : b.Rewrites b') (x : Text) :
    Expr.Rewrites (.field b x) (.field b' x)
  | tagged (t : Text) {a a' : Expr} (h : a.Rewrites a') :
    Expr.Rewrites (.tagged t a) (.tagged t a')
  | newRef {a a' : Expr} (h : a.Rewrites a') : Expr.Rewrites (.newRef a) (.newRef a')

inductive Arms.Rewrites : Arms → Arms → Prop
  | body (tag : Option Text) (x : Text) {b b' : Expr} (h : b.Rewrites b') (rest : Arms) :
    Arms.Rewrites (.cons tag x b rest) (.cons tag x b' rest)
  | rest (tag : Option Text) (x : Text) (b : Expr) {rest rest' : Arms} (h : rest.Rewrites rest') :
    Arms.Rewrites (.cons tag x b rest) (.cons tag x b rest')

inductive Fields.Rewrites : Fields → Fields → Prop
  | value (x : Text) {v v' : Expr} (h : v.Rewrites v') (rest : Fields) :
    Fields.Rewrites (.cons x v rest) (.cons x v' rest)
  | rest (x : Text) (v : Expr) {rest rest' : Fields} (h : rest.Rewrites rest') :
    Fields.Rewrites (.cons x v rest) (.cons x v rest')

end

inductive Statement.Rewrites : Statement → Statement → Prop
  | define (x : Text) {v v' : Expr} (h : v.Rewrites R v') (recursive : Bool) :
    Rewrites (.define x v recursive) (.define x v' recursive)
  | expr {e e' : Expr} (h : e.Rewrites R e') : Rewrites (.expr e) (.expr e')

/-- The second program is the first with one expression in one of its statements replaced. -/
inductive Program.Rewrites : Program → Program → Prop
  | intro (before : List Statement) {s s' : Statement} (h : s.Rewrites R s')
    (after : List Statement) : Rewrites ⟨before ++ s :: after⟩ ⟨before ++ s' :: after⟩

end

/-! ### Back -/

section

variable {R : Expr → Expr → Prop} (hR : ∀ e e', R e e' → R e' e)

include hR

set_option linter.unusedSectionVars false in
mutual

theorem Expr.Rewrites.symm : ∀ {e e' : Expr}, e.Rewrites R e' → e'.Rewrites R e
  | _, _, .here h => .here (hR _ _ h)
  | _, _, .func x h => .func x h.symm
  | _, _, .applyFunc h a => .applyFunc h.symm a
  | _, _, .applyArg f h => .applyArg f h.symm
  | _, _, .letValue x h b => .letValue x h.symm b
  | _, _, .letBody x v h => .letBody x v h.symm
  | _, _, .ifCond h y n => .ifCond h.symm y n
  | _, _, .ifYes c h n => .ifYes c h.symm n
  | _, _, .ifNo c y h => .ifNo c y h.symm
  | _, _, .matchSubject h as => .matchSubject h.symm as
  | _, _, .matchArms s h => .matchArms s h.symm
  | _, _, .binaryLeft op p h r => .binaryLeft op p h.symm r
  | _, _, .binaryRight op p l h => .binaryRight op p l h.symm
  | _, _, .neg h => .neg h.symm
  | _, _, .deref h => .deref h.symm
  | _, _, .assignTarget h v => .assignTarget h.symm v
  | _, _, .assignValue t h => .assignValue t h.symm
  | _, _, .record h => .record h.symm
  | _, _, .updateBase h fs => .updateBase h.symm fs
  | _, _, .updateFields b h => .updateFields b h.symm
  | _, _, .field h x => .field h.symm x
  | _, _, .tagged t h => .tagged t h.symm
  | _, _, .newRef h => .newRef h.symm

theorem Arms.Rewrites.symm : ∀ {as as' : Arms}, as.Rewrites R as' → as'.Rewrites R as
  | _, _, .body tag x h rest => .body tag x h.symm rest
  | _, _, .rest tag x b h => .rest tag x b h.symm

theorem Fields.Rewrites.symm : ∀ {fs fs' : Fields}, fs.Rewrites R fs' → fs'.Rewrites R fs
  | _, _, .value x h rest => .value x h.symm rest
  | _, _, .rest x v h => .rest x v h.symm

end

theorem Program.Rewrites.symm {p q : Program} (h : p.Rewrites R q) : q.Rewrites R p := by
  obtain ⟨before, h, after⟩ := h
  refine .intro before ?_ after
  cases h with
  | define x h recursive => exact .define x (h.symm hR) recursive
  | expr h => exact .expr (h.symm hR)

end

/-! ### What is rewritten is alike -/

theorem Text.bind_anyName (x : Text) : x.bind anyName = anyName :=
  funext fun _ => Bool.or_true _

theorem Statement.extend_anyName (s : Statement) : s.extend anyName = anyName := by
  cases s with
  | expr e => rfl
  | define x v recursive => exact x.bind_anyName

section

theorem Expr.alike_same (e : Expr) (scope : List Text) : e.Alike anyName (.same scope) e :=
  e.alike_self fun _ _ => LocalPairs.relates_same scope rfl

theorem Arms.alike_same (as : Arms) (scope : List Text) : as.Alike anyName (.same scope) as :=
  as.alike_self fun _ _ => LocalPairs.relates_same scope rfl

theorem Fields.alike_same (fs : Fields) (scope : List Text) :
    fs.Alike anyName (.same scope) fs :=
  fs.alike_self fun _ _ => LocalPairs.relates_same scope rfl

theorem Statement.alike_anyName (s : Statement) : s.Alike anyName s :=
  alike_self fun _ _ => rfl

theorem Statement.allAlike_anyName (ss : List Statement) : AllAlike anyName ss ss :=
  allAlike_self fun _ _ => rfl

variable {R : Expr → Expr → Prop}
  (hR : ∀ e e', R e e' → ∀ scope : List Text, e.Alike anyName (.same scope) e')

include hR

set_option linter.unusedSectionVars false in
mutual

theorem Expr.Rewrites.alike : ∀ {e e' : Expr}, e.Rewrites R e' →
    ∀ scope : List Text, e.Alike anyName (.same scope) e'
  | _, _, .here h, scope => hR _ _ h scope
  | .func _ _, _, .func x h, scope => .func (h.alike (x :: scope))
  | .apply _ _, _, .applyFunc h a, scope => .apply (h.alike scope) (a.alike_same scope)
  | .apply _ _, _, .applyArg f h, scope => .apply (f.alike_same scope) (h.alike scope)
  | .letIn _ _ _, _, .letValue x h b, scope =>
    .letIn (h.alike scope) (b.alike_same (x :: scope))
  | .letIn _ _ _, _, .letBody x v h, scope =>
    .letIn (v.alike_same scope) (h.alike (x :: scope))
  | .ifElse _ _ _, _, .ifCond h y n, scope =>
    .ifElse (h.alike scope) (y.alike_same scope) (n.alike_same scope)
  | .ifElse _ _ _, _, .ifYes c h n, scope =>
    .ifElse (c.alike_same scope) (h.alike scope) (n.alike_same scope)
  | .ifElse _ _ _, _, .ifNo c y h, scope =>
    .ifElse (c.alike_same scope) (y.alike_same scope) (h.alike scope)
  | .matchWith _ _, _, .matchSubject h as, scope =>
    .matchWith (h.alike scope) (as.alike_same scope)
  | .matchWith _ _, _, .matchArms s h, scope =>
    .matchWith (s.alike_same scope) (h.alike scope)
  | .binary _ _ _ _, _, .binaryLeft op _ h r, scope =>
    .binary op (h.alike scope) (r.alike_same scope)
  | .binary _ _ _ _, _, .binaryRight op _ l h, scope =>
    .binary op (l.alike_same scope) (h.alike scope)
  | .neg _, _, .neg h, scope => .neg (h.alike scope)
  | .deref _, _, .deref h, scope => .deref (h.alike scope)
  | .assign _ _, _, .assignTarget h v, scope =>
    .assign (h.alike scope) (v.alike_same scope)
  | .assign _ _, _, .assignValue t h, scope =>
    .assign (t.alike_same scope) (h.alike scope)
  | .record _, _, .record h, scope => .record (h.alike scope)
  | .update _ _, _, .updateBase h fs, scope =>
    .update (h.alike scope) (fs.alike_same scope)
  | .update _ _, _, .updateFields b h, scope =>
    .update (b.alike_same scope) (h.alike scope)
  | .field _ _, _, .field h x, scope => .field (h.alike scope) x
  | .tagged _ _, _, .tagged t h, scope => .tagged t (h.alike scope)
  | .newRef _, _, .newRef h, scope => .newRef (h.alike scope)

theorem Arms.Rewrites.alike : ∀ {as as' : Arms}, as.Rewrites R as' →
    ∀ scope : List Text, as.Alike anyName (.same scope) as'
  | .cons none _ _ _, _, .body _ x h rest, scope =>
    .otherwise (h.alike (x :: scope)) (rest.alike_same scope)
  | .cons (some _) _ _ _, _, .body _ x h rest, scope =>
    .tagged (.here rest) (h.alike (x :: scope)) (rest.alike_same scope)
  | .cons none _ _ _, _, .rest _ x b h, scope =>
    .otherwise (b.alike_same (x :: scope)) (h.alike scope)
  | .cons (some _) _ _ _, _, .rest _ x b h, scope =>
    .tagged (.here _) (b.alike_same (x :: scope)) (h.alike scope)

theorem Fields.Rewrites.alike : ∀ {fs fs' : Fields}, fs.Rewrites R fs' →
    ∀ scope : List Text, fs.Alike anyName (.same scope) fs'
  | .cons _ _ _, _, .value x h rest, scope =>
    .cons x (h.alike scope) (rest.alike_same scope)
  | .cons _ _ _, _, .rest x v h, scope => .cons x (v.alike_same scope) (h.alike scope)

end

theorem Statement.Rewrites.alike {s s' : Statement} (h : s.Rewrites R s') : s.Alike anyName s' := by
  cases h with
  | expr h => exact .expr (h.alike hR [])
  | define x h recursive =>
    refine .define x recursive ?_
    rw [x.bind_anyName, ite_self]
    exact h.alike hR []

/-- A program is like what it becomes if an expression in it is replaced by one that it is like. -/
theorem Program.Rewrites.alike {p q : Program} (h : p.Rewrites R q) :
    Statement.AllAlike anyName p.statements q.statements := by
  obtain ⟨before, h, after⟩ := h
  induction before with
  | nil =>
    refine .cons (h.alike hR) ?_
    rw [Statement.extend_anyName]
    exact Statement.allAlike_anyName after
  | cons s before ih =>
    refine .cons s.alike_anyName ?_
    rw [Statement.extend_anyName]
    exact ih

end

end Toplevel
