import Toplevel.Proofs.Code.Regular

/-!
# Expressions that are alike

Two expressions are alike if one is the other with other local names, bound in the same places, and
with the arms for tags in another order (`Expr.Alike`). An expression is like itself where each of
its variables means itself (`Expr.alike_self`).
-/

namespace Toplevel

/-! ### Local names -/

/-- The local names around an expression on both sides, each with the one in its place, the
innermost first. -/
abbrev LocalPairs := List (Text × Text)

/-- Every name is known. -/
def anyName (_ : Text) : Bool := true

namespace LocalPairs

/-- A name means on the left what another means on the right: the innermost binders of both are one
pair, or they are one known name that neither side binds. -/
inductive Relates (known : Text → Bool) : LocalPairs → Text → Text → Prop
  | free {x : Text} (hx : known x = true) : Relates known [] x x
  | here {ns : LocalPairs} (x y : Text) : Relates known ((x, y) :: ns) x y
  | there {ns : LocalPairs} {x y a b : Text} (hx : x ≠ a) (hy : y ≠ b)
    (h : Relates known ns x y) : Relates known ((a, b) :: ns) x y

namespace Relates

variable {known known' : Text → Bool} {ns : LocalPairs} {x y : Text}

theorem mono (hknown : ∀ z, known z → known' z) (h : Relates known ns x y) :
    Relates known' ns x y := by
  induction h with
  | free hx => exact .free (hknown _ hx)
  | here x y => exact .here x y
  | there hx hy _ ih => exact .there hx hy ih

/-- Both names are bound, or neither is and they are the same. -/
theorem bound_or_free (h : Relates known ns x y) :
    x ∈ ns.map Prod.fst ∧ y ∈ ns.map Prod.snd
      ∨ x ∉ ns.map Prod.fst ∧ y ∉ ns.map Prod.snd ∧ x = y ∧ known x := by
  induction h with
  | free hx => exact .inr ⟨List.not_mem_nil, List.not_mem_nil, rfl, hx⟩
  | here x y => exact .inl ⟨List.mem_cons_self, List.mem_cons_self⟩
  | there hx hy _ ih =>
    rcases ih with ⟨hmem, hmem'⟩ | ⟨hmem, hmem', hrest⟩
    · exact .inl ⟨List.mem_cons_of_mem _ hmem, List.mem_cons_of_mem _ hmem'⟩
    · refine .inr ⟨fun h => ?_, fun h => ?_, hrest⟩
      · exact (List.mem_cons.1 h).elim hx hmem
      · exact (List.mem_cons.1 h).elim hy hmem'

/-- Where a name is bound once more, it means what is bound there. -/
theorem bind (z : Text) (h : x ≠ z → Relates known ns x x) :
    Relates known ((z, z) :: ns) x x := by
  by_cases hx : x = z
  · subst hx
    exact .here x x
  · exact .there hx hx (h hx)

end Relates

/-- The names of a scope, in the place of themselves. -/
def same (scope : List Text) : LocalPairs := scope.map fun x => (x, x)

@[simp]
theorem map_fst_same (scope : List Text) : (same scope).map Prod.fst = scope := by
  simp [same, Function.comp_def]

@[simp]
theorem map_snd_same (scope : List Text) : (same scope).map Prod.snd = scope := by
  simp [same, Function.comp_def]

theorem relates_same {known : Text → Bool} (scope : List Text) {x : Text} (hx : known x) :
    Relates known (same scope) x x := by
  induction scope with
  | nil => exact .free hx
  | cons y scope ih => exact .bind y fun _ => ih

end LocalPairs

/-! ### Alike -/

/-- The second arms are the first without an arm for the tag `t`, in front of which there are only
arms for tags. -/
inductive Arms.Takes (t x : Text) (b : Expr) : Arms → Arms → Prop
  | here (rest : Arms) : Takes t x b (.cons (some t) x b rest) rest
  | there {as bs : Arms} (s y : Text) (c : Expr) (h : Takes t x b as bs) :
    Takes t x b (.cons (some s) y c as) (.cons (some s) y c bs)

mutual

/-- Expressions that differ in local names and in the order of arms, given the local names around
them; a variable that is not bound is known. -/
inductive Expr.Alike (known : Text → Bool) : LocalPairs → Expr → Expr → Prop
  | number {ns : LocalPairs} (x : Float) : Expr.Alike known ns (.number x) (.number x)
  | string {ns : LocalPairs} (s : Text) : Expr.Alike known ns (.string s) (.string s)
  | bool {ns : LocalPairs} (b : Bool) : Expr.Alike known ns (.bool b) (.bool b)
  | var {ns : LocalPairs} {x y : Text} {p q : Position} (h : ns.Relates known x y) :
    Expr.Alike known ns (.var x p) (.var y q)
  | func {ns : LocalPairs} {x y : Text} {b c : Expr} (hb : b.Alike known ((x, y) :: ns) c) :
    Expr.Alike known ns (.func x b) (.func y c)
  | apply {ns : LocalPairs} {f g a b : Expr} (hf : f.Alike known ns g) (ha : a.Alike known ns b) :
    Expr.Alike known ns (.apply f a) (.apply g b)
  | letIn {ns : LocalPairs} {x y : Text} {v w b c : Expr} (hv : v.Alike known ns w)
    (hb : b.Alike known ((x, y) :: ns) c) : Expr.Alike known ns (.letIn x v b) (.letIn y w c)
  | ifElse {ns : LocalPairs} {c y n c' y' n' : Expr} (hc : c.Alike known ns c')
    (hy : y.Alike known ns y') (hn : n.Alike known ns n') :
    Expr.Alike known ns (.ifElse c y n) (.ifElse c' y' n')
  | matchWith {ns : LocalPairs} {s t : Expr} {as bs : Arms} (hs : s.Alike known ns t)
    (has : as.Alike known ns bs) : Expr.Alike known ns (.matchWith s as) (.matchWith t bs)
  | binary {ns : LocalPairs} (op : BinaryOp) {p q : Position} {l r l' r' : Expr}
    (hl : l.Alike known ns l') (hr : r.Alike known ns r') :
    Expr.Alike known ns (.binary op p l r) (.binary op q l' r')
  | neg {ns : LocalPairs} {a b : Expr} (ha : a.Alike known ns b) :
    Expr.Alike known ns (.neg a) (.neg b)
  | deref {ns : LocalPairs} {a b : Expr} (ha : a.Alike known ns b) :
    Expr.Alike known ns (.deref a) (.deref b)
  | assign {ns : LocalPairs} {t v t' v' : Expr} (ht : t.Alike known ns t')
    (hv : v.Alike known ns v') : Expr.Alike known ns (.assign t v) (.assign t' v')
  | record {ns : LocalPairs} {fs gs : Fields} (hfs : fs.Alike known ns gs) :
    Expr.Alike known ns (.record fs) (.record gs)
  | update {ns : LocalPairs} {b c : Expr} {fs gs : Fields} (hb : b.Alike known ns c)
    (hfs : fs.Alike known ns gs) : Expr.Alike known ns (.update b fs) (.update c gs)
  | field {ns : LocalPairs} {b c : Expr} (hb : b.Alike known ns c) (x : Text) :
    Expr.Alike known ns (.field b x) (.field c x)
  | tagged {ns : LocalPairs} (t : Text) {a b : Expr} (ha : a.Alike known ns b) :
    Expr.Alike known ns (.tagged t a) (.tagged t b)
  | newRef {ns : LocalPairs} {a b : Expr} (ha : a.Alike known ns b) :
    Expr.Alike known ns (.newRef a) (.newRef b)

/-- An arm for all else stands in the same place, and an arm for a tag anywhere among those in front
of it. -/
inductive Arms.Alike (known : Text → Bool) : LocalPairs → Arms → Arms → Prop
  | nil {ns : LocalPairs} : Arms.Alike known ns .nil .nil
  | otherwise {ns : LocalPairs} {x y : Text} {b c : Expr} {as bs : Arms}
    (hb : b.Alike known ((x, y) :: ns) c) (has : as.Alike known ns bs) :
    Arms.Alike known ns (.cons none x b as) (.cons none y c bs)
  | tagged {ns : LocalPairs} {t x y : Text} {b c : Expr} {as bs bs' : Arms}
    (ht : bs.Takes t y c bs') (hb : b.Alike known ((x, y) :: ns) c) (has : as.Alike known ns bs') :
    Arms.Alike known ns (.cons (some t) x b as) bs

inductive Fields.Alike (known : Text → Bool) : LocalPairs → Fields → Fields → Prop
  | nil {ns : LocalPairs} : Fields.Alike known ns .nil .nil
  | cons {ns : LocalPairs} (x : Text) {v w : Expr} {fs gs : Fields} (hv : v.Alike known ns w)
    (hfs : fs.Alike known ns gs) : Fields.Alike known ns (.cons x v fs) (.cons x w gs)

end

/-! ### Each expression is like itself -/

/-- What holds of the free variables around a binder holds of those of the body as well. -/
theorem LocalPairs.relates_bind {known : Text → Bool} {ns : LocalPairs} {x : Text}
    {os : List (Text × Position)} (h : ∀ o ∈ os.filter (·.1 ≠ x), ns.Relates known o.1 o.1) :
    ∀ o ∈ os, Relates known ((x, x) :: ns) o.1 o.1 := fun o ho =>
  .bind x fun hne => h o (List.mem_filter.2 ⟨ho, decide_eq_true hne⟩)

section

variable {known : Text → Bool}

mutual

/-- An expression is like itself where its free variables mean themselves. -/
theorem Expr.alike_self : ∀ (e : Expr) {ns : LocalPairs},
    (∀ o ∈ e.free, ns.Relates known o.1 o.1) → e.Alike known ns e
  | .number x, _, _ => .number x
  | .string s, _, _ => .string s
  | .bool b, _, _ => .bool b
  | .var _ _, _, h => .var (h _ List.mem_cons_self)
  | .func _ b, _, h => .func (b.alike_self (LocalPairs.relates_bind h))
  | .apply f a, _, h =>
    have h := List.forall_mem_append.1 h
    .apply (f.alike_self h.1) (a.alike_self h.2)
  | .letIn _ v b, _, h =>
    have h := List.forall_mem_append.1 h
    .letIn (v.alike_self h.1) (b.alike_self (LocalPairs.relates_bind h.2))
  | .ifElse c y n, _, h =>
    have h := List.forall_mem_append.1 h
    have h' := List.forall_mem_append.1 h.2
    .ifElse (c.alike_self h.1) (y.alike_self h'.1) (n.alike_self h'.2)
  | .matchWith s as, _, h =>
    have h := List.forall_mem_append.1 h
    .matchWith (s.alike_self h.1) (as.alike_self h.2)
  | .binary op _ l r, _, h =>
    have h := List.forall_mem_append.1 h
    .binary op (l.alike_self h.1) (r.alike_self h.2)
  | .neg a, _, h => .neg (a.alike_self h)
  | .deref a, _, h => .deref (a.alike_self h)
  | .assign t v, _, h =>
    have h := List.forall_mem_append.1 h
    .assign (t.alike_self h.1) (v.alike_self h.2)
  | .record fs, _, h => .record (fs.alike_self h)
  | .update b fs, _, h =>
    have h := List.forall_mem_append.1 h
    .update (b.alike_self h.1) (fs.alike_self h.2)
  | .field b x, _, h => .field (b.alike_self h) x
  | .tagged t a, _, h => .tagged t (a.alike_self h)
  | .newRef a, _, h => .newRef (a.alike_self h)

theorem Arms.alike_self : ∀ (as : Arms) {ns : LocalPairs},
    (∀ o ∈ as.free, ns.Relates known o.1 o.1) → as.Alike known ns as
  | .nil, _, _ => .nil
  | .cons none _ b rest, _, h =>
    have h := List.forall_mem_append.1 h
    .otherwise (b.alike_self (LocalPairs.relates_bind h.1)) (rest.alike_self h.2)
  | .cons (some _) _ b rest, _, h =>
    have h := List.forall_mem_append.1 h
    .tagged (.here rest) (b.alike_self (LocalPairs.relates_bind h.1)) (rest.alike_self h.2)

theorem Fields.alike_self : ∀ (fs : Fields) {ns : LocalPairs},
    (∀ o ∈ fs.free, ns.Relates known o.1 o.1) → fs.Alike known ns fs
  | .nil, _, _ => .nil
  | .cons x v rest, _, h =>
    have h := List.forall_mem_append.1 h
    .cons x (v.alike_self h.1) (rest.alike_self h.2)

end

end

/-! ### Statements -/

/-- Statements that differ in their expressions only, and these are alike. -/
inductive Statement.Alike (known : Text → Bool) : Statement → Statement → Prop
  | define (x : Text) {v w : Expr} (recursive : Bool)
    (h : v.Alike (if recursive then x.bind known else known) [] w) :
    Alike known (.define x v recursive) (.define x w recursive)
  | expr {e e' : Expr} (h : e.Alike known [] e') : Alike known (.expr e) (.expr e')

/-- Statements that are alike one after another; what a statement defines is known behind it. -/
inductive Statement.AllAlike : (Text → Bool) → List Statement → List Statement → Prop
  | nil {known : Text → Bool} : AllAlike known [] []
  | cons {known : Text → Bool} {s s' : Statement} {ss ss' : List Statement} (hs : s.Alike known s')
    (hss : AllAlike (s.extend known) ss ss') : AllAlike known (s :: ss) (s' :: ss')

theorem Statement.alike_self {known : Text → Bool} {s : Statement} (h : ∀ o ∈ s.free, known o.1) :
    s.Alike known s := by
  cases s with
  | expr e => exact .expr (e.alike_self fun o ho => .free (h o ho))
  | define x v recursive =>
    refine .define x recursive (v.alike_self fun o ho => .free ?_)
    cases recursive with
    | false => exact h o ho
    | true =>
      rw [if_pos rfl, Text.bind]
      by_cases hx : o.1 = x
      · rw [decide_eq_true hx, Bool.true_or]
      · rw [h o (List.mem_filter.2 ⟨ho, decide_eq_true hx⟩), Bool.or_true]

/-- Statements are like themselves where the names that they have from outside are known. -/
theorem Statement.allAlike_self {known : Text → Bool} {ss : List Statement}
    (h : ∀ o ∈ freeAll ss, known o.1) : AllAlike known ss ss := by
  induction ss generalizing known with
  | nil => exact .nil
  | cons s ss ih =>
    obtain ⟨hs, hss⟩ := List.forall_mem_append.1 h
    refine .cons (alike_self hs) (ih fun o ho => ?_)
    cases s with
    | expr e => exact hss o (List.mem_filter.2 ⟨ho, rfl⟩)
    | define x v recursive =>
      rw [extend, Text.bind]
      by_cases hx : o.1 = x
      · rw [decide_eq_true hx, Bool.true_or]
      · have hne : (define x v recursive).name? ≠ some o.1 := fun he => hx (Option.some.inj he).symm
        rw [hss o (List.mem_filter.2 ⟨ho, decide_eq_true hne⟩), Bool.or_true]

end Toplevel
