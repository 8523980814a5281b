import Toplevel.Code.Compile

/-!
# The rules of compiling

When an expression has code, by one rule for each of its forms: a name that is bound around it
stands for itself, another for the global that it is defined as; what follows an arm for all else, a
second arm for a tag and a second field of a name have none (`Expr.HasCode`). An expression compiles
to just the code that it has (`Expr.hasCode_of_compile`, `Expr.HasCode.compile`), and so does a
statement (`Statement.compile?_eq_ok_iff`). What is true of all code is proved by these rules.
-/

namespace Toplevel

section

variable (globals : Bindings)

mutual

/-- The code of an expression, given the local names around it. -/
inductive Expr.HasCode : List Text → Expr → Code → Prop
  | number {scope : List Text} (x : Float) : Expr.HasCode scope (.number x) (.number x)
  | string {scope : List Text} (s : Text) : Expr.HasCode scope (.string s) (.string s)
  | bool {scope : List Text} (b : Bool) : Expr.HasCode scope (.bool b) (.bool b)
  | localVar {scope : List Text} {x : Text} (hx : x ∈ scope) (p : Position) :
    Expr.HasCode scope (.var x p) (.localVar x)
  | globalVar {scope : List Text} {x : Text} {g : Global} (hx : x ∉ scope)
    (hg : globals.find? x = some g) (p : Position) : Expr.HasCode scope (.var x p) (.globalVar g)
  | func {scope : List Text} {x : Text} {b : Expr} {c : Code} (hb : b.HasCode (x :: scope) c) :
    Expr.HasCode scope (.func x b) (.lambda x c)
  | apply {scope : List Text} {f a : Expr} {c d : Code} (hf : f.HasCode scope c)
    (ha : a.HasCode scope d) : Expr.HasCode scope (.apply f a) (.call c d)
  | letIn {scope : List Text} {x : Text} {v b : Expr} {c d : Code} (hv : v.HasCode scope c)
    (hb : b.HasCode (x :: scope) d) : Expr.HasCode scope (.letIn x v b) (.call (.lambda x d) c)
  | ifElse {scope : List Text} {e y n : Expr} {c c' c'' : Code} (he : e.HasCode scope c)
    (hy : y.HasCode scope c') (hn : n.HasCode scope c'') :
    Expr.HasCode scope (.ifElse e y n) (.ifElse c c' c'')
  | matchWith {scope : List Text} {s : Expr} {as : Arms} {c : Code} {cs : Cases}
    (hs : s.HasCode scope c) (has : as.HaveCode scope [] cs) :
    Expr.HasCode scope (.matchWith s as) (.matchOn c cs)
  | binary {scope : List Text} (op : BinaryOp) (p : Position) {l r : Expr} {c d : Code}
    (hl : l.HasCode scope c) (hr : r.HasCode scope d) :
    Expr.HasCode scope (.binary op p l r) (op.compile c d)
  | neg {scope : List Text} {a : Expr} {c : Code} (ha : a.HasCode scope c) :
    Expr.HasCode scope (.neg a) (.neg c)
  | deref {scope : List Text} {a : Expr} {c : Code} (ha : a.HasCode scope c) :
    Expr.HasCode scope (.deref a) (.deref c)
  | assign {scope : List Text} {t v : Expr} {c d : Code} (ht : t.HasCode scope c)
    (hv : v.HasCode scope d) : Expr.HasCode scope (.assign t v) (.assign c d)
  | record {scope : List Text} {fs : Fields} {es : Entries} (hfs : fs.HaveCode scope [] es) :
    Expr.HasCode scope (.record fs) (.record es)
  | update {scope : List Text} {b : Expr} {fs : Fields} {c : Code} {es : Entries}
    (hb : b.HasCode scope c) (hfs : fs.HaveCode scope [] es) :
    Expr.HasCode scope (.update b fs) (.extend c es)
  | field {scope : List Text} {b : Expr} {c : Code} (hb : b.HasCode scope c) (x : Text) :
    Expr.HasCode scope (.field b x) (.field c x)
  | tagged {scope : List Text} (t : Text) {a : Expr} {c : Code} (ha : a.HasCode scope c) :
    Expr.HasCode scope (.tagged t a) (.tagged t c)
  | newRef {scope : List Text} {a : Expr} {c : Code} (ha : a.HasCode scope c) :
    Expr.HasCode scope (.newRef a) (.newRef c)

/-- The cases of match arms, given the tags met so far. -/
inductive Arms.HaveCode : List Text → List Text → Arms → Cases → Prop
  | nil {scope tags : List Text} : Arms.HaveCode scope tags .nil .nil
  | otherwise {scope tags : List Text} {x : Text} {b : Expr} {c : Code}
    (hb : b.HasCode (x :: scope) c) :
    Arms.HaveCode scope tags (.cons none x b .nil) (.otherwise x c)
  | cons {scope tags : List Text} {t x : Text} {b : Expr} {rest : Arms} {c : Code} {cs : Cases}
    (ht : t ∉ tags) (hb : b.HasCode (x :: scope) c) (hrest : rest.HaveCode scope (t :: tags) cs) :
    Arms.HaveCode scope tags (.cons (some t) x b rest) (.cons t x c cs)

/-- The entries of record fields, given the names met so far. -/
inductive Fields.HaveCode : List Text → List Text → Fields → Entries → Prop
  | nil {scope names : List Text} : Fields.HaveCode scope names .nil .nil
  | cons {scope names : List Text} {x : Text} {v : Expr} {rest : Fields} {c : Code} {es : Entries}
    (hx : x ∉ names) (hv : v.HasCode scope c) (hrest : rest.HaveCode scope (x :: names) es) :
    Fields.HaveCode scope names (.cons x v rest) (.cons x c es)

end

end

theorem exists_of_bind_eq_ok {ε α α' : Type} {x : Except ε α} {f : α → Except ε α'} {r : α'}
    (h : x >>= f = .ok r) : ∃ a, x = .ok a ∧ f a = .ok r := by
  rcases x with e | a
  · cases h
  · exact ⟨a, rfl, h⟩

section

variable {globals : Bindings}

/-! ### What compiles has its code by the rules -/

theorem Expr.hasCode_of_resolve {scope : List Text} {x : Text} {p : Position} {c : Code}
    (h : resolve globals scope x p = .ok c) : (Expr.var x p).HasCode globals scope c := by
  unfold resolve at h
  split at h
  · rename_i hx
    cases h
    exact .localVar hx p
  · rename_i hx
    split at h
    · rename_i g hg
      cases h
      exact .globalVar hx hg p
    · cases h

/-- Behind an arm for all else there is none. -/
theorem Arms.eq_nil_of_compile {as : Arms} {scope tags : List Text} {cs : Cases}
    (h : as.compile globals scope tags true = .ok cs) : as = .nil := by
  cases as with
  | nil => rfl
  | cons => cases h

mutual

theorem Expr.hasCode_of_compile : ∀ (e : Expr) {scope : List Text} {c : Code},
    e.compile globals scope = .ok c → e.HasCode globals scope c
  | .number x, _, _, h => by
    cases h
    exact .number x
  | .string s, _, _, h => by
    cases h
    exact .string s
  | .bool b, _, _, h => by
    cases h
    exact .bool b
  | .var _ _, _, _, h => Expr.hasCode_of_resolve h
  | .func x b, _, _, h => by
    obtain ⟨c, hb, h⟩ := exists_of_bind_eq_ok h
    cases h
    exact .func (b.hasCode_of_compile hb)
  | .apply f a, _, _, h => by
    obtain ⟨c, hf, h⟩ := exists_of_bind_eq_ok h
    obtain ⟨d, ha, h⟩ := exists_of_bind_eq_ok h
    cases h
    exact .apply (f.hasCode_of_compile hf) (a.hasCode_of_compile ha)
  | .letIn x v b, _, _, h => by
    obtain ⟨c, hv, h⟩ := exists_of_bind_eq_ok h
    obtain ⟨d, hb, h⟩ := exists_of_bind_eq_ok h
    cases h
    exact .letIn (v.hasCode_of_compile hv) (b.hasCode_of_compile hb)
  | .ifElse e y n, _, _, h => by
    obtain ⟨c, he, h⟩ := exists_of_bind_eq_ok h
    obtain ⟨c', hy, h⟩ := exists_of_bind_eq_ok h
    obtain ⟨c'', hn, h⟩ := exists_of_bind_eq_ok h
    cases h
    exact .ifElse (e.hasCode_of_compile he) (y.hasCode_of_compile hy) (n.hasCode_of_compile hn)
  | .matchWith s as, _, _, h => by
    obtain ⟨c, hs, h⟩ := exists_of_bind_eq_ok h
    obtain ⟨cs, has, h⟩ := exists_of_bind_eq_ok h
    cases h
    exact .matchWith (s.hasCode_of_compile hs) (as.haveCode_of_compile has)
  | .binary op p l r, _, _, h => by
    obtain ⟨c, hl, h⟩ := exists_of_bind_eq_ok h
    obtain ⟨d, hr, h⟩ := exists_of_bind_eq_ok h
    cases h
    exact .binary op p (l.hasCode_of_compile hl) (r.hasCode_of_compile hr)
  | .neg a, _, _, h => by
    obtain ⟨c, ha, h⟩ := exists_of_bind_eq_ok h
    cases h
    exact .neg (a.hasCode_of_compile ha)
  | .deref a, _, _, h => by
    obtain ⟨c, ha, h⟩ := exists_of_bind_eq_ok h
    cases h
    exact .deref (a.hasCode_of_compile ha)
  | .assign t v, _, _, h => by
    obtain ⟨c, ht, h⟩ := exists_of_bind_eq_ok h
    obtain ⟨d, hv, h⟩ := exists_of_bind_eq_ok h
    cases h
    exact .assign (t.hasCode_of_compile ht) (v.hasCode_of_compile hv)
  | .record fs, _, _, h => by
    obtain ⟨es, hfs, h⟩ := exists_of_bind_eq_ok h
    cases h
    exact .record (fs.haveCode_of_compile hfs)
  | .update b fs, _, _, h => by
    obtain ⟨c, hb, h⟩ := exists_of_bind_eq_ok h
    obtain ⟨es, hfs, h⟩ := exists_of_bind_eq_ok h
    cases h
    exact .update (b.hasCode_of_compile hb) (fs.haveCode_of_compile hfs)
  | .field b x, _, _, h => by
    obtain ⟨c, hb, h⟩ := exists_of_bind_eq_ok h
    cases h
    exact .field (b.hasCode_of_compile hb) x
  | .tagged t a, _, _, h => by
    obtain ⟨c, ha, h⟩ := exists_of_bind_eq_ok h
    cases h
    exact .tagged t (a.hasCode_of_compile ha)
  | .newRef a, _, _, h => by
    obtain ⟨c, ha, h⟩ := exists_of_bind_eq_ok h
    cases h
    exact .newRef (a.hasCode_of_compile ha)

theorem Arms.haveCode_of_compile : ∀ (as : Arms) {scope tags : List Text} {cs : Cases},
    as.compile globals scope tags false = .ok cs → as.HaveCode globals scope tags cs
  | .nil, _, _, _, h => by
    cases h
    exact .nil
  | .cons none x b rest, _, _, _, h => by
    obtain ⟨c, hb, h⟩ := exists_of_bind_eq_ok h
    obtain ⟨cs, hrest, h⟩ := exists_of_bind_eq_ok h
    cases h
    cases Arms.eq_nil_of_compile hrest
    exact .otherwise (b.hasCode_of_compile hb)
  | .cons (some t) x b rest, _, _, _, h => by
    obtain ⟨c, hb, h⟩ := exists_of_bind_eq_ok h
    dsimp only at h
    split at h
    · cases h
    · rename_i ht
      obtain ⟨cs, hrest, h⟩ := exists_of_bind_eq_ok h
      cases h
      exact .cons ht (b.hasCode_of_compile hb) (rest.haveCode_of_compile hrest)

theorem Fields.haveCode_of_compile : ∀ (fs : Fields) {scope names : List Text} {es : Entries},
    fs.compile globals scope names = .ok es → fs.HaveCode globals scope names es
  | .nil, _, _, _, h => by
    cases h
    exact .nil
  | .cons x v rest, _, _, _, h => by
    rw [Fields.compile] at h
    split at h
    · cases h
    · rename_i hx
      obtain ⟨c, hv, h⟩ := exists_of_bind_eq_ok h
      obtain ⟨es, hrest, h⟩ := exists_of_bind_eq_ok h
      cases h
      exact .cons hx (v.hasCode_of_compile hv) (rest.haveCode_of_compile hrest)

end

/-! ### What has code by the rules compiles to it -/

mutual

theorem Expr.HasCode.compile : ∀ {scope : List Text} {e : Expr} {c : Code},
    e.HasCode globals scope c → e.compile globals scope = .ok c
  | _, _, _, .number _ | _, _, _, .string _ | _, _, _, .bool _ => rfl
  | _, _, _, .localVar hx p => if_pos hx
  | _, _, _, .globalVar hx hg p => by rw [Expr.compile, resolve, if_neg hx, hg]
  | _, _, _, .func hb => by
    rw [Expr.compile, hb.compile]
    rfl
  | _, _, _, .apply hf ha => by
    rw [Expr.compile, hf.compile, ha.compile]
    rfl
  | _, _, _, .letIn hv hb => by
    rw [Expr.compile, hv.compile, hb.compile]
    rfl
  | _, _, _, .ifElse he hy hn => by
    rw [Expr.compile, he.compile, hy.compile, hn.compile]
    rfl
  | _, _, _, .matchWith hs has => by
    rw [Expr.compile, hs.compile, has.compile]
    rfl
  | _, _, _, .binary op p hl hr => by
    rw [Expr.compile, hl.compile, hr.compile]
    rfl
  | _, _, _, .neg ha | _, _, _, .deref ha | _, _, _, .newRef ha | _, _, _, .field ha _
  | _, _, _, .tagged _ ha => by
    rw [Expr.compile, ha.compile]
    rfl
  | _, _, _, .assign ht hv => by
    rw [Expr.compile, ht.compile, hv.compile]
    rfl
  | _, _, _, .record hfs => by
    rw [Expr.compile, hfs.compile]
    rfl
  | _, _, _, .update hb hfs => by
    rw [Expr.compile, hb.compile, hfs.compile]
    rfl

theorem Arms.HaveCode.compile : ∀ {scope tags : List Text} {as : Arms} {cs : Cases},
    as.HaveCode globals scope tags cs → as.compile globals scope tags false = .ok cs
  | _, _, _, _, .nil => rfl
  | _, _, _, _, .otherwise hb => by
    rw [Arms.compile, if_neg Bool.false_ne_true, hb.compile]
    rfl
  | _, _, _, _, .cons ht hb hrest => by
    rw [Arms.compile, if_neg Bool.false_ne_true, hb.compile]
    change (if _ then _ else _) = _
    rw [if_neg ht, hrest.compile]
    rfl

theorem Fields.HaveCode.compile : ∀ {scope names : List Text} {fs : Fields} {es : Entries},
    fs.HaveCode globals scope names es → fs.compile globals scope names = .ok es
  | _, _, _, _, .nil => rfl
  | _, _, _, _, .cons hx hv hrest => by
    rw [Fields.compile, if_neg hx, hv.compile, hrest.compile]
    rfl

end

end

/-! ### Statements -/

/-- The code of a statement and the definitions after it. -/
inductive Statement.HasCode (d : Definitions) : Statement → Step → Definitions → Prop
  | expr {e : Expr} {c : Code} (he : e.HasCode d.bindings [] c) : HasCode d (.expr e) (.expr c) d
  | define (x : Text) {v : Expr} (recursive : Bool) {c : Code}
    (hv : v.HasCode (if recursive then (d.define x).1.bindings else d.bindings) [] c) :
    HasCode d (.define x v recursive) (.define (d.define x).2 c) (d.define x).1

theorem Statement.compile?_eq_ok_iff {s : Statement} {d d' : Definitions} {step : Step} :
    s.compile? d = .ok (step, d') ↔ s.HasCode d step d' := by
  constructor
  · intro h
    cases s with
    | expr e =>
      obtain ⟨c, hc, h⟩ := exists_of_bind_eq_ok h
      cases h
      exact .expr (e.hasCode_of_compile hc)
    | define x v recursive =>
      obtain ⟨c, hc, h⟩ := exists_of_bind_eq_ok h
      cases h
      exact .define x recursive (v.hasCode_of_compile hc)
  · intro h
    cases h with
    | expr he =>
      rw [compile?, he.compile]
      rfl
    | define x recursive hv =>
      let after (c : Code) : Except CompileError (Step × Definitions) :=
        .ok (.define (d.define x).2 c, (d.define x).1)
      exact congrArg (· >>= after) hv.compile

theorem compileAll_cons_eq_ok_iff {s : Statement} {ss : List Statement} {d d' : Definitions}
    {steps : List Step} : compileAll d (s :: ss) = .ok (steps, d')
      ↔ ∃ step d₁ rest, steps = step :: rest ∧ s.compile? d = .ok (step, d₁)
        ∧ compileAll d₁ ss = .ok (rest, d') := by
  constructor
  · intro h
    obtain ⟨⟨step, d₁⟩, hs, h⟩ := exists_of_bind_eq_ok h
    obtain ⟨⟨rest, d₂⟩, hrest, h⟩ := exists_of_bind_eq_ok h
    cases h
    exact ⟨step, d₁, rest, rfl, hs, hrest⟩
  · rintro ⟨step, d₁, rest, rfl, hs, hrest⟩
    rw [compileAll, hs]
    change (compileAll d₁ ss >>= _) = _
    rw [hrest]
    rfl

theorem Program.compile?_eq_ok_iff {p : Program} {d d' : Definitions} {c : Compiled} :
    p.compile? d = .ok (c, d') ↔ compileAll d p.statements = .ok (c.steps, d') := by
  constructor
  · intro h
    obtain ⟨⟨steps, d₁⟩, hall, h⟩ := exists_of_bind_eq_ok h
    cases h
    exact hall
  · intro h
    rw [compile?, h]
    rfl

end Toplevel
