import Toplevel.Proofs.Syntax.Relabeled

/-!
# Renaming local names

What binds a local name, and exactly the occurrences that it binds, may be given another name
(`Expr.Rebinds`), unless this name is free where the first one is visible, or an inner binder of it
would take an occurrence (`Expr.Captures`). The result is like what it was (`Expr.Rebinds.alike`),
and a program has a source still (`exists_parse_of_rebinds`).
-/

namespace Toplevel

/-- Another name for `x`, and itself for all else. -/
def Text.renamed (x y z : Text) : Text := if z = x then y else z

mutual

/-- An expression with `y` in place of the variable `x` wherever that is free. -/
def Expr.rename (x y : Text) : Expr → Expr
  | .number v => .number v
  | .string s => .string s
  | .bool b => .bool b
  | .var z p => .var (x.renamed y z) p
  | .func z b => .func z (if z = x then b else b.rename x y)
  | .apply f a => .apply (f.rename x y) (a.rename x y)
  | .letIn z v b => .letIn z (v.rename x y) (if z = x then b else b.rename x y)
  | .ifElse c t n => .ifElse (c.rename x y) (t.rename x y) (n.rename x y)
  | .matchWith s as => .matchWith (s.rename x y) (as.rename x y)
  | .binary op p l r => .binary op p (l.rename x y) (r.rename x y)
  | .neg a => .neg (a.rename x y)
  | .deref a => .deref (a.rename x y)
  | .assign t v => .assign (t.rename x y) (v.rename x y)
  | .record fs => .record (fs.rename x y)
  | .update b fs => .update (b.rename x y) (fs.rename x y)
  | .field b f => .field (b.rename x y) f
  | .tagged t a => .tagged t (a.rename x y)
  | .newRef a => .newRef (a.rename x y)

def Arms.rename (x y : Text) : Arms → Arms
  | .nil => .nil
  | .cons tag z b rest => .cons tag z (if z = x then b else b.rename x y) (rest.rename x y)

def Fields.rename (x y : Text) : Fields → Fields
  | .nil => .nil
  | .cons f v rest => .cons f (v.rename x y) (rest.rename x y)

end

/-- What is in the scope of a binder of `z` has `x` free and `y` bound around it, by this binder or,
as `inner` says, by another one in that scope. -/
def Text.Captures (x y z : Text) (free : List (Text × Position)) (inner : Prop) : Prop :=
  z ≠ x ∧ (z = y ∧ x ∈ free.map Prod.fst ∨ inner)

mutual

/-- A binder of `y` would take one of the free occurrences of `x` if they were renamed. -/
def Expr.Captures (x y : Text) : Expr → Prop
  | .number _ | .string _ | .bool _ | .var _ _ => False
  | .func z b => x.Captures y z b.free (b.Captures x y)
  | .apply f a => f.Captures x y ∨ a.Captures x y
  | .letIn z v b => v.Captures x y ∨ x.Captures y z b.free (b.Captures x y)
  | .ifElse c t n => c.Captures x y ∨ t.Captures x y ∨ n.Captures x y
  | .matchWith s as => s.Captures x y ∨ as.Captures x y
  | .binary _ _ l r => l.Captures x y ∨ r.Captures x y
  | .neg a | .deref a | .newRef a | .field a _ | .tagged _ a => a.Captures x y
  | .assign t v => t.Captures x y ∨ v.Captures x y
  | .record fs => fs.Captures x y
  | .update b fs => b.Captures x y ∨ fs.Captures x y

def Arms.Captures (x y : Text) : Arms → Prop
  | .nil => False
  | .cons _ z b rest => x.Captures y z b.free (b.Captures x y) ∨ rest.Captures x y

def Fields.Captures (x y : Text) : Fields → Prop
  | .nil => False
  | .cons _ v rest => v.Captures x y ∨ rest.Captures x y

end

/-- The name `y` may be put in place of `x` where `b` is in its scope. -/
structure Expr.MayRebind (x y : Text) (b : Expr) : Prop where
  notFree : y ∉ b.free.map Prod.fst
  notCaptured : ¬b.Captures x y

/-- A binder of a local name, that of a function, of a `let` or of a match arm, is given the name
`y`, with all occurrences that it binds. -/
inductive Expr.Rebinds (y : Text) : Expr → Expr → Prop
  | func (x : Text) {b : Expr} (h : b.MayRebind x y) :
    Rebinds y (.func x b) (.func y (b.rename x y))
  | letIn (x : Text) (v : Expr) {b : Expr} (h : b.MayRebind x y) :
    Rebinds y (.letIn x v b) (.letIn y v (b.rename x y))
  | arm (s : Expr) (before : Arms) (tag : Option Text) (x : Text) {b : Expr} (after : Arms)
    (h : b.MayRebind x y) :
    Rebinds y (.matchWith s (before.append (.cons tag x b after)))
      (.matchWith s (before.append (.cons tag y (b.rename x y) after)))

/-! ### Renamed expressions are alike -/

section

variable {known : Text → Bool} {x y : Text}

/-- Below a binder of `z` that captures nothing, what is free means what it is renamed to. -/
theorem LocalPairs.relates_renamed {ns : LocalPairs} {z : Text} {os : List (Text × Position)}
    {inner : Prop} (hz : z ≠ x)
    (h : ∀ o ∈ os.filter (·.1 ≠ z), ns.Relates known o.1 (x.renamed y o.1))
    (hcaptures : ¬x.Captures y z os inner) :
    ∀ o ∈ os, Relates known ((z, z) :: ns) o.1 (x.renamed y o.1) := by
  intro o ho
  by_cases hne : o.1 = z
  · rw [hne, Text.renamed, if_neg hz]
    exact .here z z
  · refine .there hne ?_ (h o (List.mem_filter.2 ⟨ho, decide_eq_true hne⟩))
    rw [Text.renamed]
    split
    · rename_i hx
      rintro rfl
      exact hcaptures ⟨hz, .inl ⟨rfl, hx ▸ List.mem_map_of_mem ho⟩⟩
    · exact hne

/-- Below a binder of `x` nothing is renamed. -/
theorem LocalPairs.relates_shadowed {ns : LocalPairs} {os : List (Text × Position)}
    (h : ∀ o ∈ os.filter (·.1 ≠ x), ns.Relates known o.1 (x.renamed y o.1)) :
    ∀ o ∈ os, Relates known ((x, x) :: ns) o.1 o.1 := by
  refine relates_bind fun o ho => ?_
  have hx : o.1 ≠ x := of_decide_eq_true (List.mem_filter.1 ho).2
  have hrelates := h o ho
  rwa [Text.renamed, if_neg hx] at hrelates

/-- Where a binder of `z` is above it, an expression is renamed unless `z` is the name. -/
theorem Expr.alike_renameUnder {b : Expr} (hb : ∀ {ns : LocalPairs},
    (∀ o ∈ b.free, ns.Relates known o.1 (x.renamed y o.1)) → ¬b.Captures x y →
      b.Alike known ns (b.rename x y)) {ns : LocalPairs} {z : Text}
    (h : ∀ o ∈ b.free.filter (·.1 ≠ z), ns.Relates known o.1 (x.renamed y o.1))
    (hc : ¬x.Captures y z b.free (b.Captures x y)) :
    b.Alike known ((z, z) :: ns) (if z = x then b else b.rename x y) := by
  split
  · rename_i hz
    subst hz
    exact b.alike_self (LocalPairs.relates_shadowed h)
  · rename_i hz
    exact hb (LocalPairs.relates_renamed hz h hc) fun hinner => hc ⟨hz, .inr hinner⟩

mutual

/-- An expression is like itself with `y` in place of `x` if that means the same, each of its other
free variables means itself, and no occurrence is captured. -/
theorem Expr.alike_rename : ∀ (e : Expr) {ns : LocalPairs},
    (∀ o ∈ e.free, ns.Relates known o.1 (x.renamed y o.1)) → ¬e.Captures x y →
      e.Alike known ns (e.rename x y)
  | .number v, _, _, _ => .number v
  | .string s, _, _, _ => .string s
  | .bool b, _, _, _ => .bool b
  | .var _ _, _, h, _ => .var (h _ List.mem_cons_self)
  | .func _ b, _, h, hc => .func (Expr.alike_renameUnder b.alike_rename h hc)
  | .apply f a, _, h, hc =>
    have h := List.forall_mem_append.1 h
    .apply (f.alike_rename h.1 (not_or.1 hc).1) (a.alike_rename h.2 (not_or.1 hc).2)
  | .letIn _ v b, _, h, hc =>
    have h := List.forall_mem_append.1 h
    .letIn (v.alike_rename h.1 (not_or.1 hc).1)
      (Expr.alike_renameUnder b.alike_rename h.2 (not_or.1 hc).2)
  | .ifElse c t n, _, h, hc =>
    have h := List.forall_mem_append.1 h
    have h' := List.forall_mem_append.1 h.2
    have hc := not_or.1 hc
    .ifElse (c.alike_rename h.1 hc.1) (t.alike_rename h'.1 (not_or.1 hc.2).1)
      (n.alike_rename h'.2 (not_or.1 hc.2).2)
  | .matchWith s as, _, h, hc =>
    have h := List.forall_mem_append.1 h
    .matchWith (s.alike_rename h.1 (not_or.1 hc).1) (as.alike_rename h.2 (not_or.1 hc).2)
  | .binary op _ l r, _, h, hc =>
    have h := List.forall_mem_append.1 h
    .binary op (l.alike_rename h.1 (not_or.1 hc).1) (r.alike_rename h.2 (not_or.1 hc).2)
  | .neg a, _, h, hc => .neg (a.alike_rename h hc)
  | .deref a, _, h, hc => .deref (a.alike_rename h hc)
  | .assign t v, _, h, hc =>
    have h := List.forall_mem_append.1 h
    .assign (t.alike_rename h.1 (not_or.1 hc).1) (v.alike_rename h.2 (not_or.1 hc).2)
  | .record fs, _, h, hc => .record (fs.alike_rename h hc)
  | .update b fs, _, h, hc =>
    have h := List.forall_mem_append.1 h
    .update (b.alike_rename h.1 (not_or.1 hc).1) (fs.alike_rename h.2 (not_or.1 hc).2)
  | .field b f, _, h, hc => .field (b.alike_rename h hc) f
  | .tagged t a, _, h, hc => .tagged t (a.alike_rename h hc)
  | .newRef a, _, h, hc => .newRef (a.alike_rename h hc)

theorem Arms.alike_rename : ∀ (as : Arms) {ns : LocalPairs},
    (∀ o ∈ as.free, ns.Relates known o.1 (x.renamed y o.1)) → ¬as.Captures x y →
      as.Alike known ns (as.rename x y)
  | .nil, _, _, _ => .nil
  | .cons none _ b rest, _, h, hc =>
    have h := List.forall_mem_append.1 h
    .otherwise (Expr.alike_renameUnder b.alike_rename h.1 (not_or.1 hc).1)
      (rest.alike_rename h.2 (not_or.1 hc).2)
  | .cons (some _) _ b rest, _, h, hc =>
    have h := List.forall_mem_append.1 h
    .tagged (.here _) (Expr.alike_renameUnder b.alike_rename h.1 (not_or.1 hc).1)
      (rest.alike_rename h.2 (not_or.1 hc).2)

theorem Fields.alike_rename : ∀ (fs : Fields) {ns : LocalPairs},
    (∀ o ∈ fs.free, ns.Relates known o.1 (x.renamed y o.1)) → ¬fs.Captures x y →
      fs.Alike known ns (fs.rename x y)
  | .nil, _, _, _ => .nil
  | .cons f v rest, _, h, hc =>
    have h := List.forall_mem_append.1 h
    .cons f (v.alike_rename h.1 (not_or.1 hc).1) (rest.alike_rename h.2 (not_or.1 hc).2)

end

end

theorem Arms.alike_append {bs cs : Arms} {scope : List Text}
    (h : bs.Alike anyName (.same scope) cs) : ∀ as : Arms,
      (as.append bs).Alike anyName (.same scope) (as.append cs)
  | .nil => h
  | .cons none x b rest => .otherwise (b.alike_same (x :: scope)) (Arms.alike_append h rest)
  | .cons (some _) x b rest =>
    .tagged (.here _) (b.alike_same (x :: scope)) (Arms.alike_append h rest)

namespace Expr

variable {x y : Text} {b : Expr}

theorem MayRebind.alike (h : b.MayRebind x y) (scope : List Text) :
    b.Alike anyName ((x, y) :: LocalPairs.same scope) (b.rename x y) := by
  refine b.alike_rename (fun o ho => ?_) h.notCaptured
  rw [Text.renamed]
  split
  · rename_i hx
    rw [hx]
    exact .here x y
  · rename_i hx
    refine .there hx ?_ (LocalPairs.relates_same scope rfl)
    rintro rfl
    exact h.notFree (List.mem_map_of_mem ho)

/-- With a binder renamed, an expression is like what it was. -/
theorem Rebinds.alike (e e' : Expr) (h : e.Rebinds y e') (scope : List Text) :
    e.Alike anyName (.same scope) e' := by
  cases h with
  | func x h => exact .func (h.alike scope)
  | letIn x v h => exact .letIn (v.alike_same scope) (h.alike scope)
  | arm s before tag x after h =>
    refine .matchWith (s.alike_same scope) (Arms.alike_append ?_ before)
    cases tag with
    | none => exact .otherwise (h.alike scope) (after.alike_same scope)
    | some t => exact .tagged (.here after) (h.alike scope) (after.alike_same scope)

end Expr

/-! ### Renamed programs are programs -/

section

variable {x y : Text}

theorem Text.relabels_renamed (x y z : Text) : z.Relabels (· = y) (x.renamed y z) := by
  rw [renamed]
  split
  · exact .inr rfl
  · exact .refl _ z

theorem Expr.Relabels.renameUnder {b : Expr} (hb : b.Relabels (· = y) (b.rename x y)) {z : Text} :
    b.Relabels (· = y) (if z = x then b else b.rename x y) := by
  split
  · exact b.relabels_self
  · exact hb

mutual

theorem Expr.relabels_rename : ∀ e : Expr, e.Relabels (· = y) (e.rename x y)
  | .number v => .number v
  | .string s => .string s
  | .bool b => .bool b
  | .var z p => .var (Text.relabels_renamed x y z) p
  | .func z b => .func (.refl _ z) (.renameUnder b.relabels_rename)
  | .apply f a => .apply f.relabels_rename a.relabels_rename
  | .letIn z v b => .letIn (.refl _ z) v.relabels_rename (.renameUnder b.relabels_rename)
  | .ifElse c t n => .ifElse c.relabels_rename t.relabels_rename n.relabels_rename
  | .matchWith s as => .matchWith s.relabels_rename as.relabels_rename
  | .binary op p l r => .binary op p l.relabels_rename r.relabels_rename
  | .neg a => .neg a.relabels_rename
  | .deref a => .deref a.relabels_rename
  | .assign t v => .assign t.relabels_rename v.relabels_rename
  | .record fs => .record fs.relabels_rename
  | .update b fs => .update b.relabels_rename fs.relabels_rename
  | .field b f => .field b.relabels_rename f
  | .tagged t a => .tagged t a.relabels_rename
  | .newRef a => .newRef a.relabels_rename

theorem Arms.relabels_rename : ∀ as : Arms, as.Relabels (· = y) (as.rename x y)
  | .nil => .nil
  | .cons tag z b rest =>
    .cons tag (.refl _ z) (.renameUnder b.relabels_rename) rest.relabels_rename

theorem Fields.relabels_rename : ∀ fs : Fields, fs.Relabels (· = y) (fs.rename x y)
  | .nil => .nil
  | .cons f v rest => .cons f v.relabels_rename rest.relabels_rename

end

theorem Arms.relabels_append {W : Text → Prop} {bs cs : Arms} (h : bs.Relabels W cs) :
    ∀ as : Arms, (as.append bs).Relabels W (as.append cs)
  | .nil => h
  | .cons tag z b rest => .cons tag (.refl W z) b.relabels_self (Arms.relabels_append h rest)

theorem Expr.Rebinds.relabels (e e' : Expr) (h : e.Rebinds y e') : e.Relabels (· = y) e' := by
  cases h with
  | func x _ => exact .func (.inr rfl) (Expr.relabels_rename _)
  | letIn x v _ => exact .letIn (.inr rfl) v.relabels_self (Expr.relabels_rename _)
  | arm s before tag x after _ =>
    exact .matchWith s.relabels_self (Arms.relabels_append (W := (· = y))
      (.cons tag (.inr rfl) (Expr.relabels_rename _) after.relabels_self) before)

/-- With a binder renamed to a name that is no keyword, a program that has a source has one
still. -/
theorem exists_parse_of_rebinds (hy : Terminal.name.Spells y) {source : Text} {p q : Program}
    (hp : parse source = .ok p) (h : p.unplaced.Rewrites (Expr.Rebinds y) q) :
    ∃ source' q', parse source' = .ok q' ∧ q'.unplaced = q.unplaced :=
  exists_parse_of_relabels (W := (· = y)) (fun _ hx => hx ▸ hy) hp
    (h.relabels Expr.Rebinds.relabels)

end

end Toplevel
