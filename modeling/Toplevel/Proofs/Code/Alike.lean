import Toplevel.Proofs.Code.Closed
import Toplevel.Proofs.Syntax.Alike

/-!
# Code that is alike

Code is alike if it differs in local names and in the order of the cases of a match, as expressions
do, and in the numbers of globals (`Code.Alike`). Expressions that are alike compile to code that
is alike, where what is known has its global on both sides (`Expr.compile_alike`). Such code has as
many brackets open at once (`Code.Alike.nesting`).
-/

namespace Toplevel

/-- The second cases are the first without the one for the tag `t`, which is the only one. -/
inductive Cases.Takes (t x : Text) (b : Code) : Cases → Cases → Prop
  | here (rest : Cases) : Takes t x b (.cons t x b rest) rest
  | there {cs ds : Cases} {s : Text} (hs : s ≠ t) (y : Text) (c : Code) (h : Takes t x b cs ds) :
    Takes t x b (.cons s y c cs) (.cons s y c ds)

/-- Names that both sides bind alike, or that neither binds. -/
abbrev LocalPairs.Relate (ns : LocalPairs) (x y : Text) : Prop := ns.Relates anyName x y

mutual

/-- Code that differs in local names and in the order of cases, with `number` for the globals on the
right, given the local names around it. -/
inductive Code.Alike (number : Global → Global) : LocalPairs → Code → Code → Prop
  | number {ns : LocalPairs} (x : Float) : Code.Alike number ns (.number x) (.number x)
  | string {ns : LocalPairs} (s : Text) : Code.Alike number ns (.string s) (.string s)
  | bool {ns : LocalPairs} (b : Bool) : Code.Alike number ns (.bool b) (.bool b)
  | localVar {ns : LocalPairs} {x y : Text} (h : ns.Relate x y) :
    Code.Alike number ns (.localVar x) (.localVar y)
  | globalVar {ns : LocalPairs} (g : Global) :
    Code.Alike number ns (.globalVar g) (.globalVar (number g))
  | lambda {ns : LocalPairs} {x y : Text} {b c : Code} (hb : b.Alike number ((x, y) :: ns) c) :
    Code.Alike number ns (.lambda x b) (.lambda y c)
  | call {ns : LocalPairs} {f g a b : Code} (hf : f.Alike number ns g) (ha : a.Alike number ns b) :
    Code.Alike number ns (.call f a) (.call g b)
  | ifElse {ns : LocalPairs} {c y n c' y' n' : Code} (hc : c.Alike number ns c')
    (hy : y.Alike number ns y') (hn : n.Alike number ns n') :
    Code.Alike number ns (.ifElse c y n) (.ifElse c' y' n')
  | matchOn {ns : LocalPairs} {s t : Code} {cs ds : Cases} (hs : s.Alike number ns t)
    (hcs : cs.Alike number ns ds) : Code.Alike number ns (.matchOn s cs) (.matchOn t ds)
  | binary {ns : LocalPairs} (op : Operator) {l r l' r' : Code} (hl : l.Alike number ns l')
    (hr : r.Alike number ns r') : Code.Alike number ns (.binary op l r) (.binary op l' r')
  | remainder {ns : LocalPairs} {l r l' r' : Code} (hl : l.Alike number ns l')
    (hr : r.Alike number ns r') : Code.Alike number ns (.remainder l r) (.remainder l' r')
  | neg {ns : LocalPairs} {a b : Code} (ha : a.Alike number ns b) :
    Code.Alike number ns (.neg a) (.neg b)
  | deref {ns : LocalPairs} {a b : Code} (ha : a.Alike number ns b) :
    Code.Alike number ns (.deref a) (.deref b)
  | assign {ns : LocalPairs} {t v t' v' : Code} (ht : t.Alike number ns t')
    (hv : v.Alike number ns v') : Code.Alike number ns (.assign t v) (.assign t' v')
  | record {ns : LocalPairs} {es fs : Entries} (hes : es.Alike number ns fs) :
    Code.Alike number ns (.record es) (.record fs)
  | extend {ns : LocalPairs} {b c : Code} {es fs : Entries} (hb : b.Alike number ns c)
    (hes : es.Alike number ns fs) : Code.Alike number ns (.extend b es) (.extend c fs)
  | field {ns : LocalPairs} {b c : Code} (hb : b.Alike number ns c) (x : Text) :
    Code.Alike number ns (.field b x) (.field c x)
  | tagged {ns : LocalPairs} (t : Text) {a b : Code} (ha : a.Alike number ns b) :
    Code.Alike number ns (.tagged t a) (.tagged t b)
  | newRef {ns : LocalPairs} {a b : Code} (ha : a.Alike number ns b) :
    Code.Alike number ns (.newRef a) (.newRef b)

inductive Cases.Alike (number : Global → Global) : LocalPairs → Cases → Cases → Prop
  | nil {ns : LocalPairs} : Cases.Alike number ns .nil .nil
  | otherwise {ns : LocalPairs} {x y : Text} {b c : Code} (hb : b.Alike number ((x, y) :: ns) c) :
    Cases.Alike number ns (.otherwise x b) (.otherwise y c)
  | cons {ns : LocalPairs} {t x y : Text} {b c : Code} {cs ds ds' : Cases}
    (ht : ds.Takes t y c ds') (hb : b.Alike number ((x, y) :: ns) c)
    (hcs : cs.Alike number ns ds') : Cases.Alike number ns (.cons t x b cs) ds

inductive Entries.Alike (number : Global → Global) : LocalPairs → Entries → Entries → Prop
  | nil {ns : LocalPairs} : Entries.Alike number ns .nil .nil
  | cons {ns : LocalPairs} (x : Text) {v w : Code} {es fs : Entries} (hv : v.Alike number ns w)
    (hes : es.Alike number ns fs) : Entries.Alike number ns (.cons x v es) (.cons x w fs)

end

/-- Only a function is like a function. -/
theorem Code.Alike.ne_lambda {number : Global → Global} {ns : LocalPairs} {c d : Code}
    (h : c.Alike number ns d) (hc : ∀ x b, c ≠ .lambda x b) (x : Text) (b : Code) :
    d ≠ .lambda x b := by
  rintro rfl
  cases h with
  | lambda => exact hc _ _ rfl

/-! ### Each code is like itself -/

section

variable {P : Global → Prop} {number : Global → Global} (hnumber : ∀ g, P g → number g = g)

include hnumber

set_option linter.unusedSectionVars false in
mutual

/-- Closed code is like itself if the globals in it keep their numbers. -/
theorem Code.Closed.alike : ∀ {c : Code} {scope : List Text}, c.Closed P scope →
    c.Alike number (.same scope) c
  | .number x, _, _ => .number x
  | .string s, _, _ => .string s
  | .bool b, _, _ => .bool b
  | .localVar _, scope, _ => .localVar (LocalPairs.relates_same scope rfl)
  | .globalVar g, scope, h => by
    have hg : Code.Alike number (.same scope) (.globalVar g) (.globalVar (number g)) := .globalVar g
    rwa [hnumber g h] at hg
  | .lambda _ b, _, h => .lambda (Code.Closed.alike (c := b) h)
  | .call _ _, _, h => .call (Code.Closed.alike h.1) (Code.Closed.alike h.2)
  | .ifElse _ _ _, _, h =>
    .ifElse (Code.Closed.alike h.1) (Code.Closed.alike h.2.1) (Code.Closed.alike h.2.2)
  | .matchOn _ _, _, h => .matchOn (Code.Closed.alike h.1) (Cases.Closed.alike h.2)
  | .binary op _ _, _, h => .binary op (Code.Closed.alike h.1) (Code.Closed.alike h.2)
  | .remainder _ _, _, h => .remainder (Code.Closed.alike h.1) (Code.Closed.alike h.2)
  | .neg a, _, h => .neg (Code.Closed.alike (c := a) h)
  | .deref a, _, h => .deref (Code.Closed.alike (c := a) h)
  | .assign _ _, _, h => .assign (Code.Closed.alike h.1) (Code.Closed.alike h.2)
  | .record es, _, h => .record (@Entries.Closed.alike es _ h)
  | .extend _ _, _, h => .extend (Code.Closed.alike h.1) (Entries.Closed.alike h.2)
  | .field b x, _, h => .field (Code.Closed.alike (c := b) h) x
  | .tagged t a, _, h => .tagged t (Code.Closed.alike (c := a) h)
  | .newRef a, _, h => .newRef (Code.Closed.alike (c := a) h)

theorem Cases.Closed.alike : ∀ {cs : Cases} {scope : List Text}, cs.Closed P scope →
    cs.Alike number (.same scope) cs
  | .nil, _, _ => .nil
  | .otherwise _ b, _, h => .otherwise (Code.Closed.alike (c := b) h)
  | .cons _ _ _ rest, _, h =>
    .cons (.here rest) (Code.Closed.alike h.1) (Cases.Closed.alike h.2)

theorem Entries.Closed.alike : ∀ {es : Entries} {scope : List Text}, es.Closed P scope →
    es.Alike number (.same scope) es
  | .nil, _, _ => .nil
  | .cons x _ _, _, h => .cons x (Code.Closed.alike h.1) (Entries.Closed.alike h.2)

end

end

/-! ### Brackets -/

theorem Cases.Takes.nesting {t x : Text} {b : Code} {cs ds : Cases} (h : cs.Takes t x b ds) :
    cs.nesting = max (2 + b.nesting) ds.nesting := by
  induction h with
  | here rest => rfl
  | there _ y c _ ih =>
    simp only [Cases.nesting, ih]
    omega

section

variable {number : Global → Global}

mutual

theorem Code.Alike.nesting : ∀ {c d : Code} {ns : LocalPairs}, c.Alike number ns d →
    d.nesting = c.nesting
  | .number _, _, _, .number _ => rfl
  | .string _, _, _, .string _ => rfl
  | .bool _, _, _, .bool _ => rfl
  | .localVar _, _, _, .localVar _ => rfl
  | .globalVar _, _, _, .globalVar _ => rfl
  | .lambda .., _, _, .lambda hb => by simp only [Code.nesting, hb.nesting]
  | .call .., _, _, .call hf ha => by simp only [Code.nesting, hf.nesting, ha.nesting]
  | .ifElse .., _, _, .ifElse hc hy hn => by
    simp only [Code.nesting, hc.nesting, hy.nesting, hn.nesting]
  | .matchOn .., _, _, .matchOn hs hcs => by simp only [Code.nesting, hs.nesting, hcs.nesting]
  | .binary .., _, _, .binary _ hl hr => by simp only [Code.nesting, hl.nesting, hr.nesting]
  | .remainder .., _, _, .remainder hl hr => by simp only [Code.nesting, hl.nesting, hr.nesting]
  | .neg _, _, _, .neg ha => by simp only [Code.nesting, ha.nesting]
  | .deref _, _, _, .deref ha => by simp only [Code.nesting, ha.nesting]
  | .assign .., _, _, .assign ht hv => by simp only [Code.nesting, ht.nesting, hv.nesting]
  | .record _, _, _, .record hes => by simp only [Code.nesting, hes.nesting]
  | .extend .., _, _, .extend hb hes => by simp only [Code.nesting, hb.nesting, hes.nesting]
  | .field .., _, _, .field hb _ => by simp only [Code.nesting, hb.nesting]
  | .tagged .., _, _, .tagged _ ha => by simp only [Code.nesting, ha.nesting]
  | .newRef _, _, _, .newRef ha => by simp only [Code.nesting, ha.nesting]

theorem Cases.Alike.nesting : ∀ {cs ds : Cases} {ns : LocalPairs}, cs.Alike number ns ds →
    ds.nesting = cs.nesting
  | .nil, _, _, .nil => rfl
  | .otherwise .., _, _, .otherwise hb => by simp only [Cases.nesting, hb.nesting]
  | .cons .., _, _, .cons ht hb hcs => by
    rw [ht.nesting, Cases.nesting, hb.nesting, hcs.nesting]

theorem Entries.Alike.nesting : ∀ {es fs : Entries} {ns : LocalPairs}, es.Alike number ns fs →
    fs.nesting = es.nesting
  | .nil, _, _, .nil => rfl
  | .cons .., _, _, .cons _ hv hes => by simp only [Entries.nesting, hv.nesting, hes.nesting]

end

end

/-! ### Compiling -/

/-- What comes of the left side comes of the right side too, with what `R` relates to it. -/
def Carries {α α' : Type} (R : α → α' → Prop) (x : Except CompileError α)
    (y : Except CompileError α') : Prop :=
  ∀ ⦃a⦄, x = .ok a → ∃ a', y = .ok a' ∧ R a a'

namespace Carries

variable {α α' β β' : Type} {R : α → α' → Prop} {S : β → β' → Prop}

theorem ok {a : α} {a' : α'} (h : R a a') : Carries R (.ok a) (.ok a') := by
  rintro _ ⟨⟩
  exact ⟨a', rfl, h⟩

theorem error (e : CompileError) (y : Except CompileError α') : Carries R (.error e) y := nofun

theorem bind {x : Except CompileError α} {y : Except CompileError α'}
    {f : α → Except CompileError β} {g : α' → Except CompileError β'} (hx : Carries R x y)
    (hf : ∀ {a a'}, R a a' → Carries S (f a) (g a')) : Carries S (x >>= f) (y >>= g) := by
  intro b hb
  obtain ⟨a, ha, hb⟩ := exists_of_bind_eq_ok hb
  obtain ⟨a', rfl, h⟩ := hx ha
  exact hf h hb

end Carries

theorem BinaryOp.compile_alike {number : Global → Global} {ns : LocalPairs} {l r l' r' : Code}
    (hl : l.Alike number ns l') (hr : r.Alike number ns r') (op : BinaryOp) :
    (op.compile l r).Alike number ns (op.compile l' r') := by
  cases op <;> first | exact .binary _ hl hr | exact .remainder hl hr

section

variable {globals globals' : Bindings} {scope : List Text}

/-- In which order the tags have been met does not matter. -/
theorem Arms.HaveCode.congr_tags : ∀ {scope tags tags' : List Text} {as : Arms} {cs : Cases},
    as.HaveCode globals scope tags cs → (∀ t, t ∈ tags ↔ t ∈ tags') →
      as.HaveCode globals scope tags' cs
  | _, _, _, _, _, .nil, _ => .nil
  | _, _, _, _, _, .otherwise hb, _ => .otherwise hb
  | _, _, _, _, _, .cons (t := t) ht hb hrest, htags =>
    .cons (mt (htags t).2 ht) hb <| hrest.congr_tags fun s => by
      rw [List.mem_cons, List.mem_cons, htags]

/-- Arms have code with one more among them, if its tag is new and its body has code. -/
theorem Arms.Takes.haveCode {t x : Text} {b : Expr} {as bs : Arms} (h : as.Takes t x b bs)
    {c : Code} (hb : b.HasCode globals (x :: scope) c) {tags : List Text} (ht : t ∉ tags)
    {ds : Cases} (hbs : bs.HaveCode globals scope (t :: tags) ds) :
    ∃ cs, as.HaveCode globals scope tags cs ∧ cs.Takes t x c ds := by
  induction h generalizing tags ds with
  | here rest => exact ⟨.cons t x c ds, .cons ht hb hbs, .here ds⟩
  | there s y e _ ih =>
    cases hbs with
    | @cons _ _ _ _ _ _ c' ds' hs he hrest =>
      rw [List.mem_cons, not_or] at hs
      have ht' : t ∉ s :: tags := fun hmem => (List.mem_cons.1 hmem).elim (Ne.symm hs.1) ht
      have hswap : ∀ r, r ∈ s :: t :: tags ↔ r ∈ t :: s :: tags := fun r => by
        simp only [List.mem_cons, or_left_comm]
      obtain ⟨cs, hcs, htakes⟩ := ih ht' (hrest.congr_tags hswap)
      exact ⟨.cons s y c' cs, .cons hs.2 he hcs, .there hs.1 y c' htakes⟩

end

section

variable {known : Text → Bool} {globals globals' : Bindings} {number : Global → Global}
  (hglobals : ∀ x, known x → globals'.find? x = (globals.find? x).map number)

include hglobals

theorem resolve_alike {ns : LocalPairs} {x y : Text} (h : ns.Relates known x y)
    (p q : Position) :
    Carries (Code.Alike number ns) (resolve globals (ns.map Prod.fst) x p)
      (resolve globals' (ns.map Prod.snd) y q) := by
  rcases h.bound_or_free with ⟨hx, hy⟩ | ⟨hx, hy, rfl, hknown⟩
  · rw [resolve, if_pos hx, resolve, if_pos hy]
    exact .ok (.localVar (h.mono fun _ _ => rfl))
  · rw [resolve, if_neg hx, resolve, if_neg hy, hglobals x hknown]
    cases globals.find? x with
    | none => exact .error _ _
    | some g => exact .ok (.globalVar g)

set_option linter.unusedSectionVars false in
mutual

/-- Expressions that are alike compile alike. -/
theorem Expr.compile_alike : ∀ {e e' : Expr} {ns : LocalPairs}, e.Alike known ns e' →
    Carries (Code.Alike number ns) (e.compile globals (ns.map Prod.fst))
      (e'.compile globals' (ns.map Prod.snd))
  | .number x, _, _, .number _ => .ok (.number x)
  | .string s, _, _, .string _ => .ok (.string s)
  | .bool b, _, _, .bool _ => .ok (.bool b)
  | .var _ _, _, _, .var hx => resolve_alike hglobals hx _ _
  | .func _ _, _, _, .func hb => (Expr.compile_alike hb).bind fun hb' => .ok (.lambda hb')
  | .apply _ _, _, _, .apply hf ha =>
    (Expr.compile_alike hf).bind fun hf' =>
      (Expr.compile_alike ha).bind fun ha' => .ok (.call hf' ha')
  | .letIn _ _ _, _, _, .letIn hv hb =>
    (Expr.compile_alike hv).bind fun hv' =>
      (Expr.compile_alike hb).bind fun hb' => .ok (.call (.lambda hb') hv')
  | .ifElse _ _ _, _, _, .ifElse hc hy hn =>
    (Expr.compile_alike hc).bind fun hc' =>
      (Expr.compile_alike hy).bind fun hy' =>
        (Expr.compile_alike hn).bind fun hn' => .ok (.ifElse hc' hy' hn')
  | .matchWith _ _, _, _, .matchWith hs has =>
    (Expr.compile_alike hs).bind fun hs' =>
      (Arms.compile_alike has).bind fun has' => .ok (.matchOn hs' has')
  | .binary _ _ _ _, _, _, .binary op hl hr =>
    (Expr.compile_alike hl).bind fun hl' =>
      (Expr.compile_alike hr).bind fun hr' => .ok (op.compile_alike hl' hr')
  | .neg _, _, _, .neg ha => (Expr.compile_alike ha).bind fun ha' => .ok (.neg ha')
  | .deref _, _, _, .deref ha => (Expr.compile_alike ha).bind fun ha' => .ok (.deref ha')
  | .assign _ _, _, _, .assign ht hv =>
    (Expr.compile_alike ht).bind fun ht' =>
      (Expr.compile_alike hv).bind fun hv' => .ok (.assign ht' hv')
  | .record _, _, _, .record hfs => (Fields.compile_alike hfs).bind fun hfs' => .ok (.record hfs')
  | .update _ _, _, _, .update hb hfs =>
    (Expr.compile_alike hb).bind fun hb' =>
      (Fields.compile_alike hfs).bind fun hfs' => .ok (.extend hb' hfs')
  | .field _ _, _, _, .field hb x => (Expr.compile_alike hb).bind fun hb' => .ok (.field hb' x)
  | .tagged _ _, _, _, .tagged t ha => (Expr.compile_alike ha).bind fun ha' => .ok (.tagged t ha')
  | .newRef _, _, _, .newRef ha => (Expr.compile_alike ha).bind fun ha' => .ok (.newRef ha')

theorem Arms.compile_alike : ∀ {as bs : Arms} {ns : LocalPairs} {tags : List Text} {closed : Bool},
    as.Alike known ns bs →
      Carries (Cases.Alike number ns) (as.compile globals (ns.map Prod.fst) tags closed)
        (bs.compile globals' (ns.map Prod.snd) tags closed)
  | .nil, _, _, _, _, .nil => .ok .nil
  | .cons none _ _ _, _, _, _, closed, .otherwise hb has => by
    simp only [Arms.compile]
    cases closed with
    | true => exact .error _ _
    | false =>
      exact (Expr.compile_alike hb).bind fun hb' =>
        (Arms.compile_alike has).bind fun _ => .ok (.otherwise hb')
  | .cons (some _) _ _ _, _, _, tags, closed, .tagged ht hb has => by
    cases closed with
    | true => exact .error _ _
    | false =>
      intro cs h
      cases Arms.haveCode_of_compile _ h with
      | cons hnew hb' hcs =>
        -- the arm for the tag stands anywhere among those on the right
        obtain ⟨c, hc, hbc⟩ := Expr.compile_alike hb hb'.compile
        obtain ⟨ds', hds', hcd⟩ := Arms.compile_alike has hcs.compile
        obtain ⟨ds, hds, htakes⟩ := ht.haveCode (Expr.hasCode_of_compile _ hc) hnew
          (Arms.haveCode_of_compile _ hds')
        exact ⟨ds, hds.compile, .cons htakes hbc hcd⟩

theorem Fields.compile_alike : ∀ {fs gs : Fields} {ns : LocalPairs} {names : List Text},
    fs.Alike known ns gs →
      Carries (Entries.Alike number ns) (fs.compile globals (ns.map Prod.fst) names)
        (gs.compile globals' (ns.map Prod.snd) names)
  | .nil, _, _, _, .nil => .ok .nil
  | .cons _ _ _, _, _, _, .cons x hv hfs => by
    simp only [Fields.compile]
    split
    · exact .error _ _
    · exact (Expr.compile_alike hv).bind fun hv' =>
        (Fields.compile_alike hfs).bind fun hfs' => .ok (.cons x hv' hfs')

end

end

/-! ### Programs -/

/-- Steps with code that is alike. -/
inductive Step.Alike (number : Global → Global) : Step → Step → Prop
  | define (g : Global) {c c' : Code} (h : c.Alike number [] c') :
    Alike number (.define g c) (.define (number g) c')
  | expr {c c' : Code} (h : c.Alike number [] c') : Alike number (.expr c) (.expr c')

def Compiled.Alike (number : Global → Global) (c c' : Compiled) : Prop :=
  List.Forall₂ (Step.Alike number) c.steps c'.steps

theorem Step.Alike.nesting {number : Global → Global} {s s' : Step} (h : s.Alike number s') :
    s'.nesting = s.nesting := by
  cases h with
  | define g h => simp only [Step.nesting, h.nesting]
  | expr h => simp only [Step.nesting, h.nesting]

theorem Compiled.Alike.nesting {number : Global → Global} {c c' : Compiled}
    (h : c.Alike number c') : c'.nesting = c.nesting := by
  obtain ⟨steps⟩ := c
  obtain ⟨steps'⟩ := c'
  have hall : ∀ n, steps'.foldl (fun n s => max n s.nesting) n
      = steps.foldl (fun n s => max n s.nesting) n := by
    intro n
    change List.Forall₂ (Step.Alike number) steps steps' at h
    induction h generalizing n with
    | nil => rfl
    | cons hs _ ih => rw [List.foldl_cons, List.foldl_cons, hs.nesting, ih]
  match steps, steps', h with
  | [], [], _ => rfl
  | [s], [s'], .cons hs _ => exact hs.nesting
  | _ :: _ :: _, _ :: _ :: _, _ => exact congrArg (1 + ·) (hall 0)

/-- What is known is defined on both sides or on neither, and the globals on the right are numbered
as `number` says; so are those that will be. -/
structure Definitions.Renumbered (known : Text → Bool) (number : Global → Global)
    (d d' : Definitions) : Prop where
  bindings : ∀ x, known x → d'.bindings.find? x = (d.bindings.find? x).map number
  next : ∀ k x, number ⟨d.count + k + 1, x⟩ = ⟨d'.count + k + 1, x⟩

namespace Definitions.Renumbered

variable {known : Text → Bool} {number : Global → Global} {d d' : Definitions}

theorem refl (known : Text → Bool) (d : Definitions) : Renumbered known id d d :=
  ⟨fun _ _ => by rw [Option.map_id_fun, id], fun _ _ => rfl⟩

theorem mono {known' : Text → Bool} (h : Renumbered known number d d')
    (hknown : ∀ x, known' x → known x) : Renumbered known' number d d' :=
  ⟨fun x hx => h.bindings x (hknown x hx), h.next⟩

theorem define (h : Renumbered known number d d') (x : Text) :
    number (d.define x).2 = (d'.define x).2
      ∧ Renumbered (x.bind known) number (d.define x).1 (d'.define x).1 := by
  have hg : number ⟨d.count + 1, x⟩ = ⟨d'.count + 1, x⟩ := h.next 0 x
  refine ⟨hg, ⟨fun y hy => ?_, fun k y => ?_⟩⟩
  · simp only [Definitions.define, Bindings.find?_set]
    split
    · rw [Option.map_some, hg]
    · rename_i hne
      rw [Text.bind, decide_eq_false (Ne.symm hne), Bool.false_or] at hy
      exact h.bindings y hy
  · have hnext := h.next (k + 1) y
    simp only [Definitions.define]
    rwa [Nat.add_right_comm d.count 1 k, Nat.add_right_comm d'.count 1 k]

end Definitions.Renumbered

theorem Statement.extend_of_known {known : Text → Bool} {x : Text} (h : known x) (s : Statement) :
    s.extend known x := by
  cases s with
  | expr e => exact h
  | define y v recursive => rw [extend, Text.bind, h, Bool.or_true]

/-- What has been compiled is alike, and so are the definitions after it. -/
def CompiledTo {α : Type} (R : α → α → Prop) (known : Text → Bool) (number : Global → Global)
    (r r' : α × Definitions) : Prop :=
  R r.1 r'.1 ∧ r.2.Renumbered known number r'.2

theorem Statement.compile?_alike {known : Text → Bool} {number : Global → Global}
    {d d' : Definitions} (hd : d.Renumbered known number d') {s s' : Statement}
    (h : s.Alike known s') :
    Carries (CompiledTo (Step.Alike number) (s.extend known) number) (s.compile? d)
      (s'.compile? d') := by
  cases h with
  | expr h => exact (Expr.compile_alike hd.bindings h).bind fun h' => .ok ⟨.expr h', hd⟩
  | define x recursive h =>
    obtain ⟨hg, hdefine⟩ := hd.define x
    have hbindings : ∀ y, (if recursive then x.bind known else known) y →
        (if recursive then (d'.define x).1.bindings else d'.bindings).find? y
          = ((if recursive then (d.define x).1.bindings else d.bindings).find? y).map number := by
      cases recursive
      · exact hd.bindings
      · exact hdefine.bindings
    refine (Expr.compile_alike hbindings h).bind fun h' => .ok ⟨?_, hdefine⟩
    have hstep := Step.Alike.define (d.define x).2 h'
    rwa [hg] at hstep

/-- Statements that are alike compile alike. -/
theorem compileAll_alike {known : Text → Bool} {number : Global → Global} {d d' : Definitions}
    (hd : d.Renumbered known number d') {ss ss' : List Statement}
    (h : Statement.AllAlike known ss ss') :
    Carries (CompiledTo (List.Forall₂ (Step.Alike number)) known number) (compileAll d ss)
      (compileAll d' ss') := by
  induction h generalizing d d' with
  | nil => exact .ok ⟨.nil, hd⟩
  | @cons known s s' ss ss' hs _ ih =>
    refine (Statement.compile?_alike hd hs).bind fun hstep => ?_
    exact (ih hstep.2).bind fun hrest =>
      .ok ⟨.cons hstep.1 hrest.1, hrest.2.mono fun x hx => Statement.extend_of_known hx s⟩

theorem Program.compile?_alike {known : Text → Bool} {number : Global → Global}
    {d d' : Definitions} (hd : d.Renumbered known number d') {p q : Program}
    (h : Statement.AllAlike known p.statements q.statements) :
    Carries (CompiledTo (Compiled.Alike number) known number) (p.compile? d) (q.compile? d') :=
  (compileAll_alike hd h).bind fun h' => .ok h'

/-! ### What is wrong -/

/-- Where a name is bound once more, as much is known of what is free in the body as around it. -/
theorem Text.bind_congr {known known' : Text → Bool} {x : Text} {os : List (Text × Position)}
    (h : ∀ o ∈ os.filter (·.1 ≠ x), known o.1 = known' o.1) :
    ∀ o ∈ os, x.bind known o.1 = x.bind known' o.1 := by
  intro o ho
  rw [Text.bind, Text.bind]
  by_cases hx : o.1 = x
  · rw [decide_eq_true hx, Bool.true_or, Bool.true_or]
  · rw [h o (List.mem_filter.2 ⟨ho, decide_eq_true hx⟩)]

mutual

/-- What is wrong with an expression depends on its free variables only. -/
theorem Expr.violations_congr : ∀ (e : Expr) {known known' : Text → Bool},
    (∀ o ∈ e.free, known o.1 = known' o.1) → e.violations known = e.violations known'
  | .number _, _, _, _ | .string _, _, _, _ | .bool _, _, _, _ => rfl
  | .var x p, _, _, h => by rw [Expr.violations, Expr.violations, h (x, p) List.mem_cons_self]
  | .func _ b, _, _, h => b.violations_congr (Text.bind_congr h)
  | .apply a b, _, _, h | .binary _ _ a b, _, _, h | .assign a b, _, _, h => by
    obtain ⟨ha, hb⟩ := List.forall_mem_append.1 h
    exact congrArg₂ (· ++ ·) (a.violations_congr ha) (b.violations_congr hb)
  | .letIn _ v b, _, _, h => by
    obtain ⟨hv, hb⟩ := List.forall_mem_append.1 h
    exact congrArg₂ (· ++ ·) (v.violations_congr hv) (b.violations_congr (Text.bind_congr hb))
  | .ifElse c y n, _, _, h => by
    obtain ⟨hc, h⟩ := List.forall_mem_append.1 h
    obtain ⟨hy, hn⟩ := List.forall_mem_append.1 h
    exact congrArg₂ (· ++ ·) (c.violations_congr hc)
      (congrArg₂ (· ++ ·) (y.violations_congr hy) (n.violations_congr hn))
  | .matchWith s as, _, _, h => by
    obtain ⟨hs, has⟩ := List.forall_mem_append.1 h
    exact congrArg₂ (· ++ ·) (s.violations_congr hs) (as.violations_congr [] has)
  | .neg a, _, _, h | .deref a, _, _, h | .newRef a, _, _, h | .field a _, _, _, h
  | .tagged _ a, _, _, h => a.violations_congr h
  | .record fs, _, _, h => fs.violations_congr [] h
  | .update b fs, _, _, h => by
    obtain ⟨hb, hfs⟩ := List.forall_mem_append.1 h
    exact congrArg₂ (· ++ ·) (b.violations_congr hb) (fs.violations_congr [] hfs)

theorem Arms.violations_congr : ∀ (as : Arms) (before : List (Option Text))
    {known known' : Text → Bool}, (∀ o ∈ as.free, known o.1 = known' o.1) →
      as.violations known before = as.violations known' before
  | .nil, _, _, _, _ => rfl
  | .cons tag _ b rest, before, _, _, h => by
    obtain ⟨hb, hrest⟩ := List.forall_mem_append.1 h
    rw [Arms.violations, Arms.violations, b.violations_congr (Text.bind_congr hb),
      rest.violations_congr (tag :: before) hrest]

theorem Fields.violations_congr : ∀ (fs : Fields) (before : List Text)
    {known known' : Text → Bool}, (∀ o ∈ fs.free, known o.1 = known' o.1) →
      fs.violations known before = fs.violations known' before
  | .nil, _, _, _, _ => rfl
  | .cons x v rest, before, _, _, h => by
    obtain ⟨hv, hrest⟩ := List.forall_mem_append.1 h
    rw [Fields.violations, Fields.violations, v.violations_congr hv,
      rest.violations_congr (x :: before) hrest]

end

theorem Statement.violations_congr {known known' : Text → Bool} (s : Statement)
    (h : ∀ o ∈ s.free, known o.1 = known' o.1) : s.violations known = s.violations known' := by
  cases s with
  | expr e => exact e.violations_congr h
  | define x v recursive =>
    cases recursive with
    | false => exact v.violations_congr h
    | true => exact v.violations_congr (Text.bind_congr h)

theorem violationsAll_congr {known known' : Text → Bool} {ss : List Statement}
    (h : ∀ o ∈ freeAll ss, known o.1 = known' o.1) :
    violationsAll known ss = violationsAll known' ss := by
  induction ss generalizing known known' with
  | nil => rfl
  | cons s ss ih =>
    obtain ⟨hs, hss⟩ := List.forall_mem_append.1 h
    refine congrArg₂ (· ++ ·) (s.violations_congr hs) (ih ?_)
    cases s with
    | expr e => exact fun o ho => hss o (List.mem_filter.2 ⟨ho, rfl⟩)
    | define x v recursive =>
      refine Text.bind_congr fun o ho => hss o ?_
      obtain ⟨ho, hx⟩ := List.mem_filter.1 ho
      refine List.mem_filter.2 ⟨ho, decide_eq_true fun he => ?_⟩
      exact of_decide_eq_true hx (Option.some.inj he).symm

/-- A program compiles on both sides to code that is alike, or is wrong in the same way. -/
theorem compileSource_alike {known : Text → Bool} {number : Global → Global} {d d' : Definitions}
    (hd : d.Renumbered known number d') {source : Text}
    (hfree : ∀ p, parse source = .ok p → ∀ o ∈ p.free, known o.1) :
    (∃ e, compileSource source d = .error e ∧ compileSource source d' = .error e)
      ∨ ∃ c e c' e', compileSource source d = .ok (c, e) ∧ compileSource source d' = .ok (c', e')
        ∧ c.Alike number c' ∧ e.Renumbered known number e' := by
  rw [compileSource, compileSource]
  cases hp : parse source with
  | error e => exact .inl ⟨_, rfl, rfl⟩
  | ok p =>
    have hviolations : p.violations d' = p.violations d := by
      refine violationsAll_congr fun o ho => ?_
      rw [Definitions.knows, Definitions.knows, hd.bindings o.1 (hfree p hp o ho),
        Option.isSome_map]
    have hfollows := p.compile?_follows d
    have hfollows' := p.compile?_follows d'
    rw [hviolations] at hfollows'
    cases hwrong : p.violations d with
    | cons e es =>
      rw [hwrong] at hfollows hfollows'
      exact .inl ⟨e, hfollows, hfollows'⟩
    | nil =>
      rw [hwrong] at hfollows
      obtain ⟨⟨c, e⟩, hc⟩ := hfollows
      obtain ⟨⟨c', e'⟩, hc', halike, he⟩ :=
        Program.compile?_alike hd (Statement.allAlike_self (hfree p hp)) hc
      exact .inr ⟨c, e, c', e', hc, hc', halike, he⟩

end Toplevel
