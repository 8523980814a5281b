import Toplevel.Proofs.Eval.Closed

/-!
# Definitions and the machine in step

As long as no evaluation fails, the machine has the global of every definition that can be named
(`InStep`). A statement keeps it so where it is evaluated to its end, and it can miss a name only if
it is a recursive definition that asks for itself (`InStep.statement`); and so can statements one
after another (`InStep.steps`).
-/

namespace Toplevel

/-- The machine has a value for all that can be named, and its functions refer to nothing else. -/
structure InStep (d : Definitions) (m : Machine Code) : Prop where
  bindings : ∀ b ∈ d.bindings, (m.find? b.2).isSome
  closed : m.heap.Closed fun g => (m.find? g).isSome

/-- A definition among statements asks for itself: the statements in front of it have been
evaluated, and it is recursive and asks for the name that it is to define. -/
def AsksItself (ss : List Statement) (steps : List Step) (m : Machine Code) (x : Text) : Prop :=
  ∃ (before after : List Statement) (name : Text) (value : Expr)
    (stepsBefore stepsAfter : List Step) (g : Global) (c : Code) (v : Value) (m₁ : Machine Code),
    ss = before ++ .define name value true :: after
      ∧ steps = stepsBefore ++ .define g c :: stepsAfter
      ∧ before.length = stepsBefore.length ∧ g.name = name ∧ x = g.text
      ∧ evalSteps maxCalls stepsBefore m = (.ok v, m₁) ∧ m₁.find? g = none
      ∧ (c.eval id (Code.apply maxCalls) [] m₁).1 = .error (.undefined x)

theorem Machine.find?_congr {m m' : Machine Code} (h : m'.globals = m.globals) (g : Global) :
    m'.find? g = m.find? g := by
  rw [find?, find?, h]

theorem Machine.find?_define (m : Machine Code) (g g' : Global) (v : Value) :
    (Machine.find? ⟨m.heap, (g, v) :: m.globals⟩ g') = if g' = g then some v else m.find? g' := by
  rw [find?, find?, List.lookup_cons]
  by_cases h : g' = g
  · subst h
    rw [beq_self_eq_true, if_pos rfl]
  · rw [beq_eq_false_iff_ne.2 h, if_neg h]

/-- What closed code does to a machine whose functions are closed: it sets no global, and the name
that it may miss is one that it may refer to and the machine does not have. -/
theorem Code.eval_confined {P : Global → Prop} {c : Code} {m : Machine Code}
    (hc : c.Closed P []) (hm : m.heap.Closed P) :
    let r := c.eval id (Code.apply maxCalls) [] m
    r.2.globals = m.globals ∧ r.2.heap.Closed P
      ∧ ∀ x, r.1 = .error (.undefined x) → ∃ g, P g ∧ x = g.text ∧ m.find? g = none := by
  have hsteady : Run.Leaves m (c.eval id (Code.apply maxCalls) [] m) :=
    Code.eval_steady (Code.apply_steady maxCalls) c [] m
  have hconfined := Code.eval_closed (Code.apply_closed maxCalls) c [] hc m hm
  refine ⟨hsteady.globals, hconfined.heap, fun x hx => ?_⟩
  obtain ⟨g, hg, rfl⟩ := hconfined.undefined x hx
  exact ⟨g, hg, rfl, (hsteady.fault _ hx).find?_eq_none⟩

namespace AsksItself

variable {ss : List Statement} {steps steps' : List Step} {m m₁ : Machine Code} {x : Text}

theorem append (h : AsksItself ss steps m x) (ss' : List Statement) (steps' : List Step) :
    AsksItself (ss ++ ss') (steps ++ steps') m x := by
  obtain ⟨before, after, name, value, stepsBefore, stepsAfter, g, c, v, m₁, rfl, rfl, h⟩ := h
  exact ⟨before, after ++ ss', name, value, stepsBefore, stepsAfter ++ steps', g, c, v, m₁,
    by simp, by simp, h⟩

/-- What asks for itself does so behind statements that have been evaluated, too. -/
theorem behind (h : AsksItself ss steps m₁ x) (ss' : List Statement) {v : Value}
    (hrun : evalSteps maxCalls steps' m = (.ok v, m₁)) (hlength : ss'.length = steps'.length) :
    AsksItself (ss' ++ ss) (steps' ++ steps) m x := by
  obtain ⟨before, after, name, value, stepsBefore, stepsAfter, g, c, w, m₂, rfl, rfl, hlength',
    hname, hx, hbefore, h⟩ := h
  have hall : ∃ u, evalSteps maxCalls (steps' ++ stepsBefore) m = (.ok u, m₂) := by
    cases stepsBefore with
    | nil =>
      cases hbefore
      exact ⟨v, by rwa [List.append_nil]⟩
    | cons s stepsBefore =>
      exact ⟨w, (evalSteps_append hrun (List.cons_ne_nil _ _)).trans hbefore⟩
  obtain ⟨u, hall⟩ := hall
  exact ⟨ss' ++ before, after, name, value, steps' ++ stepsBefore, stepsAfter, g, c, u, m₂, by simp,
    by simp, by rw [List.length_append, List.length_append, hlength, hlength'], hname, hx, hall, h⟩

end AsksItself

namespace InStep

variable {d d' : Definitions} {m : Machine Code}

/-- An expression is evaluated on a machine that stays in step, and misses no name. -/
theorem expr (h : InStep d m) {e : Expr} {c : Code} (hc : e.HasCode d.bindings [] c) :
    let r := c.eval id (Code.apply maxCalls) [] m
    InStep d r.2 ∧ ∀ x, r.1 ≠ .error (.undefined x) := by
  intro r
  have hclosed : c.Closed (fun g => (m.find? g).isSome) [] :=
    hc.closed fun x g hg => h.bindings (x, g) (mem_of_lookup hg)
  obtain ⟨hglobals, hheap, hundefined⟩ := Code.eval_confined hclosed h.closed
  have hfind := Machine.find?_congr hglobals
  refine ⟨⟨fun b hb => ?_, ?_⟩, fun x hx => ?_⟩
  · rw [hfind]
    exact h.bindings b hb
  · exact hheap.mono fun g hg => by rwa [hfind]
  · obtain ⟨g, hg, -, hnone⟩ := hundefined x hx
    rw [hnone] at hg
    cases hg

theorem define (h : InStep d m) {x : Text} {value : Expr} {recursive : Bool} {c : Code}
    (hc : value.HasCode (if recursive then (d.define x).1.bindings else d.bindings) [] c) :
    let r := c.eval id (Code.apply maxCalls) [] m
    (∀ v, r.1 = .ok v → InStep (d.define x).1 ⟨r.2.heap, ((d.define x).2, v) :: r.2.globals⟩)
      ∧ ∀ y, r.1 = .error (.undefined y) →
        recursive = true ∧ y = (d.define x).2.text ∧ m.find? (d.define x).2 = none := by
  intro r
  generalize hg : (d.define x).2 = g
  have hbindings : (d.define x).1.bindings = d.bindings.set x g := by rw [← hg]; rfl
  -- While the value is evaluated, the global that is being defined may be referred to, too.
  have hclosed : c.Closed (fun g' => (m.find? g').isSome ∨ (recursive = true ∧ g' = g)) [] := by
    refine hc.closed fun y g' hy => ?_
    have hmem := mem_of_lookup hy
    split at hmem
    · rename_i hrec
      rw [hbindings] at hmem
      rcases Bindings.mem_set hmem with heq | hmem
      · cases heq
        exact Or.inr ⟨hrec, rfl⟩
      · exact Or.inl (h.bindings _ hmem)
    · exact Or.inl (h.bindings _ hmem)
  obtain ⟨hglobals, hheap, hundefined⟩ :=
    Code.eval_confined hclosed (h.closed.mono fun _ => Or.inl)
  have hfind := Machine.find?_congr hglobals
  refine ⟨fun v _ => ⟨?_, ?_⟩, fun y hy => ?_⟩
  · intro b hb
    rw [hbindings] at hb
    rw [Machine.find?_define]
    split
    · rfl
    · rename_i hne
      rcases Bindings.mem_set hb with rfl | hb
      · exact absurd rfl hne
      · rw [hfind]
        exact h.bindings b hb
  · refine Heap.Closed.mono (fun g' hg' => ?_) hheap
    rw [Machine.find?_define]
    split
    · rfl
    · rename_i hne
      rw [hfind]
      exact hg'.resolve_right fun hrec => hne hrec.2
  · obtain ⟨g', hg', rfl, hnone⟩ := hundefined y hy
    rw [hnone] at hg'
    obtain ⟨hrec, rfl⟩ := hg'.resolve_left (by nofun)
    exact ⟨hrec, rfl, hnone⟩

/-- What is in step is so behind a statement that is evaluated to its end; otherwise a name can be
missing only because the statement asks for itself. -/
theorem statement {s : Statement} {step : Step} (h : InStep d m)
    (hs : s.compile? d = .ok (step, d')) :
    (∀ v m', step.eval maxCalls m = (.ok v, m') → InStep d' m')
      ∧ ∀ x m', step.eval maxCalls m = (.error (.undefined x), m') → AsksItself [s] [step] m x := by
  cases Statement.compile?_eq_ok_iff.1 hs with
  | @expr e c hc =>
    obtain ⟨hstep, hdefined⟩ := h.expr hc
    constructor
    · intro v m' hv
      rwa [show c.eval id (Code.apply maxCalls) [] m = _ from hv] at hstep
    · intro x m' hx
      rw [show c.eval id (Code.apply maxCalls) [] m = _ from hx] at hdefined
      exact absurd rfl (hdefined x)
  | @define name value recursive c hc =>
    obtain ⟨hstep, hmissing⟩ := h.define hc
    rw [Step.eval]
    rcases hrun : c.eval id (Code.apply maxCalls) [] m with ⟨e | w, m₁⟩
    · rw [hrun] at hmissing
      rw [Run.bind_error hrun]
      constructor
      · intro v m' hv
        cases hv
      · intro x m' hx
        cases hx
        obtain ⟨rfl, rfl, hnone⟩ := hmissing x rfl
        exact ⟨[], [], name, value, [], [], _, c, .null, m, rfl, rfl, rfl, rfl, rfl, rfl, hnone,
          by rw [hrun]⟩
    · rw [hrun] at hstep
      rw [Run.bind_ok hrun]
      constructor
      · intro v m' hv
        cases hv
        exact hstep w rfl
      · intro x m' hx
        cases hx

/-- Statements one after another. -/
theorem statements {ss : List Statement} {steps : List Step} (h : InStep d m)
    (hcompile : compileAll d ss = .ok (steps, d')) :
    (∀ v m', evalSteps maxCalls steps m = (.ok v, m') → InStep d' m')
      ∧ ∀ x m', evalSteps maxCalls steps m = (.error (.undefined x), m') →
        AsksItself ss steps m x := by
  induction ss generalizing d m steps with
  | nil =>
    cases hcompile
    constructor
    · intro v m' hv
      cases hv
      exact h
    · intro x m' hx
      cases hx
  | cons s ss ih =>
    obtain ⟨step, d₁, rest, rfl, hs, hrest⟩ := compileAll_cons_eq_ok_iff.1 hcompile
    obtain ⟨hstep, hasks⟩ := h.statement hs
    rcases hrun : evalSteps maxCalls [step] m with ⟨e | w, m₁⟩
    · rw [show step :: rest = [step] ++ rest from rfl, evalSteps_append_error hrun rest]
      constructor
      · intro v m' hv
        cases hv
      · intro x m' hx
        cases hx
        exact (hasks x _ hrun).append ss rest
    · have h₁ := hstep w _ hrun
      cases ss with
      | nil =>
        cases hrest
        rw [hrun]
        constructor
        · intro v m' hv
          cases hv
          exact h₁
        · intro x m' hx
          cases hx
      | cons s' ss =>
        have hne : rest ≠ [] := by
          obtain ⟨step', d₂, rest', rfl, -⟩ := compileAll_cons_eq_ok_iff.1 hrest
          exact List.cons_ne_nil _ _
        rw [show step :: rest = [step] ++ rest from rfl, evalSteps_append hrun hne]
        obtain ⟨hall, hasks'⟩ := ih h₁ hrest
        refine ⟨hall, fun x m' hx => ?_⟩
        exact (hasks' x m' hx).behind [s] hrun rfl

end InStep

end Toplevel
