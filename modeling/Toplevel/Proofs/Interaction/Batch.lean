import Toplevel.Proofs.Eval.WholeNumbers
import Toplevel.Proofs.Interaction.Actions

/-!
# Statements at once and one by one

Statements that are joined by semicolons and executed at once come to the same end as when they are
executed one by one (`Interaction.execute_join`). The joined source is compiled as a whole before
any of it is evaluated, but code does not depend on values. Only the bracket around several
statements counts: their code opens one bracket more than that of each alone.
-/

namespace Toplevel

/-! ### Code of statements -/

/-- The code of a source is that of the statements that it denotes. -/
theorem Text.Denotes.compileSource_eq_ok_iff {source : Text} {ss : List Statement}
    (h : source.Denotes ss) {d d' : Definitions} {code : Compiled} :
    compileSource source d = .ok (code, d') ↔ compileAll d ss = .ok (code.steps, d') := by
  obtain ⟨ss', hparse, hunplaced⟩ := h
  rw [← toOption_eq_some_iff (x := compileAll d ss), ← compileAll_of_unplaced hunplaced,
    toOption_eq_some_iff, compileSource, hparse]
  exact Program.compile?_eq_ok_iff

theorem Compiled.evaluate_eq_ok_iff {c : Compiled} {m m' : Machine Code} {v : Value} :
    c.evaluate m = (.ok v, m')
      ↔ c.nesting < maxBrackets ∧ evalSteps maxCalls c.steps m = (.ok v, m') := by
  unfold Compiled.evaluate
  split
  · rename_i h
    exact ⟨fun h' => (nomatch h'), fun h' => by omega⟩
  · rename_i h
    exact ⟨fun h' => ⟨by omega, h'⟩, fun h' => h'.2⟩

/-- Each step opens no more brackets than the code that it is a step of. -/
theorem Compiled.nesting_le {c : Compiled} {step : Step} (h : step ∈ c.steps) :
    step.nesting ≤ c.nesting := by
  have hfold : ∀ (steps : List Step) (n : Nat), n ≤ steps.foldl (fun n s => max n s.nesting) n
      ∧ ∀ step ∈ steps, step.nesting ≤ steps.foldl (fun n s => max n s.nesting) n := by
    intro steps
    induction steps with
    | nil => exact fun n => ⟨Nat.le_refl n, List.forall_mem_nil _⟩
    | cons s steps ih =>
      intro n
      obtain ⟨hn, hsteps⟩ := ih (max n s.nesting)
      refine ⟨(Nat.le_max_left _ _).trans hn, fun step hstep => ?_⟩
      rcases List.mem_cons.1 hstep with rfl | hstep
      · exact (Nat.le_max_right _ _).trans hn
      · exact hsteps step hstep
  obtain ⟨steps⟩ := c
  match steps, h with
  | [s], h =>
    cases List.mem_singleton.1 h
    exact Nat.le_refl _
  | s :: s' :: steps, h =>
    exact ((hfold (s :: s' :: steps) 0).2 step h).trans (Nat.le_add_left _ 1)

/-! ### Runs of statements -/

/-- Statements that compile to these steps, and the end of these when nothing goes wrong. -/
structure RunsTo (ss : List Statement) (d : Definitions) (m : Machine Code) (steps : List Step)
    (r : Attempt) : Prop where
  compiles : compileAll d ss = .ok (steps, r.definitions)
  evaluates : ∃ v, evalSteps maxCalls steps m = (.ok v, r.machine)
    ∧ r.outcome = Run.outcome (.ok v, r.machine)

/-- The first of several statements is run, and then the others where it ends. -/
theorem runsTo_cons_iff {s s' : Statement} {ss : List Statement} {d : Definitions}
    {m : Machine Code} {steps : List Step} {r : Attempt} :
    RunsTo (s :: s' :: ss) d m steps r ↔ ∃ step rest r₁, steps = step :: rest
      ∧ RunsTo [s] d m [step] r₁ ∧ RunsTo (s' :: ss) r₁.definitions r₁.machine rest r := by
  constructor
  · rintro ⟨hcompile, v, heval, hr⟩
    obtain ⟨step, d₁, rest, rfl, hs, hrest⟩ := compileAll_cons_eq_ok_iff.1 hcompile
    obtain ⟨step', d₂, rest', rfl, hs', hrest'⟩ := compileAll_cons_eq_ok_iff.1 hrest
    rcases hstep : step.eval maxCalls m with ⟨f | w, m₁⟩
    · rw [evalSteps_cons, Run.bind_error hstep] at heval
      cases heval
    · rw [evalSteps_cons, Run.bind_ok hstep] at heval
      exact ⟨step, step' :: rest', ⟨Run.outcome (.ok w, m₁), d₁, m₁⟩, rfl,
        ⟨compileAll_cons_eq_ok_iff.2 ⟨step, d₁, [], rfl, hs, rfl⟩, w, hstep, rfl⟩,
        hrest, v, heval, hr⟩
  · rintro ⟨step, rest, r₁, rfl, ⟨hcompile, w, hstep, -⟩, hcompile', v, heval, hr⟩
    obtain ⟨_, d₁, _, hsteps, hs, hnil⟩ := compileAll_cons_eq_ok_iff.1 hcompile
    cases hsteps
    cases hnil
    obtain ⟨step', d₂, rest', rfl, -⟩ := compileAll_cons_eq_ok_iff.1 hcompile'
    refine ⟨compileAll_cons_eq_ok_iff.2 ⟨step, _, _, rfl, hs, hcompile'⟩, v, ?_, hr⟩
    rw [evalSteps_cons, Run.bind_ok (show step.eval maxCalls m = _ from hstep)]
    exact heval

namespace Interaction

/-- A source compiles, and its code is evaluated without a fault. -/
def Evaluates (i : Interaction EngineState) (source : Text) : Prop :=
  ∃ code d v m, compileSource source i.engine.session.definitions = .ok (code, d)
    ∧ code.evaluate i.engine.machine = (.ok v, m)

/-- Each of some sources does so where the one before it ends. -/
def EvaluatesAll (i : Interaction EngineState) : List Text → Prop
  | [] => True
  | t :: ts => i.Evaluates t ∧ (i.act .standard (.execute t)).2.EvaluatesAll ts

/-- A source is answered as the last of some others is, and leaves the same definitions and the same
machine behind as they do one by one. -/
structure EndsAs (i : Interaction EngineState) (source : Text) (texts : List Text) : Prop where
  answer : some (i.act .standard (.execute source)).1
    = (i.answers .standard (texts.map .execute)).getLast?
  definitions : (i.act .standard (.execute source)).2.engine.session.definitions
    = (i.acts .standard (texts.map .execute)).engine.session.definitions
  machine : (i.act .standard (.execute source)).2.engine.machine
    = (i.acts .standard (texts.map .execute)).engine.machine

variable {i : Interaction EngineState} {source : Text} {texts : List Text} {ss : List Statement}
  {steps : List Step} {r : Attempt}

/-- The statements that an interaction runs from where it is. -/
def Runs (i : Interaction EngineState) (ss : List Statement) (steps : List Step) (r : Attempt) :
    Prop :=
  RunsTo ss i.engine.session.definitions i.engine.machine steps r

theorem Runs.exists_single {s : Statement} (h : i.Runs [s] steps r) : ∃ step, steps = [step] := by
  obtain ⟨step, d₁, rest, rfl, -, hrest⟩ := compileAll_cons_eq_ok_iff.1 h.compiles
  cases hrest
  exact ⟨step, rfl⟩

theorem evaluates_iff (h : source.Denotes ss) :
    i.Evaluates source
      ↔ ∃ steps r, i.Runs ss steps r ∧ (⟨steps⟩ : Compiled).nesting < maxBrackets := by
  constructor
  · rintro ⟨⟨steps⟩, d, v, m, hcompile, heval⟩
    obtain ⟨hfits, heval⟩ := Compiled.evaluate_eq_ok_iff.1 heval
    exact ⟨steps, ⟨Run.outcome (.ok v, m), d, m⟩,
      ⟨h.compileSource_eq_ok_iff.1 hcompile, v, heval, rfl⟩, hfits⟩
  · rintro ⟨steps, r, ⟨hcompile, v, heval, -⟩, hfits⟩
    exact ⟨⟨steps⟩, r.definitions, v, r.machine, h.compileSource_eq_ok_iff.2 hcompile,
      Compiled.evaluate_eq_ok_iff.2 ⟨hfits, heval⟩⟩

/-- What is answered to a source that compiles, and what is left behind. -/
theorem act_of_denotes (h : source.Denotes ss) {d : Definitions}
    (hcompile : compileAll i.engine.session.definitions ss = .ok (steps, d)) :
    (i.act .standard (.execute source)).1
        = .ok (some (Run.outcome ((⟨steps⟩ : Compiled).evaluate i.engine.machine)))
      ∧ Attempt.Behind ⟨Run.outcome ((⟨steps⟩ : Compiled).evaluate i.engine.machine), d,
          ((⟨steps⟩ : Compiled).evaluate i.engine.machine).2⟩
        (i.act .standard (.execute source)).2.engine := by
  have hsource : compileSource source i.engine.session.definitions = .ok (⟨steps⟩, d) :=
    h.compileSource_eq_ok_iff.2 hcompile
  have hact := act_of_source (a := .execute source) rfl i
  rw [show i.definitionsFor (.execute source) = i.engine.session.definitions from rfl, attempt,
    hsource] at hact
  exact hact

theorem Runs.act (hruns : i.Runs ss steps r) (h : source.Denotes ss)
    (hfits : (⟨steps⟩ : Compiled).nesting < maxBrackets) :
    (i.act .standard (.execute source)).1 = .ok (some r.outcome)
      ∧ r.Behind (i.act .standard (.execute source)).2.engine := by
  obtain ⟨hcompile, v, heval, hr⟩ := hruns
  have heval : (⟨steps⟩ : Compiled).evaluate i.engine.machine = (.ok v, r.machine) :=
    Compiled.evaluate_eq_ok_iff.2 ⟨hfits, heval⟩
  have hact := act_of_denotes h hcompile
  rw [heval, ← hr] at hact
  exact hact

/-- A source that is answered with a value evaluates. -/
theorem evaluates_of_answer {t : Text}
    (h : (i.act .standard (.execute source)).1 = .ok (some (.value t))) : i.Evaluates source := by
  rw [(act_of_source (a := .execute source) rfl i).1, show i.definitionsFor (.execute source)
    = i.engine.session.definitions from rfl, attempt] at h
  rcases hc : compileSource source i.engine.session.definitions with e | ⟨code, d⟩
  · rw [hc] at h
    cases h
  · rw [hc] at h
    rcases he : code.evaluate i.engine.machine with ⟨f | v, m⟩
    · simp only [he] at h
      cases h
    · exact ⟨code, d, v, m, hc, he⟩

theorem evaluates_single_iff {s : Statement} (h : source.Denotes [s]) :
    i.Evaluates source ↔ ∃ step r, i.Runs [s] [step] r ∧ step.nesting < maxBrackets := by
  rw [evaluates_iff h]
  constructor
  · rintro ⟨steps, r, hruns, hfits⟩
    obtain ⟨step, rfl⟩ := hruns.exists_single
    exact ⟨step, r, hruns, hfits⟩
  · rintro ⟨step, r, hruns, hfits⟩
    exact ⟨[step], r, hruns, hfits⟩

/-- Statements run from what an attempt has left behind. -/
theorem runs_of_behind (h : r.Behind i.engine) {r' : Attempt} :
    i.Runs ss steps r' ↔ RunsTo ss r.definitions r.machine steps r' := by
  rw [Runs, h.definitions, h.machine]

theorem evaluatesAll_iff (hne : texts ≠ [])
    (h : List.Forall₂ (fun t s => t.Denotes [s]) texts ss) :
    i.EvaluatesAll texts
      ↔ ∃ steps r, i.Runs ss steps r ∧ ∀ step ∈ steps, step.nesting < maxBrackets := by
  induction h generalizing i with
  | nil => exact absurd rfl hne
  | @cons t s texts ss hs hss ih =>
    cases hss with
    | nil =>
      rw [EvaluatesAll, EvaluatesAll, and_true, evaluates_single_iff hs]
      constructor
      · rintro ⟨step, r, hruns, hfits⟩
        exact ⟨[step], r, hruns, fun step' hstep => (List.mem_singleton.1 hstep) ▸ hfits⟩
      · rintro ⟨steps, r, hruns, hfits⟩
        obtain ⟨step, rfl⟩ := hruns.exists_single
        exact ⟨step, r, hruns, hfits step (List.mem_singleton_self step)⟩
    | @cons t' s' texts ss hs' hss =>
      rw [EvaluatesAll, ih (List.cons_ne_nil _ _), evaluates_single_iff hs]
      constructor
      · rintro ⟨⟨step, r₁, hfirst, hfit⟩, rest, r, hrest, hfits⟩
        rw [runs_of_behind (hfirst.act hs hfit).2] at hrest
        exact ⟨step :: rest, r, runsTo_cons_iff.2 ⟨step, rest, r₁, rfl, hfirst, hrest⟩,
          List.forall_mem_cons.2 ⟨hfit, hfits⟩⟩
      · rintro ⟨steps, r, hruns, hfits⟩
        obtain ⟨step, rest, r₁, rfl, hfirst, hrest⟩ := runsTo_cons_iff.1 hruns
        obtain ⟨hfit, hfits⟩ := List.forall_mem_cons.1 hfits
        have hbehind := (Runs.act (i := i) hfirst hs hfit).2
        exact ⟨⟨step, r₁, hfirst, hfit⟩, rest, r, (runs_of_behind hbehind).2 hrest, hfits⟩

/-- What the last of some sources that evaluate is answered with, and what they leave behind. -/
theorem Runs.acts (hruns : i.Runs ss steps r) (hne : texts ≠ [])
    (h : List.Forall₂ (fun t s => t.Denotes [s]) texts ss)
    (hfits : ∀ step ∈ steps, step.nesting < maxBrackets) :
    (i.answers .standard (texts.map .execute)).getLast? = some (.ok (some r.outcome))
      ∧ r.Behind (i.acts .standard (texts.map .execute)).engine := by
  induction h generalizing i steps with
  | nil => exact absurd rfl hne
  | @cons t s texts ss hs hss ih =>
    cases hss with
    | nil =>
      obtain ⟨step, rfl⟩ := hruns.exists_single
      obtain ⟨hanswer, hbehind⟩ := hruns.act hs (hfits step (List.mem_singleton_self step))
      exact ⟨congrArg some hanswer, hbehind⟩
    | @cons t' s' texts ss hs' hss =>
      obtain ⟨step, rest, r₁, rfl, hfirst, hrest⟩ := runsTo_cons_iff.1 hruns
      obtain ⟨hfit, hfits⟩ := List.forall_mem_cons.1 hfits
      have hbehind := (Runs.act (i := i) hfirst hs hfit).2
      have hlast := ih ((runs_of_behind hbehind).2 hrest) (List.cons_ne_nil _ _) hfits
      simp only [List.map_cons, answers, Interaction.acts, List.foldl_cons,
        List.getLast?_cons_cons] at hlast ⊢
      exact hlast

/-! ### Whole numbers -/

theorem compileAll_expr {e : Expr} {c : Code} {d : Definitions}
    (h : e.compile d.bindings [] = .ok c) (hrest : compileAll d ss = .ok (steps, d)) :
    compileAll d (.expr e :: ss) = .ok (.expr c :: steps, d) := by
  refine compileAll_cons_eq_ok_iff.2 ⟨_, d, steps, rfl, ?_, hrest⟩
  rw [Statement.compile?, h]
  rfl

/-- An expression that evaluates is answered with its value, on the machine that it leaves. -/
theorem act_expr {t : Text} {e : Expr} {c : Code} {v : Value} {m : Machine Code}
    (ht : t.Denotes [.expr e])
    (hc : e.compile i.engine.session.definitions.bindings [] = .ok c)
    (hfits : c.nesting < maxBrackets)
    (heval : c.eval id (Code.apply maxCalls) [] i.engine.machine = (.ok v, m)) :
    (i.act .standard (.execute t)).1 = .ok (some (Run.outcome (.ok v, m)))
      ∧ (i.act .standard (.execute t)).2.engine.machine = m := by
  have hruns : i.Runs [.expr e] [.expr c] ⟨Run.outcome (.ok v, m),
      i.engine.session.definitions, m⟩ := ⟨compileAll_expr hc rfl, v, heval, rfl⟩
  obtain ⟨hanswer, hbehind⟩ := hruns.act ht hfits
  exact ⟨hanswer, hbehind.machine⟩

theorem act_ones (i : Interaction EngineState) {n : Nat} (hn : n < maxBrackets) :
    (i.act .standard (.execute (Text.ones n))).1
      = .ok (some (Run.outcome (.ok (Value.ones n), i.engine.machine))) :=
  (act_expr (Text.isStatement_ones n).2 (Expr.compile_ones n _ _)
    ((Code.nesting_ones n).trans_lt hn) (Code.eval_ones n)).1

theorem act_tower (i : Interaction EngineState) {n : Nat} (hn : n + 3 < maxBrackets) :
    (i.act .standard (.execute (Text.tower n))).1
      = .ok (some (Run.outcome (.ok (.int (2 ^ 2 ^ n)), i.engine.machine))) :=
  (act_expr (Text.isStatement_tower n).2 (Expr.compile_tower n _ _)
    ((Code.nesting_tower_le n).trans_lt hn) (Code.eval_tower n)).1

section

variable {β : Type} {v : Value} {m : Machine β}

theorem outcome_of_text {t : Text} (hv : ∀ a, v ≠ .object a) (h : v.atomText = .ok t) :
    Run.outcome (.ok v, m) = .value t := by
  simp only [Run.outcome, Heap.display_atom _ hv, h]

theorem outcome_of_error {e : DisplayError} (hv : ∀ a, v ≠ .object a)
    (h : v.atomText = .error e) :
    Run.outcome (.ok v, m) = .evaluationFault (.ofDisplayError e) := by
  simp only [Run.outcome, Heap.display_atom _ hv, h]

end

/-- A statement and one more behind it, which is `true`. -/
theorem act_batch {i : Interaction EngineState} {e : Expr} {c : Code} {t : Text}
    (ht : t.IsStatement ∧ t.Denotes [.expr e])
    (hc : e.compile i.engine.session.definitions.bindings [] = .ok c) :
    (i.act .standard (.execute (Text.join [';'] [t, Text.ones 0]))).1
      = .ok (some (Run.outcome
          (Compiled.evaluate ⟨[.expr c, .expr (Code.ones 0)]⟩ i.engine.machine))) := by
  have h : ∀ u ∈ [t, Text.ones 0], u.IsStatement :=
    List.forall_mem_cons.2 ⟨ht.1, List.forall_mem_singleton.2 (Text.isStatement_ones 0).1⟩
  have hjoin := Text.denotes_join (List.cons_ne_nil _ _) h
    (.cons ht.2 (.cons (Text.isStatement_ones 0).2 .nil))
  exact (act_of_denotes hjoin
    (compileAll_expr hc (compileAll_expr (Expr.compile_ones 0 _ _) rfl))).1

/-- A sum that just fits between brackets does not with another statement behind it. -/
theorem act_batch_ones (i : Interaction EngineState) {n : Nat} (hn : maxBrackets ≤ n + 1) :
    (i.act .standard (.execute (Text.join [';'] [Text.ones n, Text.ones 0]))).1
      = .ok (some (.evaluationFault .tooManyBrackets)) := by
  have hnesting : Compiled.nesting ⟨[.expr (Code.ones n), .expr (Code.ones 0)]⟩ = 1 + n := by
    simp only [Compiled.nesting, List.foldl_cons, List.foldl_nil, Step.nesting, Code.nesting_ones]
    omega
  rw [act_batch (Text.isStatement_ones n) (Expr.compile_ones n _ _), Compiled.evaluate,
    if_pos (by omega)]
  rfl

theorem act_batch_tower (i : Interaction EngineState) {n : Nat} (hn : n + 4 < maxBrackets) :
    (i.act .standard (.execute (Text.join [';'] [Text.tower n, Text.ones 0]))).1
      = .ok (some (.value "true")) := by
  have hnesting : Compiled.nesting ⟨[.expr (Code.tower n), .expr (Code.ones 0)]⟩
      < maxBrackets := by
    have htower := Code.nesting_tower_le n
    have hones := Code.nesting_ones 0
    simp only [Compiled.nesting, List.foldl_cons, List.foldl_nil, Step.nesting]
    omega
  have heval : ∀ m, evalSteps maxCalls [.expr (Code.tower n), .expr (Code.ones 0)] m
      = (.ok (Value.ones 0), m) := by
    intro m
    have htower : (Step.expr (Code.tower n)).eval maxCalls m = (.ok (.int (2 ^ 2 ^ n)), m) :=
      Code.eval_tower n
    rw [evalSteps_cons, Run.bind_ok htower]
    rfl
  rw [act_batch (Text.isStatement_tower n) (Expr.compile_tower n _ _),
    Compiled.evaluate_eq_ok_iff.2 ⟨hnesting, heval _⟩,
    outcome_of_text (Value.ones_ne_object 0) Value.atomText_ones_zero]

/-! ### At once and one by one -/

/-- If some statements evaluate one by one, then they compile as one program, and it evaluates as
well if it does not open too many brackets. If the program evaluates, then so do the statements one
by one. In either case the last answer, the definitions and the machine are the same. -/
theorem execute_join (i : Interaction EngineState) {texts : List Text} (hne : texts ≠ [])
    (h : ∀ t ∈ texts, t.IsStatement) :
    (i.EvaluatesAll texts → ∃ code d,
        compileSource (Text.join [';'] texts) i.engine.session.definitions = .ok (code, d)
          ∧ (code.nesting < maxBrackets →
            i.Evaluates (Text.join [';'] texts) ∧ i.EndsAs (Text.join [';'] texts) texts))
      ∧ (i.Evaluates (Text.join [';'] texts) →
        i.EvaluatesAll texts ∧ i.EndsAs (Text.join [';'] texts) texts) := by
  obtain ⟨trees, ss, -, -, hdenotes⟩ := Text.exists_statements h
  have hjoin := Text.denotes_join hne h hdenotes
  rw [evaluatesAll_iff hne hdenotes, evaluates_iff hjoin]
  have hends : ∀ {steps r}, i.Runs ss steps r → (⟨steps⟩ : Compiled).nesting < maxBrackets →
      i.EndsAs (Text.join [';'] texts) texts := by
    intro steps r hruns hfits
    obtain ⟨hanswer, hbehind⟩ := hruns.act hjoin hfits
    obtain ⟨hanswer', hbehind'⟩ := hruns.acts hne hdenotes fun step hstep =>
      (Compiled.nesting_le (c := ⟨steps⟩) hstep).trans_lt hfits
    exact ⟨by rw [hanswer, hanswer'], hbehind.definitions.trans hbehind'.definitions.symm,
      hbehind.machine.trans hbehind'.machine.symm⟩
  constructor
  · rintro ⟨steps, r, hruns, -⟩
    exact ⟨⟨steps⟩, r.definitions, hjoin.compileSource_eq_ok_iff.2 hruns.compiles, fun hfits =>
      ⟨⟨steps, r, hruns, hfits⟩, hends hruns hfits⟩⟩
  · rintro ⟨steps, r, hruns, hfits⟩
    exact ⟨⟨steps, r, hruns, fun step hstep =>
      (Compiled.nesting_le (c := ⟨steps⟩) hstep).trans_lt hfits⟩, hends hruns hfits⟩

/-- Two sums, of which the program displays the second. -/
theorem execute_join_ones : let texts := [Text.ones 1, Text.ones 0]
    let i := Interaction.start EngineState.empty
    (texts ≠ [] ∧ ∀ t ∈ texts, t.IsStatement) ∧ i.Evaluates (Text.join [';'] texts)
      ∧ i.EvaluatesAll texts ∧ i.EndsAs (Text.join [';'] texts) texts := by
  intro texts i
  have hne : texts ≠ [] := List.cons_ne_nil _ _
  have h : ∀ t ∈ texts, t.IsStatement := List.forall_mem_cons.2
    ⟨(Text.isStatement_ones 1).1, List.forall_mem_singleton.2 (Text.isStatement_ones 0).1⟩
  have hanswer := act_batch (i := i) (Text.isStatement_ones 1) (Expr.compile_ones 1 _ _)
  have hbatch : i.Evaluates (Text.join [';'] texts) := evaluates_of_answer (t := "true") hanswer
  exact ⟨⟨hne, h⟩, hbatch, (execute_join i hne h).2 hbatch⟩

/-- A program may open one bracket too many where its statements do not; and only its last value has
to be one that can be displayed. -/
theorem execute_join_limited : let i := Interaction.start EngineState.empty
    (∀ t ∈ [Text.ones 199, Text.tower 14, Text.ones 0], t.IsStatement)
      ∧ i.answers .standard [.execute (Text.ones 199), .execute (Text.ones 0)]
        = [.ok (some (.value "200")), .ok (some (.value "true"))]
      ∧ (i.act .standard (.execute (Text.join [';'] [Text.ones 199, Text.ones 0]))).1
        = .ok (some (.evaluationFault .tooManyBrackets))
      ∧ (i.act .standard (.execute (Text.join [';'] [Text.tower 14, Text.ones 0]))).1
        = .ok (some (.value "true"))
      ∧ (i.act .standard (.execute (Text.tower 14))).1
        = .ok (some (.evaluationFault .tooManyDigits)) := by
  refine ⟨?statements, ?oneByOne, ?deep, ?large, ?alone⟩
  case statements =>
    exact List.forall_mem_cons.2 ⟨(Text.isStatement_ones 199).1, List.forall_mem_cons.2
      ⟨(Text.isStatement_tower 14).1, List.forall_mem_singleton.2 (Text.isStatement_ones 0).1⟩⟩
  case oneByOne =>
    have hdeep : (Value.ones 199).atomText = .ok "200" := by decide +kernel
    rw [answers, answers, answers, act_ones _ (by decide), act_ones _ (by decide),
      outcome_of_text (Value.ones_ne_object 199) hdeep,
      outcome_of_text (Value.ones_ne_object 0) Value.atomText_ones_zero]
  case deep => exact act_batch_ones _ (by decide)
  case large => exact act_batch_tower _ (by decide)
  case alone =>
    have hdigits : (Value.int (2 ^ 2 ^ 14)).atomText = .error .tooManyDigits := by decide +kernel
    rw [act_tower _ (by decide), outcome_of_error (fun a h => by cases h) hdigits]
    rfl

end Interaction

end Toplevel
