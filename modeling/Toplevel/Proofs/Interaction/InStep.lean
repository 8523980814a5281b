import Toplevel.Proofs.Eval.InStep
import Toplevel.Proofs.Interaction.Actions
import Toplevel.Proofs.Syntax.Rendering

/-!
# Session and machine in step

A source is compiled as a whole before any of it is evaluated, so its definitions are there for the
session even if the evaluation fails on the way. Where no evaluation fails, all that the session can
name has a value, and a name can be missing only in a recursive definition that asks for itself; in
any case, what is missing was to be defined by code that failed before it had come that far
(`Interaction.session_in_step`).
-/

namespace Toplevel

/-! ### Evaluations -/

/-- The code of a source that has compiled, and the machine that it is evaluated on. -/
structure Evaluation where
  code : Compiled
  machine : Machine Code

namespace Evaluation

def Fails (e : Evaluation) : Prop := ∃ f, (e.code.evaluate e.machine).1 = .error f

/-- The code defines `g`, but is not evaluated to the end of this definition: it is refused as a
whole, or one of its steps fails up to there. -/
def FailsBefore (e : Evaluation) (g : Global) : Prop :=
  ∃ before c after, e.code.steps = before ++ .define g c :: after
    ∧ (maxBrackets < e.code.nesting + 1
      ∨ ∃ f, (evalSteps maxCalls (before ++ [.define g c]) e.machine).1 = .error f)

theorem FailsBefore.fails {e : Evaluation} {g : Global} (h : e.FailsBefore g) : e.Fails := by
  obtain ⟨before, c, after, hsteps, h⟩ := h
  rw [Fails, Compiled.evaluate]
  split
  · exact ⟨_, rfl⟩
  · rename_i hfits
    obtain ⟨f, hf⟩ := h.resolve_left hfits
    have happend := evalSteps_append_error (Prod.ext hf rfl) after
    rw [List.append_assoc, List.singleton_append, ← hsteps] at happend
    exact ⟨f, congrArg Prod.fst happend⟩

end Evaluation

/-- The evaluation that comes of a source, if it compiles. -/
def evaluationOf? (source : Text) (d : Definitions) (m : Machine Code) : Option Evaluation :=
  match compileSource source d with
  | .error _ => none
  | .ok (code, _) => some ⟨code, m⟩

theorem evaluationOf?_of_compiled {source : Text} {d d' : Definitions} {code : Compiled}
    (h : compileSource source d = .ok (code, d')) (m : Machine Code) :
    evaluationOf? source d m = some ⟨code, m⟩ := by
  rw [evaluationOf?, h]

namespace Interaction

def evaluation? (a : Action) (i : Interaction EngineState) : Option Evaluation :=
  a.source?.bind fun source => evaluationOf? source (i.definitionsFor a) i.engine.machine

theorem evaluation?_of_source {a : Action} {source : Text} (h : a.source? = some source)
    (i : Interaction EngineState) :
    i.evaluation? a = evaluationOf? source (i.definitionsFor a) i.engine.machine := by
  rw [evaluation?, h, Option.bind_some]

/-- The evaluations of actions, one after another. -/
def evaluations (i : Interaction EngineState) : List Action → List Evaluation
  | [] => []
  | a :: as => (i.evaluation? a).toList ++ evaluations (i.act .standard a).2 as

theorem evaluations_singleton (a : Action) (i : Interaction EngineState) :
    i.evaluations [a] = (i.evaluation? a).toList :=
  List.append_nil _

end Interaction

/-! ### Definitions without a value -/

theorem Definitions.mem_bindings_define {d : Definitions} {x : Text} {b : Text × Global}
    (h : b ∈ (d.define x).1.bindings) : b.2 = (d.define x).2 ∨ b ∈ d.bindings := by
  rcases Bindings.mem_set h with rfl | h
  · exact Or.inl rfl
  · exact Or.inr h

/-- What can be named behind statements could be named before, or is defined by one of them. -/
theorem mem_bindings_compileAll {ss : List Statement} {steps : List Step} {d d' : Definitions}
    (h : compileAll d ss = .ok (steps, d')) {b : Text × Global} (hb : b ∈ d'.bindings) :
    b ∈ d.bindings ∨ ∃ c, .define b.2 c ∈ steps := by
  induction ss generalizing d steps with
  | nil =>
    cases h
    exact Or.inl hb
  | cons s ss ih =>
    obtain ⟨step, d₁, rest, rfl, hs, hrest⟩ := compileAll_cons_eq_ok_iff.1 h
    rcases ih hrest with hb | ⟨c, hc⟩
    · cases Statement.compile?_eq_ok_iff.1 hs with
      | expr => exact Or.inl hb
      | @define x value recursive c hv =>
        rcases Definitions.mem_bindings_define hb with heq | hb
        · exact Or.inr ⟨c, by rw [heq]; exact List.mem_cons_self⟩
        · exact Or.inl hb
    · exact Or.inr ⟨c, List.mem_cons_of_mem _ hc⟩

/-- Steps that have been evaluated have set the globals that they define. -/
theorem evalSteps_defines {calls : Nat} {steps : List Step} {m m' : Machine Code} {v : Value}
    (h : evalSteps calls steps m = (.ok v, m')) {g : Global} {c : Code}
    (hg : .define g c ∈ steps) : (m'.find? g).isSome := by
  have hadv := evalSteps_advances calls steps m
  rw [h] at hadv
  obtain ⟨news, hglobals, -, hall⟩ := hadv.globals
  have hmem : g ∈ news.map Prod.fst := by
    rw [hall v rfl]
    exact List.mem_filterMap.2 ⟨_, hg, rfl⟩
  obtain ⟨e, he, rfl⟩ := List.mem_map.1 hmem
  rw [Machine.find?, hglobals, List.lookup_append, Option.isSome_or, Option.isSome_iff_ne_none.2]
  · rfl
  · intro hnone
    exact bne_iff_ne.1 (List.lookup_eq_none_iff.1 hnone e (List.mem_reverse.2 he)) rfl

/-- A global that is missing behind steps was missing before. -/
theorem Run.Advances.find?_eq_none {α : Type} {targets : List Global} {m : Machine Code}
    {r : Except Fault α × Machine Code} (h : Run.Advances targets m r) {g : Global}
    (hnone : r.2.find? g = none) : m.find? g = none := by
  obtain ⟨news, hglobals, -⟩ := h.globals
  rw [← Option.not_isSome_iff_eq_none] at hnone ⊢
  exact fun hg => hnone (Machine.find?_isSome_of_append hglobals hg)

namespace Evaluation

/-- What code defines has a value unless the code fails before. -/
theorem failsBefore_of_missing {e : Evaluation} {g : Global} {c : Code}
    (hg : .define g c ∈ e.code.steps) (hnone : (e.code.evaluate e.machine).2.find? g = none) :
    e.FailsBefore g := by
  obtain ⟨before, after, hsteps⟩ := List.append_of_mem hg
  refine ⟨before, c, after, hsteps, ?_⟩
  by_cases hfits : maxBrackets < e.code.nesting + 1
  · exact Or.inl hfits
  · refine Or.inr ?_
    rw [Compiled.evaluate, if_neg hfits, Compiled.eval, hsteps, ← List.singleton_append,
      ← List.append_assoc] at hnone
    rcases hrun : evalSteps maxCalls (before ++ [.define g c]) e.machine with ⟨f | v, m⟩
    · exact ⟨f, congrArg Prod.fst hrun⟩
    · have hsome := evalSteps_defines hrun (List.mem_append_right _ (List.mem_singleton_self _))
      have hmissing : m.find? g = none := by
        by_cases hafter : after = []
        · rw [hafter, List.append_nil, hrun] at hnone
          exact hnone
        · rw [evalSteps_append hrun hafter] at hnone
          exact (evalSteps_advances maxCalls after m).find?_eq_none hnone
      rw [hmissing] at hsome
      cases hsome

end Evaluation

theorem attempt_missing {source : Text} {d : Definitions} {m : Machine Code} {b : Text × Global}
    (hb : b ∈ (attempt source d m).definitions.bindings)
    (hnone : (attempt source d m).machine.find? b.2 = none) :
    (b ∈ d.bindings ∧ m.find? b.2 = none)
      ∨ ∃ e ∈ evaluationOf? source d m, e.FailsBefore b.2 := by
  unfold attempt evaluationOf? at *
  rcases hc : compileSource source d with e | ⟨code, d'⟩ <;> simp only [hc] at hb hnone ⊢
  · exact Or.inl ⟨hb, hnone⟩
  · obtain ⟨p, -, hcompile⟩ := exists_compileAll hc
    rcases mem_bindings_compileAll hcompile hb with hold | ⟨c, hdefine⟩
    · exact Or.inl ⟨hold, (code.evaluate_advances m).find?_eq_none hnone⟩
    · exact Or.inr ⟨⟨code, m⟩, rfl, Evaluation.failsBefore_of_missing hdefine hnone⟩

/-- An attempt at a source keeps in step what is so, unless an evaluation fails. -/
theorem InStep.attempt {source : Text} {d : Definitions} {m : Machine Code} (h : InStep d m)
    (hall : ∀ e ∈ evaluationOf? source d m, ¬e.Fails) :
    InStep (Toplevel.attempt source d m).definitions (Toplevel.attempt source d m).machine := by
  unfold Toplevel.attempt evaluationOf? at *
  rcases hc : compileSource source d with e | ⟨code, d'⟩ <;> simp only [hc] at hall ⊢
  · exact h
  · obtain ⟨p, -, hcompile⟩ := exists_compileAll hc
    rcases hrun : code.evaluate m with ⟨f | v, m'⟩
    · exact absurd ⟨f, congrArg Prod.fst hrun⟩ (hall ⟨code, m⟩ rfl)
    · rw [Compiled.evaluate] at hrun
      split at hrun
      · cases hrun
      · exact (h.statements hcompile).1 v m' hrun

/-! ### Names that are missing -/

/-- Only a run that misses a name fails with this kind of fault. -/
theorem Fault.Of.exists_undefined {m : Machine Code} {f : Fault} (h : Fault.Of m f)
    (hkind : f.kind = "NameError") : ∃ x, f = .undefined x := by
  cases h with
  | ordinary h =>
    cases f <;> first
      | (simp only [kind] at hkind; exact absurd hkind (by decide))
      | cases h
  | localName x => exact ⟨_, rfl⟩
  | globalName h => exact ⟨_, rfl⟩

/-- An attempt that misses a name, from where definitions and machine are in step. -/
theorem InStep.asksItself {source : Text} {d : Definitions} {m : Machine Code} (h : InStep d m)
    {f : Fault} (hf : (Toplevel.attempt source d m).outcome = .evaluationFault f)
    (hkind : f.kind = "NameError") :
    ∃ p e x, parse source = .ok p ∧ evaluationOf? source d m = some e ∧ f = .undefined x
      ∧ AsksItself p.statements e.code.steps e.machine x := by
  unfold Toplevel.attempt evaluationOf? at *
  rcases hc : compileSource source d with e | ⟨code, d'⟩ <;> simp only [hc] at hf ⊢
  · cases hf
  · obtain ⟨p, hp, hcompile⟩ := exists_compileAll hc
    rcases hrun : code.evaluate m with ⟨f' | v, m'⟩
    · rw [hrun] at hf
      cases hf
      have hof := (code.evaluate_advances m).fault f (congrArg Prod.fst hrun)
      obtain ⟨x, rfl⟩ := hof.exists_undefined hkind
      refine ⟨p, _, x, hp, rfl, rfl, ?_⟩
      rw [Compiled.evaluate] at hrun
      split at hrun
      · cases hrun
      · exact (h.statements hcompile).2 x m' hrun
    · rw [hrun, Run.outcome] at hf
      split at hf
      · cases hf
      · cases hf
        rename_i e _
        cases e <;> exact absurd hkind (by decide)

namespace Interaction

variable {i : Interaction EngineState}

/-- What the session of an interaction can name has a value on its machine. -/
def InStep (i : Interaction EngineState) : Prop :=
  Toplevel.InStep i.engine.session.definitions i.engine.machine

/-- A definition is there for the session, but has no value. -/
def Misses (i : Interaction EngineState) (b : Text × Global) : Prop :=
  b ∈ i.engine.session.definitions.bindings ∧ i.engine.machine.find? b.2 = none

theorem InStep.definitionsFor (h : i.InStep) (a : Action) :
    Toplevel.InStep (i.definitionsFor a) i.engine.machine := by
  unfold Interaction.definitionsFor
  split
  · exact ⟨List.forall_mem_nil _, h.closed⟩
  · exact h

theorem InStep.act (h : i.InStep) (a : Action) (hall : ∀ e ∈ i.evaluation? a, ¬e.Fails) :
    (i.act .standard a).2.InStep := by
  rcases hs : a.source? with _ | source
  · rw [InStep, (act_of_blank hs i).2]
    exact h
  · obtain ⟨-, hbehind⟩ := act_of_source hs i
    rw [evaluation?_of_source hs] at hall
    rw [InStep, hbehind.definitions, hbehind.machine]
    exact (h.definitionsFor a).attempt hall

theorem InStep.acts (h : i.InStep) {as : List Action} (hall : ∀ e ∈ i.evaluations as, ¬e.Fails) :
    (i.acts .standard as).InStep := by
  induction as generalizing i with
  | nil => exact h
  | cons a as ih =>
    obtain ⟨ha, has⟩ := List.forall_mem_append.1 hall
    exact ih (h.act a fun e he => ha e (Option.mem_toList.2 he)) has

theorem Misses.of_act {a : Action} {b : Text × Global} (h : (i.act .standard a).2.Misses b) :
    i.Misses b ∨ ∃ e ∈ i.evaluation? a, e.FailsBefore b.2 := by
  rcases hs : a.source? with _ | source
  · rw [Misses, (act_of_blank hs i).2] at h
    exact Or.inl h
  · obtain ⟨-, hbehind⟩ := act_of_source hs i
    rw [Misses, hbehind.definitions, hbehind.machine] at h
    rcases attempt_missing h.1 h.2 with ⟨hb, hnone⟩ | hfails
    · refine Or.inl ⟨?_, hnone⟩
      rw [definitionsFor] at hb
      split at hb
      · cases hb
      · exact hb
    · rw [evaluation?_of_source hs]
      exact Or.inr hfails

theorem Misses.of_acts {as : List Action} {b : Text × Global} (h : (i.acts .standard as).Misses b) :
    i.Misses b ∨ ∃ e ∈ i.evaluations as, e.FailsBefore b.2 := by
  induction as generalizing i with
  | nil => exact Or.inl h
  | cons a as ih =>
    rcases ih h with h | ⟨e, he, hfails⟩
    · rcases h.of_act with h | ⟨e, he, hfails⟩
      · exact Or.inl h
      · exact Or.inr ⟨e, List.mem_append_left _ (Option.mem_toList.2 he), hfails⟩
    · exact Or.inr ⟨e, List.mem_append_right _ he, hfails⟩

/-- Whatever has been run: if no evaluation has failed, all that the session can name has a value,
and the next source can miss a name only in a recursive definition that asks for itself; and what
has no value was to be defined by code that failed before it had come that far. -/
theorem session_in_step (as : List Action) :
    let i := (start .empty).acts .standard as
    let es := (start .empty).evaluations as
    ((∀ e ∈ es, ¬e.Fails) →
      (∀ b ∈ i.engine.session.definitions.bindings, (i.engine.machine.find? b.2).isSome)
        ∧ ∀ a f, (i.act .standard a).1 = .ok (some (.evaluationFault f)) → f.kind = "NameError" →
          ∃ source p e x, a.source? = some source ∧ parse source = .ok p
            ∧ i.evaluation? a = some e ∧ f = .undefined x
            ∧ AsksItself p.statements e.code.steps e.machine x)
      ∧ ∀ b ∈ i.engine.session.definitions.bindings, i.engine.machine.find? b.2 = none →
        ∃ e ∈ es, e.Fails ∧ e.FailsBefore b.2 := by
  intro i es
  refine ⟨fun hall => ?_, fun b hb hnone => ?_⟩
  · have hstart : (start EngineState.empty).InStep := ⟨List.forall_mem_nil _, .empty⟩
    have hi : i.InStep := hstart.acts hall
    refine ⟨hi.bindings, fun a f hf hkind => ?_⟩
    rcases hs : a.source? with _ | source
    · rw [(act_of_blank hs i).1] at hf
      cases hf
    · rw [(act_of_source hs i).1] at hf
      obtain ⟨p, e, x, hp, he, hx, hasks⟩ :=
        (hi.definitionsFor a).asksItself (Option.some.inj (Except.ok.inj hf)) hkind
      exact ⟨source, p, e, x, rfl, hp, (evaluation?_of_source hs i).trans he, hx, hasks⟩
  · have hmisses : i.Misses b := ⟨hb, hnone⟩
    rcases hmisses.of_acts with ⟨hstart, -⟩ | ⟨e, he, hfails⟩
    · cases hstart
    · exact ⟨e, he, hfails.fails, hfails⟩

/-- A second definition of a name asks for itself, and not for the first one; the name is bound to
it from then on, but has no value. -/
theorem session_in_step_recursive :
    ∃ i j, i = (start .empty).acts .standard [.execute "let x = true"]
      ∧ j = (start .empty).acts .standard [.execute "let x = true", .execute "let rec x = x"]
      ∧ (∀ e ∈ (start .empty).evaluations [.execute "let x = true"], ¬e.Fails)
      ∧ (∃ p e, parse "let rec x = x" = .ok p ∧ i.evaluation? (.execute "let rec x = x") = some e
        ∧ AsksItself p.statements e.code.steps e.machine (Global.text ⟨2, "x"⟩))
      ∧ (("x" : Text), (⟨2, "x"⟩ : Global)) ∈ j.engine.session.definitions.bindings
      ∧ j.engine.machine.find? ⟨2, "x"⟩ = none
      ∧ ∃ e ∈ (start .empty).evaluations [.execute "let x = true", .execute "let rec x = x"],
        e.Fails ∧ e.FailsBefore ⟨2, "x"⟩ := by
  have hfirst : compileSource "let x = true" .empty
      = .ok (⟨[.define ⟨1, "x"⟩ (.bool true)]⟩, (Definitions.empty.define "x").1) := by
    rw [compileSource, eq_of_isDefinitionAsTrue parse_definitions_of_x.1]
    rfl
  obtain ⟨p, hp⟩ := eq_of_isDefinitionAsItself parse_definitions_of_x.2
  have hsecond : compileSource "let rec x = x" (Definitions.empty.define "x").1
      = .ok (⟨[.define ⟨2, "x"⟩ (.globalVar ⟨2, "x"⟩)]⟩,
        ((Definitions.empty.define "x").1.define "x").1) := by
    rw [compileSource, hp]
    rfl
  have hdefinitions : (start .empty).definitionsFor (.execute "let x = true") = .empty := rfl
  have hmachine : (start EngineState.empty).engine.machine = .empty := rfl
  have hall : ∀ e ∈ (start .empty).evaluations [.execute "let x = true"], ¬e.Fails := by
    have hone : (start .empty).evaluation? (.execute "let x = true")
        = some ⟨⟨[.define ⟨1, "x"⟩ (.bool true)]⟩, .empty⟩ := by
      rw [evaluation?_of_source rfl, hdefinitions, hmachine]
      exact evaluationOf?_of_compiled hfirst _
    rw [evaluations_singleton, hone]
    refine List.forall_mem_singleton.2 ?_
    rintro ⟨f, hf⟩
    cases hf
  obtain ⟨hmissed, -⟩ := session_in_step [.execute "let x = true"]
  obtain ⟨-, hmissing⟩ := session_in_step [.execute "let x = true", .execute "let rec x = x"]
  obtain ⟨-, hbehind⟩ := act_of_source (a := .execute "let x = true") rfl (start .empty)
  rw [hdefinitions, hmachine, attempt_of_compiled hfirst] at hbehind
  refine ⟨_, _, rfl, rfl, hall, ?_⟩
  rw [acts_cons, acts_cons, acts_nil] at hmissing ⊢
  rw [acts_cons, acts_nil] at hmissed ⊢
  generalize (act .standard (.execute "let x = true") (start .empty)).2 = i
    at hmissed hmissing hbehind ⊢
  have hdefinitions' : i.definitionsFor (.execute "let rec x = x")
      = (Definitions.empty.define "x").1 :=
    (definitionsFor_execute _ _).trans hbehind.definitions
  obtain ⟨hanswer, hbehind'⟩ := act_of_source (a := .execute "let rec x = x") rfl i
  rw [hdefinitions', hbehind.machine, attempt_of_compiled hsecond] at hanswer hbehind'
  obtain ⟨source, q, e, x, hsource, hq, he, hx, hasks⟩ :=
    (hmissed hall).2 _ _ hanswer (by decide)
  cases hsource
  cases hx
  generalize (act .standard (.execute "let rec x = x") i).2 = j at hmissing hbehind' ⊢
  have hb : (("x" : Text), (⟨2, "x"⟩ : Global)) ∈ j.engine.session.definitions.bindings := by
    rw [hbehind'.definitions]
    exact List.mem_cons_self
  have hnone : j.engine.machine.find? ⟨2, "x"⟩ = none := by
    rw [hbehind'.machine]
    rfl
  exact ⟨⟨q, e, hq, he, hasks⟩, hb, hnone, hmissing _ hb hnone⟩

end Interaction

end Toplevel
