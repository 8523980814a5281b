import Toplevel.Proofs.Interaction.Actions

/-!
# What a cycle comes to

In a cycle an engine is asked to compile a source, then for the code or the complaint, and then to
evaluate the code. Each of these calls may raise something, and a value may have no text. What has
happened can be told from the answer of the cycle, and the answer from what has happened
(`Engine.execute_eq_iff`). Only an interruption keeps a cycle from an outcome.
-/

namespace Toplevel

namespace Engine

variable {σ κ : Type} (E : Engine σ κ) {source : Text} {s : σ}

/-- A source is compiled, and its code is handed out. -/
def Compiles (source : Text) (s : σ) (code : κ) (s' : σ) : Prop :=
  ∃ s₁, E.process source s = (.ok true, s₁) ∧ E.output s₁ = (.ok code, s')

/-- A source is compiled and evaluated, and the value has a text. -/
def Shows (source : Text) (s : σ) (text : Text) : Prop :=
  ∃ code s₁ v s₂, E.Compiles source s code s₁ ∧ E.evaluate code s₁ = (.ok v, s₂)
    ∧ (E.heap s₂).display v = .ok text

/-- A source is not compiled, and the complaint is handed out. -/
def Rejects (source : Text) (s : σ) (reason : Text) : Prop :=
  ∃ s₁ s₂, E.process source s = (.ok false, s₁) ∧ E.error s₁ = (.ok reason, s₂)

/-- One of the calls made to compile a source raises `r`. -/
inductive CompilerRaises (source : Text) (s : σ) (r : Raised) : Prop
  | process {s₁ : σ} (h : E.process source s = (.error r, s₁))
  | output {s₁ s₂ : σ} (h : E.process source s = (.ok true, s₁)) (hr : E.output s₁ = (.error r, s₂))
  | error {s₁ s₂ : σ} (h : E.process source s = (.ok false, s₁)) (hr : E.error s₁ = (.error r, s₂))

/-- The evaluation of a source raises `r`, or its value has no text. -/
inductive EvaluationRaises (source : Text) (s : σ) : Raised → Prop
  | evaluate {code : κ} {s₁ s₂ : σ} {r : Raised} (h : E.Compiles source s code s₁)
    (hr : E.evaluate code s₁ = (.error r, s₂)) : EvaluationRaises source s r
  | display {code : κ} {s₁ s₂ : σ} {v : Value} {e : DisplayError}
    (h : E.Compiles source s code s₁) (hv : E.evaluate code s₁ = (.ok v, s₂))
    (he : (E.heap s₂).display v = .error e) :
    EvaluationRaises source s (.fault (.ofDisplayError e))

/-- One of the calls is interrupted. -/
def Interrupted (source : Text) (s : σ) : Prop :=
  E.CompilerRaises source s .interrupt ∨ E.EvaluationRaises source s .interrupt

/-- The answers of a cycle and what they stand for. -/
inductive Answers (source : Text) (s : σ) : Except Raised Outcome → Prop
  | value {text : Text} (h : E.Shows source s text) : Answers source s (.ok (.value text))
  | rejected {reason : Text} (h : E.Rejects source s reason) :
    Answers source s (.ok (.rejected reason))
  | compilerFault {f : Fault} (h : E.CompilerRaises source s (.fault f)) :
    Answers source s (.ok (.compilerFault f))
  | evaluationFault {f : Fault} (h : E.EvaluationRaises source s (.fault f)) :
    Answers source s (.ok (.evaluationFault f))
  | interrupted (h : E.Interrupted source s) : Answers source s (.error .interrupt)

variable {E}

theorem answers_of_compilerRaises {r : Raised} (h : E.CompilerRaises source s r) (s' : σ) :
    E.Answers source s (E.compilerRaised r s').1 := by
  cases r with
  | fault f => exact .compilerFault h
  | interrupt => exact .interrupted (.inl h)

theorem answers_of_evaluationRaises {r : Raised} (h : E.EvaluationRaises source s r) (s' : σ) :
    E.Answers source s (E.evaluationRaised r s').1 := by
  cases r with
  | fault f => exact .evaluationFault h
  | interrupt => exact .interrupted (.inr h)

theorem answers_of_compiles {code : κ} {s₁ : σ} (h : E.Compiles source s code s₁) :
    E.Answers source s (E.run code s₁).1 := by
  unfold run
  split
  · rename_i hr
    exact answers_of_evaluationRaises (.evaluate h hr) _
  · rename_i hv
    split
    · rename_i htext
      exact .value ⟨_, _, _, _, h, hv, htext⟩
    · rename_i he
      exact answers_of_evaluationRaises (.display h hv he) _

theorem execute_answers (E : Engine σ κ) (source : Text) (s : σ) :
    E.Answers source s (E.execute source s).1 := by
  unfold execute
  split
  · rename_i hr
    exact answers_of_compilerRaises (.process hr) _
  · rename_i h
    split
    · rename_i hr
      exact answers_of_compilerRaises (.error h hr) _
    · rename_i hreason
      exact .rejected ⟨_, _, h, hreason⟩
  · rename_i h
    split
    · rename_i hr
      exact answers_of_compilerRaises (.output h hr) _
    · rename_i hcode
      exact answers_of_compiles ⟨_, h, hcode⟩

theorem Compiles.execute_eq {code : κ} {s₁ : σ} (h : E.Compiles source s code s₁) :
    E.execute source s = E.run code s₁ := by
  obtain ⟨s₂, h1, h2⟩ := h
  simp only [execute, h1, h2]

theorem CompilerRaises.execute_eq {r : Raised} (h : E.CompilerRaises source s r) :
    ∃ s', E.execute source s = E.compilerRaised r s' := by
  cases h with
  | process h => exact ⟨_, by simp only [execute, h]; rfl⟩
  | output h hr | error h hr => exact ⟨_, by simp only [execute, h, hr]; rfl⟩

theorem EvaluationRaises.execute_eq {r : Raised} (h : E.EvaluationRaises source s r) :
    ∃ s', E.execute source s = E.evaluationRaised r s' := by
  cases h with
  | evaluate h hr => exact ⟨_, by simp only [h.execute_eq, run, hr]; rfl⟩
  | display h hv he => exact ⟨_, by simp only [h.execute_eq, run, hv, he]; rfl⟩

/-- An answer stands for what has happened, and nothing else gives this answer. -/
theorem execute_eq_iff {answer : Except Raised Outcome} :
    (E.execute source s).1 = answer ↔ E.Answers source s answer := by
  constructor
  · rintro rfl
    exact E.execute_answers source s
  · intro h
    cases h with
    | value h =>
      obtain ⟨code, s₁, v, s₂, h, hv, htext⟩ := h
      simp only [h.execute_eq, run, hv, htext]
    | rejected h =>
      obtain ⟨s₁, s₂, h, hreason⟩ := h
      simp only [execute, h, hreason]
    | compilerFault h =>
      obtain ⟨s', h⟩ := h.execute_eq
      rw [h]
      rfl
    | evaluationFault h =>
      obtain ⟨s', h⟩ := h.execute_eq
      rw [h]
      rfl
    | interrupted h =>
      rcases h with h | h <;>
      · obtain ⟨s', h⟩ := h.execute_eq
        rw [h]
        rfl

theorem shows_iff {text : Text} :
    E.Shows source s text ↔ (E.execute source s).1 = .ok (.value text) := by
  rw [execute_eq_iff]
  exact ⟨.value, fun h => by cases h; assumption⟩

theorem rejects_iff {reason : Text} :
    E.Rejects source s reason ↔ (E.execute source s).1 = .ok (.rejected reason) := by
  rw [execute_eq_iff]
  exact ⟨.rejected, fun h => by cases h; assumption⟩

theorem compilerRaises_iff {f : Fault} :
    E.CompilerRaises source s (.fault f)
      ↔ (E.execute source s).1 = .ok (.compilerFault f) := by
  rw [execute_eq_iff]
  exact ⟨.compilerFault, fun h => by cases h; assumption⟩

theorem evaluationRaises_iff {f : Fault} :
    E.EvaluationRaises source s (.fault f)
      ↔ (E.execute source s).1 = .ok (.evaluationFault f) := by
  rw [execute_eq_iff]
  exact ⟨.evaluationFault, fun h => by cases h; assumption⟩

theorem interrupted_iff :
    E.Interrupted source s ↔ (E.execute source s).1 = .error .interrupt := by
  rw [execute_eq_iff]
  exact ⟨.interrupted, fun h => by cases h; assumption⟩

/-! ### Engines that are not interrupted -/

/-- No call is interrupted, whatever else it may raise. -/
structure Ordinary (E : Engine σ κ) : Prop where
  process : ∀ source s, (E.process source s).1 ≠ .error .interrupt
  output : ∀ s, (E.output s).1 ≠ .error .interrupt
  error : ∀ s, (E.error s).1 ≠ .error .interrupt
  evaluate : ∀ code s, (E.evaluate code s).1 ≠ .error .interrupt

namespace Ordinary

variable (hE : E.Ordinary)

include hE

theorem not_compilerRaises : ¬E.CompilerRaises source s .interrupt := by
  intro h
  cases h with
  | process h => exact hE.process _ _ (congrArg Prod.fst h)
  | output _ h => exact hE.output _ (congrArg Prod.fst h)
  | error _ h => exact hE.error _ (congrArg Prod.fst h)

theorem not_evaluationRaises : ¬E.EvaluationRaises source s .interrupt := by
  intro h
  cases h with
  | evaluate _ h => exact hE.evaluate _ _ (congrArg Prod.fst h)

theorem execute_isOk (source : Text) (s : σ) : ∃ o, (E.execute source s).1 = .ok o := by
  cases h : (E.execute source s).1 with
  | ok o => exact ⟨o, rfl⟩
  | error r =>
    rw [execute_eq_iff] at h
    cases h with
    | interrupted h =>
      rcases h with h | h
      · exact absurd h hE.not_compilerRaises
      · exact absurd h hE.not_evaluationRaises

end Ordinary

/-- An engine that raises nothing but faults, like that of the language itself. -/
theorem standard_ordinary : Engine.standard.Ordinary := by
  refine ⟨fun source s => ?_, fun s => ?_, fun s => ?_, fun code s => ?_⟩
  · simp only [standard, EngineState.process]
    split <;> simp
  · simp only [standard, EngineState.ask]
    split <;> simp
  · simp only [standard, EngineState.ask]
    split <;> simp
  · simp only [standard, EngineState.evaluate]
    split <;> simp

/-! ### Outcomes -/

/-- What an outcome says of the cycle that it ends. -/
structure Reports (E : Engine σ κ) (source : Text) (s : σ) (o : Outcome) : Prop where
  success : o.success = true ↔ ∃ text, E.Shows source s text
  succeeded : o.errorName? = none ↔ o.success = true
  compileError : o.errorName? = some "CompileError" ↔ ∃ reason, E.Rejects source s reason
  compilerFault : o.errorName? = some "InternalCompilerError"
    ↔ ∃ f, E.CompilerRaises source s (.fault f)
  evaluationFault : o.errorName? = some "EvaluationError"
    ↔ ∃ f, E.EvaluationRaises source s (.fault f)
  shown : ∀ text, E.Shows source s text → o.message = text
  reason : ∀ reason, E.Rejects source s reason → o.message = reason
  fault : ∀ f, E.CompilerRaises source s (.fault f) ∨ E.EvaluationRaises source s (.fault f) →
    o.cause? = some f

theorem reports_of_execute {o : Outcome} (h : (E.execute source s).1 = .ok o) :
    E.Reports source s o := by
  have hnames : ("CompileError" : Text) ≠ "InternalCompilerError"
      ∧ ("CompileError" : Text) ≠ "EvaluationError"
      ∧ ("InternalCompilerError" : Text) ≠ "EvaluationError" := by decide
  obtain ⟨h1, h2, h3⟩ := hnames
  constructor
  case succeeded => cases o <;> simp [Outcome.success, Outcome.errorName?]
  case fault =>
    intro f hf
    rw [compilerRaises_iff, evaluationRaises_iff, h, Except.ok.injEq, Except.ok.injEq] at hf
    rcases hf with rfl | rfl <;> rfl
  all_goals
    simp only [shows_iff, rejects_iff, compilerRaises_iff, evaluationRaises_iff, h,
      Except.ok.injEq]
    cases o <;>
      simp [Outcome.success, Outcome.errorName?, Outcome.message, h1, h2, h3, h1.symm, h2.symm,
        h3.symm]

/-- A cycle shows a value, or it has an outcome that is an error, or it is interrupted. -/
theorem execute_cases (E : Engine σ κ) (source : Text) (s : σ) :
    (∃ text, E.Shows source s text ∧ (E.execute source s).1 = .ok (.value text))
      ∨ (¬∃ text, E.Shows source s text)
        ∧ ((∃ o, (E.execute source s).1 = .ok o ∧ o.style = .error)
          ∨ (E.execute source s).1 = .error .interrupt) := by
  simp only [shows_iff]
  cases h : (E.execute source s).1 with
  | ok o =>
    cases o with
    | value text => exact .inl ⟨text, rfl, rfl⟩
    | rejected | compilerFault | evaluationFault => exact .inr ⟨nofun, .inl ⟨_, rfl, rfl⟩⟩
  | error r =>
    cases execute_eq_iff.1 h with
    | interrupted => exact .inr ⟨nofun, .inr rfl⟩

end Engine

namespace Interaction

variable {σ κ : Type} {E : Engine σ κ} {source : Text} {i : Interaction σ}

/-- An outcome is shown. -/
theorem executeShown_of_ok {o : Outcome} (h : (E.execute source i.engine).1 = .ok o) :
    (i.executeShown E source).1 = .ok (some o)
      ∧ (i.executeShown E source).2.transcript = i.transcript.append o.message o.style := by
  rcases he : E.execute source i.engine with ⟨answer, s⟩
  rw [he] at h
  subst h
  simp only [executeShown, execute, he]
  exact ⟨trivial, rfl⟩

/-- An interruption is not. -/
theorem executeShown_of_error {r : Raised} (h : (E.execute source i.engine).1 = .error r) :
    (i.executeShown E source).1 = .error r
      ∧ (i.executeShown E source).2.transcript = i.transcript := by
  rcases he : E.execute source i.engine with ⟨answer, s⟩
  rw [he] at h
  subst h
  simp only [executeShown, execute, he]
  exact ⟨trivial, trivial⟩

theorem submit_eq {text : Text} (h : text.strip ≠ []) (i : Interaction σ) :
    i.submit E text = ({ i with history := i.history.record text.strip }.append
      (inputMark ++ text.strip) .input).executeShown E text.strip :=
  if_neg (mt List.isEmpty_iff.1 h)

theorem runFresh_eq {text : Text} (h : text.strip ≠ []) (i : Interaction σ) :
    i.runFresh E text = executeShown E text.strip
      ⟨E.note .reset (E.reset i.engine), i.history, i.transcript.clear⟩ :=
  if_neg (mt List.isEmpty_iff.1 h)

end Interaction

end Toplevel
