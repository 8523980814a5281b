import Toplevel.Proofs.Eval.Closed
import Toplevel.Proofs.Interaction.Actions

/-!
# The functions that an interaction makes are closed

The bodies of all functions on the machine of an interaction refer to their parameters, to what they
have taken with them and to globals (`Interaction.start_closed`): to those that could be named where
the function was made, and to those that its source has numbered (`attempt_closed`).
-/

namespace Toplevel

/-! ### Programs -/

def Step.Closed (P : Global → Prop) : Step → Prop
  | .define _ c => c.Closed P []
  | .expr c => c.Closed P []

theorem Statement.compile?_closed {P : Global → Prop} {d d' : Definitions} {s : Statement}
    {step : Step} (h : s.compile? d = .ok (step, d'))
    (hd : ∀ x g, d.bindings.find? x = some g → P g)
    (hnew : ∀ g, d.count < g.index → g.index ≤ d'.count → P g) :
    step.Closed P ∧ ∀ x g, d'.bindings.find? x = some g → P g := by
  cases Statement.compile?_eq_ok_iff.1 h with
  | expr he => exact ⟨he.closed hd, hd⟩
  | define x recursive hv =>
    have hdefined : ∀ y g, (d.define x).1.bindings.find? y = some g → P g := by
      intro y g hg
      simp only [Definitions.define, Bindings.find?_set] at hg
      split at hg
      · cases hg
        exact hnew _ (Nat.lt_succ_self _) (Nat.le_refl _)
      · exact hd y g hg
    refine ⟨hv.closed ?_, hdefined⟩
    cases recursive
    · exact hd
    · exact hdefined

theorem Statement.compile?_count {d d' : Definitions} {s : Statement} {step : Step}
    (h : s.compile? d = .ok (step, d')) : d.count ≤ d'.count := by
  cases Statement.compile?_eq_ok_iff.1 h with
  | expr => exact Nat.le_refl _
  | define => exact Nat.le_succ _

theorem compileAll_count {ss : List Statement} {d d' : Definitions} {steps : List Step}
    (h : compileAll d ss = .ok (steps, d')) : d.count ≤ d'.count := by
  induction ss generalizing d steps with
  | nil =>
    cases h
    exact Nat.le_refl _
  | cons s ss ih =>
    obtain ⟨step, d₁, rest, rfl, hs, hrest⟩ := compileAll_cons_eq_ok_iff.1 h
    exact Nat.le_trans (s.compile?_count hs) (ih hrest)

/-- The code of statements refers to the globals that can be named and to those that are numbered by
it. -/
theorem compileAll_closed {P : Global → Prop} {ss : List Statement} {d d' : Definitions}
    {steps : List Step} (h : compileAll d ss = .ok (steps, d'))
    (hd : ∀ x g, d.bindings.find? x = some g → P g)
    (hnew : ∀ g, d.count < g.index → g.index ≤ d'.count → P g) :
    (∀ s ∈ steps, s.Closed P) ∧ ∀ x g, d'.bindings.find? x = some g → P g := by
  induction ss generalizing d steps with
  | nil =>
    cases h
    exact ⟨nofun, hd⟩
  | cons s ss ih =>
    obtain ⟨step, d₁, rest, rfl, hs, hrest⟩ := compileAll_cons_eq_ok_iff.1 h
    have hfirst := s.compile?_count hs
    have hlater := compileAll_count hrest
    obtain ⟨hstep, hd₁⟩ := s.compile?_closed hs hd fun g hlt hle =>
      hnew g hlt (Nat.le_trans hle hlater)
    obtain ⟨hsteps, hd'⟩ := ih hrest hd₁ fun g hlt => hnew g (Nat.lt_of_le_of_lt hfirst hlt)
    exact ⟨List.forall_mem_cons.2 ⟨hstep, hsteps⟩, hd'⟩

/-! ### Runs -/

namespace Run

variable {P : Global → Prop}

theorem Confines.define (g : Global) (v : Value) : Confines P (Run.define g v : Run Code Unit) :=
  fun _ hm => ⟨hm, nofun⟩

end Run

open Run

theorem Step.eval_closed {P : Global → Prop} (calls : Nat) {s : Step} (h : s.Closed P) :
    Confines P (s.eval calls) := by
  cases s with
  | expr c => exact Code.eval_closed (Code.apply_closed calls) c [] h
  | define g c =>
    refine (Code.eval_closed (Code.apply_closed calls) c [] h).bind fun v => ?_
    exact (Confines.define g v).bind fun _ => Confines.pure v

theorem evalSteps_closed {P : Global → Prop} (calls : Nat) : ∀ {steps : List Step},
    (∀ s ∈ steps, s.Closed P) → Confines P (evalSteps calls steps)
  | [], _ => Confines.pure _
  | [s], h => Step.eval_closed calls (h s List.mem_cons_self)
  | _ :: _ :: _, h =>
    have h := List.forall_mem_cons.1 h
    (Step.eval_closed calls h.1).bind fun _ => evalSteps_closed calls h.2

theorem Compiled.evaluate_closed {P : Global → Prop} {c : Compiled}
    (h : ∀ s ∈ c.steps, s.Closed P) : Confines P c.evaluate := by
  unfold evaluate
  split
  · exact Confines.fail rfl
  · exact evalSteps_closed maxCalls h

/-- An attempt makes closed functions only, which refer to what could be named and to what has been
numbered by it. -/
theorem attempt_closed {P : Global → Prop} {source : Text} {d : Definitions} {m : Machine Code}
    (hm : m.heap.Closed P) (hd : ∀ x g, d.bindings.find? x = some g → P g)
    (hnew : ∀ g, d.count < g.index → g.index ≤ (attempt source d m).definitions.count → P g) :
    (attempt source d m).machine.heap.Closed P
      ∧ ∀ x g, (attempt source d m).definitions.bindings.find? x = some g → P g := by
  rcases hc : compileSource source d with e | ⟨code, d'⟩
  · rw [attempt, hc]
    exact ⟨hm, hd⟩
  · rw [attempt_of_compiled hc] at hnew ⊢
    obtain ⟨p, -, hall⟩ := exists_compileAll hc
    obtain ⟨hsteps, hd'⟩ := compileAll_closed hall hd hnew
    exact ⟨(Compiled.evaluate_closed hsteps m hm).heap, hd'⟩

/-! ### Interactions -/

namespace Interaction

theorem acts_closed (as : List Action) {i : Interaction EngineState}
    (h : i.engine.machine.heap.Closed fun _ => True) :
    (i.acts .standard as).engine.machine.heap.Closed fun _ => True := by
  induction as generalizing i with
  | nil => exact h
  | cons a as ih =>
    refine ih ?_
    rcases hs : a.source? with _ | source
    · rw [(act_of_blank hs i).2]
      exact h
    · rw [(act_of_source hs i).2.machine]
      exact (attempt_closed h (fun _ _ _ => trivial) fun _ _ _ => trivial).1

/-- Whatever is run in an interaction, the functions on its machine are closed. -/
theorem start_closed (as : List Action) :
    ((start .empty).acts .standard as).engine.machine.heap.Closed fun _ => True :=
  acts_closed as .empty

end Interaction

end Toplevel
