import Toplevel.Proofs.Eval.Alike
import Toplevel.Proofs.Interaction.Closed
import Toplevel.Proofs.Interaction.Language
import Toplevel.Proofs.Value.Display

/-!
# Interactions that are alike

Two interactions are alike if their sessions define the same names, with other numbers for the
globals on the right, and their machines correspond (`Interaction.Alike`). Then they answer alike
whatever is run in both, as long as it names only what is known (`Interaction.answers_alike`), and
with the same numbers on both sides they give the same answers (`Interaction.answers_eq`). So do two
programs of which the code is alike, run in one interaction (`Interaction.answers_of_alike`).
-/

namespace Toplevel

/-! ### Outcomes -/

/-- Outcomes that differ in the number of a missing global only. -/
inductive Outcome.Alike (number : Global → Global) : Outcome → Outcome → Prop
  | same (o : Outcome) : Alike number o o
  | fault {e e' : Fault} (h : Fault.Alike number e e') :
    Alike number (.evaluationFault e) (.evaluationFault e')

theorem Fault.Alike.eq {e e' : Fault} (h : Fault.Alike id e e') : e' = e := by
  cases h <;> rfl

theorem Fault.Alike.kind {number : Global → Global} {e e' : Fault} (h : Fault.Alike number e e') :
    e'.kind = e.kind := by
  cases h <;> rfl

namespace Outcome.Alike

variable {number : Global → Global} {o o' : Outcome}

theorem eq (h : Outcome.Alike id o o') : o' = o := by
  cases h with
  | same => rfl
  | fault h => rw [h.eq]

theorem success (h : o.Alike number o') : o'.success = o.success := by
  cases h <;> rfl

theorem errorName? (h : o.Alike number o') : o'.errorName? = o.errorName? := by
  cases h <;> rfl

theorem cause? (h : o.Alike number o') : o'.cause?.map Fault.kind = o.cause?.map Fault.kind := by
  cases h with
  | same => rfl
  | fault h => exact congrArg some h.kind

/-- Only a fault of evaluation is shown in another way. -/
theorem message (h : o.Alike number o') (ho : o.errorName? ≠ some "EvaluationError") :
    o'.message = o.message := by
  cases h with
  | same => rfl
  | fault => exact absurd rfl ho

end Outcome.Alike

section

variable {r : Renumbering} {place : Nat → Nat} {hplace : Function.Injective place}

theorem Run.outcome_alike {x y : Except Fault Value × Machine Code}
    (h : (Link.alike r place hplace).AlikeResults r (Link.alike r place hplace).values x y) :
    (Run.outcome x).Alike r.number (Run.outcome y)
      ∧ (Link.alike r place hplace).AlikeMachines r x.2 y.2 := by
  cases h with
  | @done v v' m m' h hm =>
    have hdisplay : m'.heap.display v' = m.heap.display v := by
      rw [h]
      exact Heap.display_rename hm.heaps v
    refine ⟨?_, hm⟩
    simp only [Run.outcome, hdisplay]
    exact .same _
  | failed he hm => exact ⟨.fault he, hm⟩

/-- Attempts that are alike, and leave definitions and machines that are. -/
structure Attempt.Alike (known : Text → Bool) (r : Renumbering) (L : Link Code Code)
    (a a' : Attempt) : Prop where
  outcome : a.outcome.Alike r.number a'.outcome
  definitions : a.definitions.Renumbered known r.number a'.definitions
  machines : L.AlikeMachines r a.machine a'.machine

variable {known : Text → Bool} {d d' : Definitions} {m m' : Machine Code}

theorem attempt_of_alike {source source' : Text} {c c' : Compiled} {e e' : Definitions}
    (hc : compileSource source d = .ok (c, e)) (hc' : compileSource source' d' = .ok (c', e'))
    (halike : c.Alike r.number c') (he : e.Renumbered known r.number e')
    (hm : (Link.alike r place hplace).AlikeMachines r m m') :
    (attempt source d m).Alike known r (Link.alike r place hplace) (attempt source' d' m') := by
  rw [attempt_of_compiled hc, attempt_of_compiled hc']
  obtain ⟨ho, hm'⟩ := Run.outcome_alike (Compiled.evaluate_alike halike m m' hm)
  exact ⟨ho, he, hm'⟩

/-- Attempts at one source are alike. -/
theorem attempt_alike {source : Text} (hd : d.Renumbered known r.number d')
    (hm : (Link.alike r place hplace).AlikeMachines r m m')
    (hfree : ∀ p, parse source = .ok p → ∀ o ∈ p.free, known o.1) :
    (attempt source d m).Alike known r (Link.alike r place hplace) (attempt source d' m') := by
  rcases compileSource_alike hd hfree with ⟨e, he, he'⟩ | ⟨c, e, c', e', hc, hc', halike, he⟩
  · rw [attempt, attempt, he, he']
    exact ⟨.same _, hd, hm⟩
  · exact attempt_of_alike hc hc' halike he hm

/-! ### Actions -/

/-- An action names only what is known. -/
def Action.Names (known : Text → Bool) (a : Action) : Prop :=
  ∀ source, a.source? = some source → ∀ p, parse source = .ok p → ∀ o ∈ p.free, known o.1

namespace Interaction

/-- Interactions with corresponding definitions and machines. -/
structure Alike (known : Text → Bool) (r : Renumbering) (L : Link Code Code)
    (i i' : Interaction EngineState) : Prop where
  definitions : i.engine.session.definitions.Renumbered known r.number
    i'.engine.session.definitions
  machines : L.AlikeMachines r i.engine.machine i'.engine.machine

/-- Answers with corresponding outcomes, or both with none. -/
def AnswersBy (R : Outcome → Outcome → Prop) (a a' : Except Raised (Option Outcome)) : Prop :=
  ∃ o o', a = .ok o ∧ a' = .ok o' ∧ Option.Rel R o o'

theorem AnswersBy.eq {a a' : Except Raised (Option Outcome)}
    (h : AnswersBy (Outcome.Alike id) a a') : a' = a := by
  obtain ⟨o, o', rfl, rfl, h⟩ := h
  cases h with
  | none => rfl
  | some h => rw [h.eq]

variable {i i' : Interaction EngineState}

theorem act_of_alike {a a' : Action} {source source' : Text} (hs : a.source? = some source)
    (hs' : a'.source? = some source')
    (h : (attempt source (i.definitionsFor a) i.engine.machine).Alike known r
      (Link.alike r place hplace) (attempt source' (i'.definitionsFor a') i'.engine.machine)) :
    AnswersBy (Outcome.Alike r.number) (i.act .standard a).1 (i'.act .standard a').1
      ∧ Alike known r (Link.alike r place hplace) (i.act .standard a).2
        (i'.act .standard a').2 := by
  obtain ⟨hanswer, hdefinitions, hmachine⟩ := act_of_source hs i
  obtain ⟨hanswer', hdefinitions', hmachine'⟩ := act_of_source hs' i'
  refine ⟨⟨_, _, hanswer, hanswer', .some h.outcome⟩, ⟨?_, ?_⟩⟩
  · rw [hdefinitions, hdefinitions']
    exact h.definitions
  · rw [hmachine, hmachine']
    exact h.machines

theorem act_alike {a : Action} (hnames : a.Names known)
    (hfresh : a.isFresh → Definitions.empty.Renumbered known r.number .empty)
    (h : Alike known r (Link.alike r place hplace) i i') :
    AnswersBy (Outcome.Alike r.number) (i.act .standard a).1 (i'.act .standard a).1
      ∧ Alike known r (Link.alike r place hplace) (i.act .standard a).2
        (i'.act .standard a).2 := by
  rcases hs : a.source? with _ | source
  · obtain ⟨hanswer, hengine⟩ := act_of_blank hs i
    obtain ⟨hanswer', hengine'⟩ := act_of_blank hs i'
    refine ⟨⟨_, _, hanswer, hanswer', .none⟩, ⟨?_, ?_⟩⟩
    · rw [hengine, hengine']
      exact h.definitions
    · rw [hengine, hengine']
      exact h.machines
  · refine act_of_alike hs hs (attempt_alike ?_ h.machines (hnames source hs))
    rw [definitionsFor, definitionsFor]
    split
    · rename_i hf
      exact hfresh hf
    · exact h.definitions

/-- Interactions that are alike answer alike. -/
theorem answers_alike {as : List Action} (hnames : ∀ a ∈ as, a.Names known)
    (hfresh : ∀ a ∈ as, a.isFresh → Definitions.empty.Renumbered known r.number .empty)
    (h : Alike known r (Link.alike r place hplace) i i') :
    List.Forall₂ (AnswersBy (Outcome.Alike r.number)) (i.answers .standard as)
      (i'.answers .standard as) := by
  induction as generalizing i i' with
  | nil => exact .nil
  | cons a as ih =>
    obtain ⟨ha, has⟩ := List.forall_mem_cons.1 hnames
    obtain ⟨hf, hfs⟩ := List.forall_mem_cons.1 hfresh
    obtain ⟨hanswer, halike⟩ := act_alike ha hf h
    exact .cons hanswer (ih has hfs halike)

end Interaction

end

/-! ### The same numbers -/

namespace Interaction

variable {place : Nat → Nat} {hplace : Function.Injective place} {i i' : Interaction EngineState}

/-- Where the numbers are the same, so are the answers. -/
theorem answers_eq (h : Alike anyName .same (Link.alike .same place hplace) i i')
    (as : List Action) : i'.answers .standard as = i.answers .standard as := by
  have hnames : ∀ a ∈ as, a.Names anyName := fun _ _ _ _ _ _ _ _ => rfl
  have hall := answers_alike hnames (fun _ _ _ => .refl _ _) h
  generalize i.answers .standard as = xs at hall
  generalize i'.answers .standard as = ys at hall
  induction hall with
  | nil => rfl
  | cons hx _ ih => rw [hx.eq, ih]

/-- Programs of which the code is alike are answered alike in an interaction, and so is all that
follows. -/
theorem answers_of_alike (before : List Action) {a a' : Action} {source source' : Text}
    (hs : a.source? = some source) (hs' : a'.source? = some source')
    (hfresh : a'.isFresh = a.isFresh) {c c' : Compiled} {e e' : Definitions} :
    let i := (start .empty).acts .standard before
    compileSource source (i.definitionsFor a) = .ok (c, e) →
      compileSource source' (i.definitionsFor a) = .ok (c', e') →
        c.Alike id c' → e.Renumbered anyName id e' →
          ∀ as, i.answers .standard (a' :: as) = i.answers .standard (a :: as) := by
  intro i hc hc' halike he as
  have hmachines := Link.alike_refl (start_evolves before).native (start_closed before)
  have hd : i.definitionsFor a' = i.definitionsFor a := by
    rw [definitionsFor, definitionsFor, hfresh]
  rw [← hd] at hc'
  obtain ⟨hanswer, hafter⟩ := @act_of_alike _ _ _ _ i i _ _ _ _ hs hs'
    (attempt_of_alike (r := .same) hc hc' halike he hmachines)
  exact congrArg₂ List.cons hanswer.eq (answers_eq hafter as)

end Interaction

end Toplevel
