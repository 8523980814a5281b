import Toplevel.Proofs.Interaction.Actions
import Toplevel.Proofs.Value.Printing

/-!
# An interaction keeps to the language

Whatever is run in an interaction, its machine holds values of the language alone, and so do the
results (`Interaction.start_native`). A whole number is among them only if it has been counted up
from truth values in this interaction. So nothing but texts is displayed as a key, and nothing comes
up that has no text but the name of its type.
-/

namespace Toplevel

/-- The deeds of an attempt. -/
def attemptDeeds (source : Text) (d : Definitions) (m : Machine Code) : List Deed :=
  match compileSource source d with
  | .error _ => []
  | .ok (code, _) => (code.trace m).1

/-- The value of an attempt, if it has one. -/
def attemptValue? (source : Text) (d : Definitions) (m : Machine Code) : Option Value :=
  match compileSource source d with
  | .error _ => none
  | .ok (code, _) => (code.evaluate m).1.toOption

/-- A machine evolves by the deeds of an attempt, and the value is of the language. -/
theorem attempt_evolves {deeds : List Deed} (source : Text) (d : Definitions) {m : Machine Code}
    (hm : m.Native deeds) (hdeeds : attemptDeeds source d m ⊆ deeds) :
    Machine.Evolves deeds (attemptDeeds source d m) m (attempt source d m).machine
      ∧ ∀ v ∈ attemptValue? source d m,
        v.Native deeds (attempt source d m).machine.heap.size := by
  unfold attempt attemptDeeds attemptValue? at *
  rcases hc : compileSource source d with e | ⟨code, d'⟩
  · exact ⟨.refl hm, nofun⟩
  · simp only [hc] at hdeeds
    have hleaves := Compiled.trace_sound (compileSource_named hc) m (Nat.zero_le _) hm hdeeds
    have hrun : code.evaluate m = (code.trace m).2 := (congrFun code.untold_trace m).symm
    simp only [hrun]
    exact ⟨hleaves.toEvolves, fun v hv => hleaves.value v (toOption_eq_some_iff.1 hv)⟩

namespace Interaction

/-- The deeds of an action. -/
def actDeeds (a : Action) (i : Interaction EngineState) : List Deed :=
  match a.source? with
  | none => []
  | some source => attemptDeeds source (i.definitionsFor a) i.engine.machine

theorem actDeeds_of_source {a : Action} {source : Text} (hs : a.source? = some source)
    (i : Interaction EngineState) :
    i.actDeeds a = attemptDeeds source (i.definitionsFor a) i.engine.machine := by
  rw [actDeeds, hs]

/-- The value that an action gives. -/
def actValue? (a : Action) (i : Interaction EngineState) : Option Value :=
  a.source?.bind fun source => attemptValue? source (i.definitionsFor a) i.engine.machine

/-- The deeds of actions, one after another. -/
def deeds (i : Interaction EngineState) : List Action → List Deed
  | [] => []
  | a :: as => i.actDeeds a ++ deeds (i.act .standard a).2 as

theorem act_evolves {deeds : List Deed} (a : Action) {i : Interaction EngineState}
    (hi : i.engine.machine.Native deeds) (hdeeds : i.actDeeds a ⊆ deeds) :
    Machine.Evolves deeds (i.actDeeds a) i.engine.machine (i.act .standard a).2.engine.machine
      ∧ ∀ v ∈ i.actValue? a,
        v.Native deeds (i.act .standard a).2.engine.machine.heap.size := by
  unfold actDeeds actValue? at *
  rcases hs : a.source? with _ | source
  · simp only [(act_of_blank hs i).2]
    exact ⟨.refl hi, nofun⟩
  · simp only [hs] at hdeeds
    rw [(act_of_source hs i).2.machine]
    exact attempt_evolves source _ hi hdeeds

theorem acts_evolves {deeds : List Deed} (as : List Action) {i : Interaction EngineState}
    (hi : i.engine.machine.Native deeds) (hdeeds : i.deeds as ⊆ deeds) :
    Machine.Evolves deeds (i.deeds as) i.engine.machine (i.acts .standard as).engine.machine := by
  induction as generalizing i with
  | nil => exact .refl hi
  | cons a as ih =>
    obtain ⟨ha, has⟩ := List.append_subset.1 hdeeds
    obtain ⟨hact, -⟩ := act_evolves a hi ha
    exact hact.trans (ih hact.native has)

/-- From the beginning on, the machine is of the language. -/
theorem start_evolves (as : List Action) :
    Machine.Evolves ((start .empty).deeds as) ((start .empty).deeds as) .empty
      ((start .empty).acts .standard as).engine.machine :=
  acts_evolves as .empty (List.Subset.refl _)

theorem deeds_append (as bs : List Action) (i : Interaction EngineState) :
    i.deeds (as ++ bs) = i.deeds as ++ (i.acts .standard as).deeds bs := by
  induction as generalizing i with
  | nil => rfl
  | cons a as ih => simp only [List.cons_append, deeds, ih, List.append_assoc]; rfl

end Interaction

/-- How a value is displayed on a machine: all that comes up is of the language, and nothing comes
up in a key; so it does not matter how keys that are no texts would be written. -/
structure Machine.Displays (deeds : List Deed) (m : Machine Code) (v : Value) : Prop where
  native : v.Native deeds m.heap.size
  meets : ∀ n w, m.heap.Meets v n w → n = 0 ∧ w.Native deeds m.heap.size
  keys : ∀ key : Value → Except DisplayError Text, (∀ t, key (.string t) = .ok t) →
    (writeAll m.heap key (m.heap.size + 1) .empty [.value v]).map Display.text = m.heap.display v

theorem Machine.Native.displays {deeds : List Deed} {m : Machine Code} (hm : m.Native deeds)
    {v : Value} (hv : v.Native deeds m.heap.size) : m.Displays deeds v where
  native := hv
  meets _ _ h := hm.of_meets hv h
  keys _ hkey := hm.writeAll_eq_display hv hkey

/-- The outcome of an attempt with a value is how the value is displayed. -/
theorem attempt_of_value {source : Text} {d : Definitions} {m : Machine Code} {v : Value}
    (hv : v ∈ attemptValue? source d m) :
    (attempt source d m).outcome = Run.outcome (.ok v, (attempt source d m).machine) := by
  unfold attempt attemptValue? at *
  rcases hc : compileSource source d with e | ⟨code, d'⟩
  · simp [hc] at hv
  · simp only [hc] at hv
    exact congrArg (fun r => Run.outcome (r, (code.evaluate m).2)) (toOption_eq_some_iff.1 hv)

theorem Interaction.act_of_value {a : Action} {i : Interaction EngineState} {v : Value}
    (hv : v ∈ i.actValue? a) :
    (i.act .standard a).1
      = .ok (some (Run.outcome (.ok v, (i.act .standard a).2.engine.machine))) := by
  obtain ⟨source, hs, hv⟩ := Option.bind_eq_some_iff.1 hv
  obtain ⟨h1, h2⟩ := act_of_source hs i
  rw [h1, h2.machine, attempt_of_value hv]

/-- Whatever has been run, the machine is of the language; and so is the value that one more action
gives, which is answered with its display. -/
theorem Interaction.start_native (as : List Action) :
    let i := (start .empty).acts .standard as
    i.engine.machine.Native ((start .empty).deeds as)
      ∧ ∀ a, ∀ v ∈ i.actValue? a,
        let j := (i.act .standard a).2
        j.engine.machine.Displays ((start .empty).deeds (as ++ [a])) v
          ∧ (i.act .standard a).1 = .ok (some (Run.outcome (.ok v, j.engine.machine))) := by
  intro i
  refine ⟨(start_evolves as).native, fun a v hv => ⟨?_, act_of_value hv⟩⟩
  have hdeeds : (start .empty).deeds (as ++ [a]) = (start .empty).deeds as ++ i.actDeeds a := by
    rw [deeds_append]
    exact congrArg _ (List.append_nil _)
  rw [hdeeds]
  have hempty : (start EngineState.empty).engine.machine.Native
      ((start .empty).deeds as ++ i.actDeeds a) := .empty
  have hi := (acts_evolves as hempty (List.subset_append_left _ _)).native
  obtain ⟨hact, hvalue⟩ := act_evolves a hi (List.subset_append_right _ _)
  exact hact.native.displays (hvalue v hv)

end Toplevel
