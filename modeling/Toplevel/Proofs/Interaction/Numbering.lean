import Mathlib.Data.List.Induction
import Toplevel.Proofs.Code.Naming
import Toplevel.Proofs.Code.Scope
import Toplevel.Proofs.Interaction.Calls

/-!
# How a session numbers definitions

The definitions that a session knows are those of the sources that have compiled since it last
started over (`Session.Tracks`), whatever other sources there were among them. So the globals that
the code of these sources defines are numbered one after another, and no two are written alike
(`Tracks.numbering`).
-/

namespace Toplevel

namespace Session

def Entry.program? (e : Entry) : Option Program :=
  match e.call, e.answer with
  | .process source, .ok (.verdict true) => (parse source).toOption
  | _, _ => none

/-- The code that a call has given out. -/
def Entry.code? (e : Entry) : Option Compiled :=
  match e.call with
  | .process _ => e.after.output.toOption
  | _ => none

def sinceReset (past : List Entry) : List Entry :=
  past.foldl (fun es e => match e.call with
    | .reset => []
    | _ => es ++ [e]) []

/-- The globals that the code given out defines, in order. -/
def targets (past : List Entry) : List Global :=
  ((sinceReset past).filterMap Entry.code?).flatMap Compiled.targets

/-- The names that the sources with this code define. -/
def names (past : List Entry) : List Text :=
  ((sinceReset past).filterMap Entry.program?).flatMap Program.names

def scope (past : List Entry) : Scope :=
  ((sinceReset past).filterMap Entry.program?).foldl (fun scope p => p.after scope) []

theorem sinceReset_snoc (past : List Entry) (e : Entry) :
    sinceReset (past ++ [e]) = match e.call with
      | .reset => []
      | _ => sinceReset past ++ [e] := by
  simp only [sinceReset, List.foldl_append, List.foldl_cons, List.foldl_nil]

/-- The definitions of a session are those of the sources that have compiled. -/
structure Tracks (past : List Entry) (s : Session) : Prop where
  definitions : s.definitions = (scope past).definitions
  scope_eq : scope past = (targets past).reverse
  names_eq : (targets past).map Global.name = names past
  numbered : (scope past).Numbered

namespace Tracks

variable {past : List Entry} {s s' : Session}

theorem of_definitions (h : Tracks past s) (hs : s'.definitions = s.definitions) :
    Tracks past s' :=
  ⟨hs.trans h.definitions, h.scope_eq, h.names_eq, h.numbered⟩

/-- A call that gives out no code leaves no trace. -/
theorem skip (h : Tracks past s) {e : Entry} (hc : e.call ≠ .reset) (hcode : e.code? = none)
    (hprogram : e.program? = none) (hs : s'.definitions = s.definitions) :
    Tracks (past ++ [e]) s' := by
  have hsince : sinceReset (past ++ [e]) = sinceReset past ++ [e] := by
    rw [sinceReset_snoc]
    split
    · rename_i hr
      exact absurd hr hc
    · rfl
  have ht : targets (past ++ [e]) = targets past := by simp [targets, hsince, hcode]
  have hn : names (past ++ [e]) = names past := by simp [names, hsince, hprogram]
  have hsc : scope (past ++ [e]) = scope past := by simp [scope, hsince, hprogram]
  have h' := h.of_definitions hs
  exact ⟨hsc ▸ h'.definitions, by rw [hsc, ht, h.scope_eq], by rw [ht, hn, h.names_eq],
    hsc ▸ h.numbered⟩

theorem reset {e : Entry} (hc : e.call = .reset) : Tracks (past ++ [e]) .empty := by
  have hsince : sinceReset (past ++ [e]) = [] := by rw [sinceReset_snoc, hc]
  refine ⟨?_, ?_, ?_, ?_⟩ <;> simp [scope, targets, names, hsince, Scope.Numbered]
  rfl

theorem process (h : Tracks past s) (source : Text) :
    Tracks (past ++ [⟨.process source, .ok (.verdict (s.process source).1),
      (s.process source).2⟩]) (s.process source).2 := by
  rcases hcompile : compileSource source s.definitions with e | ⟨code, d⟩
  · rw [process_of_error hcompile]
    exact h.skip (by simp) rfl rfl rfl
  · have hp := process_of_ok hcompile
    rw [h.definitions] at hcompile
    obtain ⟨p, hparse, -, hd, hscope, hnames⟩ := compileSource_scope hcompile
    rw [hp]
    let e : Entry := ⟨.process source, .ok (.verdict true), ⟨d, .compiled code⟩⟩
    have hsince : sinceReset (past ++ [e]) = sinceReset past ++ [e] := sinceReset_snoc past e
    have hprogram : e.program? = some p := by
      simp only [e, Entry.program?, hparse]
      rfl
    have hcode : e.code? = some code := rfl
    have ht : targets (past ++ [e]) = targets past ++ code.targets := by
      simp [targets, hsince, hcode]
    have hn : names (past ++ [e]) = names past ++ p.names := by simp [names, hsince, hprogram]
    have hsc : scope (past ++ [e]) = p.after (scope past) := by simp [scope, hsince, hprogram]
    change Tracks (past ++ [e]) ⟨d, .compiled code⟩
    refine ⟨by rw [hsc]; exact hd, ?_, ?_, ?_⟩
    · rw [hsc, ht, hscope, List.reverse_append, h.scope_eq]
    · rw [ht, hn, List.map_append, hnames, h.names_eq]
    · rw [hsc]
      exact p.numbered_after h.numbered

end Tracks

/-- A session that starts empty tracks what comes of its calls. -/
theorem tracks (machine : Machine Code) (log : List LogRecord) (cs : List Call) :
    Tracks (EngineState.trace ⟨.empty, machine, log⟩ cs)
      (EngineState.calls cs ⟨.empty, machine, log⟩).session := by
  induction cs using List.reverseRecOn with
  | nil => exact ⟨rfl, rfl, rfl, rfl⟩
  | append_singleton cs c ih =>
    rw [EngineState.trace_append, EngineState.calls_append]
    generalize EngineState.calls cs ⟨.empty, machine, log⟩ = now at ih
    generalize EngineState.trace ⟨.empty, machine, log⟩ cs = past at ih
    change Tracks (past ++ [⟨c, (now.call c).1, (now.call c).2.session⟩])
      (now.call c).2.session
    cases c with
    | process source =>
      rw [(now.call_process source).1, (now.call_process source).2]
      exact ih.process source
    | output =>
      rw [EngineState.call_output]
      exact ih.skip (by simp) rfl rfl rfl
    | error =>
      rw [EngineState.call_error]
      exact ih.skip (by simp) rfl rfl rfl
    | reset => exact Tracks.reset rfl

/-- How the globals that sources define are numbered and written. -/
structure Numbering (past : List Entry) (s : Session) : Prop where
  targets_eq : targets past = (names past).mapIdx fun i x => ⟨i + 1, x⟩
  texts_nodup : ((targets past).map Global.text).Nodup
  bindings : ∀ e ∈ s.definitions.bindings, e.2 ∈ targets past ∧ e.2.name = e.1
  not_provided : ∀ g ∈ targets past, g.text ∉ runtimeNames
  not_local : ∀ g ∈ targets past, ∀ x, g.text ≠ localText x

theorem Tracks.numbering {past : List Entry} {s : Session} (h : Tracks past s) :
    Numbering past s where
  targets_eq := by
    have hn := h.numbered
    rw [Scope.Numbered, h.scope_eq, List.reverse_reverse, List.length_reverse] at hn
    rw [← h.names_eq]
    refine List.ext_getElem (by simp) fun i h1 h2 => ?_
    have hindex : (targets past)[i].index = i + 1 := by
      have hi := List.getElem_of_eq hn (by simpa using h1)
      simpa [Nat.add_comm] using hi
    rw [List.getElem_mapIdx, List.getElem_map, ← hindex]
  texts_nodup := by
    have hn := h.numbered.nodup
    rw [h.scope_eq, List.nodup_reverse] at hn
    exact hn.map Global.text_injective
  bindings e he := by
    rw [h.definitions] at he
    have hb := Scope.mem_bindings he
    rwa [h.scope_eq, List.mem_reverse] at hb
  not_provided g _ := g.text_notMem_runtimeNames
  not_local g _ := g.text_ne_localText

end Session

end Toplevel
