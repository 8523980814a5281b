import Mathlib.Data.List.Nodup
import Mathlib.Tactic.ByContra
import Toplevel.Interaction.Cycle
import Toplevel.Proofs.Code.Scope
import Toplevel.Proofs.Eval.Frame

/-!
# What the actions of an interaction do

An interaction is asked to run a line, a source or a whole program, one after another. Below the
history and the transcript each of them is an attempt at a source (`act_of_source`): it is compiled
against the definitions so far and evaluated on the machine.

As long as the session does not start over, attempts only add: `Grows` relates what there is before
and after. A global that is there keeps its value, and a function keeps its body
(`Interaction.acts_grow`).
-/

namespace Toplevel

inductive Action where
  | submit (text : Text)
  | execute (source : Text)
  | runFresh (text : Text)
  | older
  | newer

def Action.source? : Action → Option Text
  | .submit text | .runFresh text => if text.strip.isEmpty then none else some text.strip
  | .execute source => some source
  | .older | .newer => none

def Action.isFresh : Action → Bool
  | .runFresh _ => true
  | _ => false

namespace Interaction

variable {σ κ : Type} (E : Engine σ κ)

def act (a : Action) (i : Interaction σ) : Answer (Interaction σ) (Option Outcome) :=
  match a with
  | .submit text => i.submit E text
  | .execute source =>
    let (answer, i) := i.execute E source
    (answer.map some, i)
  | .runFresh text => i.runFresh E text
  | .older => (.ok none, i.older.2)
  | .newer => (.ok none, i.newer.2)

def acts (as : List Action) (i : Interaction σ) : Interaction σ :=
  as.foldl (fun i a => (i.act E a).2) i

theorem acts_nil (i : Interaction σ) : i.acts E [] = i :=
  rfl

theorem acts_cons (a : Action) (as : List Action) (i : Interaction σ) :
    i.acts E (a :: as) = (i.act E a).2.acts E as :=
  rfl

/-- What actions are answered with, one after another. -/
def answers (i : Interaction σ) : List Action → List (Except Raised (Option Outcome))
  | [] => []
  | a :: as => (i.act E a).1 :: answers (i.act E a).2 as

end Interaction

/-! ### Attempts -/

/-- What becomes of evaluated code when its value is displayed. -/
def Run.outcome {β : Type} : Except Fault Value × Machine β → Outcome
  | (.error f, _) => .evaluationFault f
  | (.ok v, m) =>
    match m.heap.display v with
    | .ok text => .value text
    | .error e => .evaluationFault (.ofDisplayError e)

/-- An attempt at a source: its outcome, and the definitions and the machine behind it. -/
structure Attempt where
  outcome : Outcome
  definitions : Definitions
  machine : Machine Code

def attempt (source : Text) (d : Definitions) (m : Machine Code) : Attempt :=
  match compileSource source d with
  | .error e => ⟨.rejected e.message, d, m⟩
  | .ok (code, d) => ⟨Run.outcome (code.evaluate m), d, (code.evaluate m).2⟩

theorem attempt_of_compiled {source : Text} {d d' : Definitions} {code : Compiled}
    (h : compileSource source d = .ok (code, d')) (m : Machine Code) :
    attempt source d m = ⟨Run.outcome (code.evaluate m), d', (code.evaluate m).2⟩ := by
  rw [attempt, h]

/-- What a state holds of an attempt; what it has noted of it does not matter. -/
structure Attempt.Behind (r : Attempt) (s : EngineState) : Prop where
  definitions : s.session.definitions = r.definitions
  machine : s.machine = r.machine

namespace EngineState

/-- Evaluating and displaying code that has just been compiled. -/
theorem run_standard (code : Compiled) (s : EngineState) :
    (Engine.standard.run code s).1 = .ok (Run.outcome (code.evaluate s.machine))
      ∧ Attempt.Behind ⟨Run.outcome (code.evaluate s.machine), s.session.definitions,
        (code.evaluate s.machine).2⟩ (Engine.standard.run code s).2 := by
  simp only [Engine.run, Engine.standard, evaluate]
  rcases he : code.evaluate s.machine with ⟨f | v, m⟩
  · simp only [note, he]
    exact ⟨rfl, rfl, rfl⟩
  · simp only [note, he, Run.outcome]
    rcases m.heap.display v with e | text <;> exact ⟨rfl, rfl, rfl⟩

/-- The standard engine executes a source as an attempt says. -/
theorem execute_standard (source : Text) (s : EngineState) :
    (Engine.standard.execute source s).1
        = .ok (attempt source s.session.definitions s.machine).outcome
      ∧ (attempt source s.session.definitions s.machine).Behind
        (Engine.standard.execute source s).2 := by
  unfold attempt
  rcases hc : compileSource source s.session.definitions with e | ⟨code, d⟩
  · simp only [Engine.execute, Engine.standard, process, Session.process, hc, Session.error]
    exact ⟨rfl, rfl, rfl⟩
  · simp only [Engine.execute, Engine.standard, process, Session.process, hc, Session.error]
    exact run_standard code { s with session := ⟨d, .compiled code⟩ }

end EngineState

/-! ### Actions -/

namespace Interaction

/-- The definitions that an action's source is compiled against. -/
def definitionsFor (a : Action) (i : Interaction EngineState) : Definitions :=
  if a.isFresh then .empty else i.engine.session.definitions

theorem definitionsFor_execute (source : Text) (i : Interaction EngineState) :
    i.definitionsFor (.execute source) = i.engine.session.definitions :=
  rfl

theorem executeShown_standard (source : Text) (i : Interaction EngineState) :
    let r := attempt source i.engine.session.definitions i.engine.machine
    (i.executeShown .standard source).1 = .ok (some r.outcome)
      ∧ r.Behind (i.executeShown .standard source).2.engine := by
  obtain ⟨h1, h2⟩ := EngineState.execute_standard source i.engine
  rcases he : Engine.standard.execute source i.engine with ⟨answer, engine⟩
  rw [he] at h1 h2
  subst h1
  simp only [executeShown, execute, he]
  exact ⟨trivial, h2⟩

theorem act_of_blank {a : Action} (h : a.source? = none) (i : Interaction EngineState) :
    (i.act .standard a).1 = .ok none ∧ (i.act .standard a).2.engine = i.engine := by
  cases a with
  | submit text | runFresh text =>
    have hblank : text.strip.isEmpty = true := by
      by_contra hne
      simp [Action.source?, hne] at h
    simp only [act, submit, runFresh, hblank, if_true, and_self]
  | execute source => cases h
  | older | newer => exact ⟨rfl, rfl⟩

theorem act_of_source {a : Action} {source : Text} (h : a.source? = some source)
    (i : Interaction EngineState) :
    let r := attempt source (i.definitionsFor a) i.engine.machine
    (i.act .standard a).1 = .ok (some r.outcome) ∧ r.Behind (i.act .standard a).2.engine := by
  cases a with
  | submit text =>
    simp only [Action.source?] at h
    split at h
    · cases h
    · rename_i hne
      cases h
      simp only [act, submit, hne]
      exact executeShown_standard _ _
  | runFresh text =>
    simp only [Action.source?] at h
    split at h
    · cases h
    · rename_i hne
      cases h
      simp only [act, runFresh, hne]
      exact executeShown_standard _ _
  | execute text =>
    cases h
    obtain ⟨h1, h2⟩ := EngineState.execute_standard source i.engine
    simp only [act, execute]
    exact ⟨by rw [h1]; rfl, h2⟩
  | older | newer => cases h

/-- The first action of an interaction is an attempt from nothing. -/
theorem act_start {a : Action} {source : Text} (h : a.source? = some source) :
    (act .standard a (.start .empty)).1 = .ok (some (attempt source .empty .empty).outcome)
      ∧ (act .standard a (.start .empty)).2.engine.machine
        = (attempt source .empty .empty).machine := by
  have hd : definitionsFor a (.start .empty) = .empty := ite_self _
  obtain ⟨h1, h2⟩ := act_of_source h (.start .empty)
  rw [hd] at h1 h2
  exact ⟨h1, h2.machine⟩

end Interaction

/-! ### What attempts add -/

/-- What there is before and after attempts in a session that does not start over: scopes and the
machine's globals only get longer, and what is new to the globals is new to the scope. -/
structure Grows (scope scope' : Scope) (m m' : Machine Code) : Prop where
  globals : ∃ (added : Scope) (news : List (Global × Value)),
    scope' = added ++ scope ∧ m'.globals = news ++ m.globals
      ∧ (news.map Prod.fst).Sublist added
  heap : m.heap.Keeps m'.heap

namespace Grows

theorem refl (scope : Scope) (m : Machine Code) : Grows scope scope m m :=
  ⟨⟨[], [], rfl, rfl, .slnil⟩, .refl m.heap⟩

theorem trans {scope scope' scope'' : Scope} {m m' m'' : Machine Code}
    (h : Grows scope scope' m m') (h' : Grows scope' scope'' m' m'') :
    Grows scope scope'' m m'' := by
  obtain ⟨added, news, rfl, hg, hsub⟩ := h.globals
  obtain ⟨added', news', rfl, hg', hsub'⟩ := h'.globals
  refine ⟨⟨added' ++ added, news' ++ news, ?_, ?_, ?_⟩, h.heap.trans h'.heap⟩
  · rw [List.append_assoc]
  · rw [hg', hg, List.append_assoc]
  · rw [List.map_append]
    exact hsub'.append hsub

/-- A global with a number that has been given before is set or missing as before. -/
theorem find?_eq {scope scope' : Scope} {m m' : Machine Code} (h : Grows scope scope' m m')
    (hn : scope'.Numbered) {g : Global} (hg : g.index ≤ scope.length) :
    m'.find? g = m.find? g := by
  obtain ⟨added, news, rfl, hglobals, hsub⟩ := h.globals
  have hnone : news.lookup g = none := by
    rw [List.lookup_eq_none_iff]
    intro e he
    rw [bne_iff_ne]
    rintro rfl
    have hlt := hn.lt_index (hsub.subset (List.mem_map_of_mem he))
    omega
  rw [Machine.find?, Machine.find?, hglobals, List.lookup_append, hnone, Option.none_or]

end Grows

theorem attempt_grows (source : Text) {scope : Scope} (hn : scope.Numbered) (m : Machine Code) :
    ∃ scope' : Scope, (attempt source scope.definitions m).definitions = scope'.definitions
      ∧ scope'.Numbered ∧ Grows scope scope' m (attempt source scope.definitions m).machine := by
  unfold attempt
  rcases hc : compileSource source scope.definitions with e | ⟨code, d⟩
  · exact ⟨scope, rfl, hn, .refl scope m⟩
  · obtain ⟨p, -, -, hd, hafter, -⟩ := compileSource_scope hc
    have hadv := code.evaluate_advances m
    obtain ⟨news, hglobals, hprefix, -⟩ := hadv.globals
    refine ⟨p.after scope, hd, p.numbered_after hn, ⟨⟨code.targets.reverse, news.reverse,
      hafter, hglobals, ?_⟩, hadv.heap⟩⟩
    rw [List.map_reverse]
    exact hprefix.sublist.reverse

/-- The numbering goes on from one action to the next, and nothing is taken back. -/
theorem Interaction.acts_grow (as : List Action) {i : Interaction EngineState} {scope : Scope}
    (hfresh : ∀ a ∈ as, a.isFresh = false) (hd : i.engine.session.definitions = scope.definitions)
    (hn : scope.Numbered) :
    ∃ scope' : Scope, (i.acts .standard as).engine.session.definitions = scope'.definitions
      ∧ scope'.Numbered
      ∧ Grows scope scope' i.engine.machine (i.acts .standard as).engine.machine := by
  induction as generalizing i scope with
  | nil => exact ⟨scope, hd, hn, .refl scope _⟩
  | cons a as ih =>
    have hrest : ∀ b ∈ as, b.isFresh = false := fun b hb => hfresh b (List.mem_cons_of_mem a hb)
    have hstep : ∃ scope' : Scope,
        (i.act .standard a).2.engine.session.definitions = scope'.definitions ∧ scope'.Numbered
          ∧ Grows scope scope' i.engine.machine (i.act .standard a).2.engine.machine := by
      rcases hs : a.source? with _ | source
      · rw [(act_of_blank hs i).2]
        exact ⟨scope, hd, hn, .refl scope _⟩
      · obtain ⟨h1, h2⟩ := (act_of_source hs i).2
        rw [h1, h2, definitionsFor, hfresh a List.mem_cons_self, if_neg Bool.false_ne_true, hd]
        exact attempt_grows source hn i.engine.machine
    obtain ⟨scope1, hd1, hn1, hgrow⟩ := hstep
    obtain ⟨scope2, hd2, hn2, hgrow'⟩ := ih hrest hd1 hn1
    exact ⟨scope2, hd2, hn2, hgrow.trans hgrow'⟩

end Toplevel
