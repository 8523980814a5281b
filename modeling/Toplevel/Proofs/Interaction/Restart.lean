import Toplevel.Proofs.Eval.Simulation
import Toplevel.Proofs.Interaction.Actions
import Toplevel.Proofs.Syntax.Rendering
import Toplevel.Proofs.Value.Display

/-!
# Starting over

A whole program runs in a session that starts over, but on the machine as it is: the globals of
earlier programs are still there, under numbers that are given out again. What follows is compared
with the same on an interaction that has just begun. The machines correspond, the heap of the one
standing behind the older objects of the other (`Link.behind`), and so both answer alike until a
global is asked for that only the older machine has (`attempt_behind`). Such a global may be read
before its new definition, and then they do not (`runFresh_as_new_iff`).
-/

namespace Toplevel

/-! ### What is shown of an undefined name -/

namespace Fault

theorem head?_description_of_isOrdinary {f : Fault} (h : f.isOrdinary) :
    f.description.head? ≠ some (CodePoint.ofChar 'N') := by
  have hkind : ∃ c t, f.kind = c :: t ∧ c ≠ CodePoint.ofChar 'N' := by
    cases f <;> first | exact ⟨_, _, rfl, by decide⟩ | exact absurd h Bool.false_ne_true
  obtain ⟨c, t, hkind, hc⟩ := hkind
  unfold description
  split <;> simp [hkind, Text.concat, hc]

theorem description_undefined (x : Text) :
    (undefined x).description
      = Text.concat ["NameError: name '", x, "' is not defined"] := by
  simp [description, detail, kind, Text.concat, Text.ofString, Text.ofChars]

theorem description_undefined_injective {x y : Text}
    (h : (undefined x).description = (undefined y).description) : x = y := by
  rw [description_undefined, description_undefined] at h
  simpa [Text.concat] using h

end Fault

theorem Fault.Of.eq_of_description {m : Machine Code} {f : Fault} (hf : Fault.Of m f) {g : Global}
    (h : f.description = (Fault.undefined g.text).description) : f = .undefined g.text := by
  cases hf with
  | ordinary ho =>
    refine absurd ?_ (head?_description_of_isOrdinary ho)
    rw [h, description_undefined]
    rfl
  | localName x => rw [description_undefined_injective h]
  | globalName _ => rw [description_undefined_injective h]

/-- What is reported of an outcome. -/
structure Outcome.Report where
  success : Bool
  message : Text
  errorName? : Option Text
deriving DecidableEq

def Outcome.report (o : Outcome) : Outcome.Report := ⟨o.success, o.message, o.errorName?⟩

theorem Outcome.description_of_report {o : Outcome} {f : Fault}
    (h : o.report = (Outcome.evaluationFault f).report) :
    ∃ f', o = .evaluationFault f' ∧ f'.description = f.description := by
  obtain ⟨hs, hm, he⟩ := Report.mk.inj h
  cases o with
  | value t => cases hs
  | rejected r => simp [errorName?, Text.ofString, Text.ofChars] at he
  | compilerFault f' => simp [errorName?, Text.ofString, Text.ofChars] at he
  | evaluationFault f' => 
    refine ⟨f', rfl, ?_⟩
    simpa [message, Text.concat] using hm

/-! ### Machines behind older ones -/

/-- A machine that has just begun, on the left, and one on which the same is done behind the
objects and the globals of earlier programs. -/
def Link.behind (older : Machine Code) : Link Code Code where
  place a := a + older.heap.size
  injective a b h := Nat.add_right_cancel h
  functions x b env y c env' := y = x ∧ c = b ∧ env' = env.rename (· + older.heap.size)
  globals gs gs' :=
    gs' = gs.map (Prod.map id (Value.rename (· + older.heap.size))) ++ older.globals
  excused e := ∃ g : Global, (older.find? g).isSome ∧ e = .undefined g.text
  lookup_globals h g := by
    rw [h, List.lookup_append, lookup_map_snd]
    rcases hg : List.lookup g _ with _ | v
    · rcases ho : older.globals.lookup g with _ | w
      · exact Or.inl rfl
      · exact Or.inr ⟨rfl, g, by rw [Machine.find?, ho]; rfl, rfl⟩
    · exact Or.inl rfl
  cons_globals h g v := by
    rw [h]
    rfl

theorem Link.behind_sameCode (older : Machine Code) : (Link.behind older).SameCode :=
  fun _ _ _ _ _ _ => Iff.rfl

theorem Link.behind_empty (older : Machine Code) :
    (Link.behind older).Machines .empty older where
  heaps :=
    { place_size := fun k => by
        simp [behind, Machine.empty, Heap.empty, Heap.size, Nat.add_comm]
      objects := fun a o ho => by
        simp [Machine.empty, Heap.empty, Heap.get?] at ho }
  globals := rfl

/-- The outcome that the older machine does not share. -/
def Outcome.Missed (older : Machine Code) (o : Outcome) : Prop :=
  ∃ g : Global, (older.find? g).isSome ∧ o = .evaluationFault (.undefined g.text)

theorem Run.Advances.fault_of_outcome {targets : List Global} {m : Machine Code}
    {r : Except Fault Value × Machine Code} (h : Run.Advances targets m r) {f : Fault}
    (hf : Run.outcome r = .evaluationFault f) : Fault.Of r.2 f := by
  obtain ⟨e | v, m'⟩ := r
  · cases hf
    exact h.fault f rfl
  · simp only [Run.outcome] at hf
    split at hf
    · cases hf
    · rename_i e he
      cases hf
      cases e <;> exact .ordinary rfl

/-- Attempts on machines that correspond end alike, unless the left one misses a global that the
older machine has; then they do not even look alike. -/
theorem attempt_behind (source : Text) (d : Definitions) {older m m' : Machine Code}
    (hm : (Link.behind older).Machines m m') :
    (¬(attempt source d m).outcome.Missed older
      ∧ (attempt source d m').outcome = (attempt source d m).outcome
      ∧ (attempt source d m').definitions = (attempt source d m).definitions
      ∧ (Link.behind older).Machines (attempt source d m).machine (attempt source d m').machine)
    ∨ ((attempt source d m).outcome.Missed older
      ∧ (attempt source d m').outcome.report ≠ (attempt source d m).outcome.report) := by
  unfold attempt
  rcases compileSource source d with e | ⟨code, d'⟩
  · exact Or.inl ⟨fun ⟨g, _, he⟩ => by (cases he), rfl, rfl, hm⟩
  · have hadv := code.evaluate_advances m'
    have hsim := Compiled.evaluate_sim (Link.behind_sameCode older) code m m' hm
    -- the older machine has the global, and so cannot complain of it
    have hne : (Run.outcome (code.evaluate m)).Missed older →
        (Run.outcome (code.evaluate m')).report ≠ (Run.outcome (code.evaluate m)).report := by
      rintro ⟨g, hg, ho⟩ heq
      rw [ho] at heq
      obtain ⟨f, hf, hd⟩ := Outcome.description_of_report heq
      have hof := hadv.fault_of_outcome hf
      rw [hof.eq_of_description hd] at hof
      obtain ⟨news, hglobals, -⟩ := hadv.globals
      have hsome := Machine.find?_isSome_of_append hglobals
        (Machine.find?_isSome_of_append hm.globals hg)
      rw [hof.find?_eq_none] at hsome
      cases hsome
    have hcases : (Run.outcome (code.evaluate m') = Run.outcome (code.evaluate m)
          ∧ (Link.behind older).Machines (code.evaluate m).2 (code.evaluate m').2)
        ∨ (Run.outcome (code.evaluate m)).Missed older := by
      generalize code.evaluate m = r at hsim
      generalize code.evaluate m' = r' at hsim
      cases hsim with
      | done h hm1 =>
        refine Or.inl ⟨?_, hm1⟩
        simp only [Run.outcome, h, Heap.display_rename hm1.heaps]
      | failed hm1 => exact Or.inl ⟨rfl, hm1⟩
      | excused he =>
        obtain ⟨g, hg, rfl⟩ := he
        exact Or.inr ⟨g, hg, rfl⟩
    rcases hcases with ⟨ho, hm1⟩ | hmissed
    · exact Or.inl ⟨fun hmissed => hne hmissed (by rw [ho]), ho, rfl, hm1⟩
    · exact Or.inr ⟨hmissed, hne hmissed⟩

/-! ### Whole interactions -/

namespace Interaction

/-- What is reported of actions, one after another. -/
def reports (i : Interaction EngineState) (as : List Action) :
    List (Except Raised (Option Outcome.Report)) :=
  (i.answers .standard as).map (Except.map (Option.map Outcome.report))

/-- An interaction whose session is that of another, on a machine behind older objects. -/
structure Behind (older : Machine Code) (i i' : Interaction EngineState) : Prop where
  definitions : i'.engine.session.definitions = i.engine.session.definitions
  machines : (Link.behind older).Machines i.engine.machine i'.engine.machine

/-- The actions are reported alike just if no outcome of the first misses a global. -/
def Agree (older : Machine Code) (i i' : Interaction EngineState) (as : List Action) : Prop :=
  i'.reports as = i.reports as
    ↔ ∀ o, .ok (some o) ∈ i.answers .standard as → ¬o.Missed older

variable {older : Machine Code} {i i' : Interaction EngineState}

theorem agree_cons {a : Action} {source : Text} (hs : a.source? = some source)
    (hd : i'.definitionsFor a = i.definitionsFor a)
    (hm : (Link.behind older).Machines i.engine.machine i'.engine.machine) {as : List Action}
    (hrest : Behind older (i.act .standard a).2 (i'.act .standard a).2 →
      Agree older (i.act .standard a).2 (i'.act .standard a).2 as) :
    Agree older i i' (a :: as) := by
  obtain ⟨hans, hdefs, hmach⟩ := act_of_source hs i
  obtain ⟨hans', hdefs', hmach'⟩ := act_of_source hs i'
  rw [hd] at hans' hdefs' hmach'
  have hattempt := attempt_behind source (i.definitionsFor a) hm
  rw [Agree, reports, reports, answers, answers, List.map_cons, List.map_cons, hans, hans',
    List.cons.injEq]
  rcases hattempt with ⟨hnot, ho, hd1, hm1⟩ | ⟨hmissed, hne⟩
  · have hagree := hrest ⟨by rw [hdefs, hdefs', hd1], by rw [hmach, hmach']; exact hm1⟩
    rw [Agree, reports, reports] at hagree
    rw [ho, hagree]
    simp only [true_and, List.mem_cons]
    refine ⟨fun h o ho => ?_, fun h o ho => h o (Or.inr ho)⟩
    rcases ho with ho | ho
    · cases ho
      exact hnot
    · exact h o ho
  · refine ⟨fun ⟨heq, _⟩ => ?_, fun h => absurd hmissed (h _ List.mem_cons_self)⟩
    simp only [Except.map, Option.map, Except.ok.injEq, Option.some.injEq] at heq
    exact absurd heq hne

theorem agree (as : List Action) (hfresh : ∀ a ∈ as, a.isFresh = false)
    (h : Behind older i i') : Agree older i i' as := by
  induction as generalizing i i' with
  | nil => simp [Agree, reports, answers]
  | cons a as ih =>
    have hrest := fun b hb => hfresh b (List.mem_cons_of_mem a hb)
    rcases hs : a.source? with _ | source
    · obtain ⟨hans, hengine⟩ := act_of_blank hs i
      obtain ⟨hans', hengine'⟩ := act_of_blank hs i'
      have hbehind : Behind older (i.act .standard a).2 (i'.act .standard a).2 :=
        ⟨by rw [hengine, hengine', h.definitions], by rw [hengine, hengine']; exact h.machines⟩
      have hagree := ih hrest hbehind
      rw [Agree, reports, reports] at hagree
      rw [Agree, reports, reports, answers, answers, List.map_cons, List.map_cons, hans, hans',
        List.cons.injEq, hagree]
      simp
    · refine agree_cons hs ?_ h.machines (ih hrest)
      rw [definitionsFor, definitionsFor, hfresh a List.mem_cons_self, h.definitions]

end Interaction

/-- A program that runs from nothing, and lines after it, are reported as in an interaction that has
just begun, exactly if there none of them misses a global that is left over from before. -/
theorem runFresh_as_new_iff (i : Interaction EngineState) (p : Text) (hp : ¬p.strip.isEmpty)
    (qs : List Text) :
    i.reports (.runFresh p :: qs.map .submit)
        = Interaction.reports (.start .empty) (.runFresh p :: qs.map .submit)
      ↔ ∀ g, (i.engine.machine.find? g).isSome →
        .ok (some (.evaluationFault (.undefined g.text)))
          ∉ Interaction.answers .standard (.start .empty) (.runFresh p :: qs.map .submit) := by
  have hagree : Interaction.Agree i.engine.machine (.start .empty) i
      (.runFresh p :: qs.map .submit) := by
    have hs : (Action.runFresh p).source? = some p.strip := if_neg hp
    have hstart : (Link.behind i.engine.machine).Machines
        (Interaction.start EngineState.empty).engine.machine i.engine.machine :=
      Link.behind_empty i.engine.machine
    have hd : i.definitionsFor (.runFresh p)
        = Interaction.definitionsFor (.runFresh p) (.start .empty) := rfl
    refine Interaction.agree_cons hs hd hstart (Interaction.agree _ ?_)
    intro a ha
    obtain ⟨q, -, rfl⟩ := List.mem_map.1 ha
    rfl
  rw [Interaction.Agree] at hagree
  rw [hagree]
  constructor
  · intro h g hg hmem
    exact h _ hmem ⟨g, hg, rfl⟩
  · rintro h o hmem ⟨g, hg, rfl⟩
    exact h g hg hmem

theorem attempt_definition_as_true :
    (attempt "let x = true" .empty .empty).machine.globals = [(⟨1, "x"⟩, .bool true)] := by
  rw [attempt, compileSource, eq_of_isDefinitionAsTrue parse_definitions_of_x.1]
  rfl

theorem attempt_definition_as_itself :
    (attempt "let rec x = x" .empty .empty).outcome
      = .evaluationFault (.undefined (Global.text ⟨1, "x"⟩)) := by
  obtain ⟨p, hp⟩ := eq_of_isDefinitionAsItself parse_definitions_of_x.2
  rw [attempt, compileSource, hp]
  rfl

/-- A definition that reads itself finds the value of an earlier one. -/
theorem runFresh_as_new_iff_left_over :
    (Interaction.act .standard (.submit "let x = true") (.start .empty)).2.reports
        [.runFresh "let rec x = x"]
      ≠ Interaction.reports (.start .empty) [.runFresh "let rec x = x"] := by
  intro hreports
  have hsubmit : (Action.submit "let x = true").source? = some ("let x = true" : Text) := by
    decide
  have hrun : (Action.runFresh "let rec x = x").source? = some ("let rec x = x" : Text) := by
    decide
  refine (runFresh_as_new_iff _ "let rec x = x" (by decide) []).1 hreports ⟨1, "x"⟩ ?_ ?_
  · rw [Machine.find?, (Interaction.act_start hsubmit).2, attempt_definition_as_true]
    rfl
  · rw [← attempt_definition_as_itself, ← (Interaction.act_start hrun).1]
    exact List.mem_cons_self

end Toplevel
