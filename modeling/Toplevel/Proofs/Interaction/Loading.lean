import Toplevel.Proofs.Code.Rejection
import Toplevel.Proofs.Interaction.Actions

/-!
# Loading and executing a program

A program that is loaded is compiled without the white space around it, a program that is executed
is compiled as it stands. With nothing but blanks around it, it has the same code both ways, or it
is rejected for the same reason, at a place that is counted from where the compiled text begins.
White space that is no blank of the language does not matter to a program that is loaded, and stops
the reading of one that is executed (`Interaction.loads`).
-/

namespace Toplevel

/-! ### Rejections behind white space -/

def ParseError.behind (t lead : Text) : ParseError → ParseError
  | unexpected e => unexpected (e.behind t lead)
  | badEscape e => badEscape (e.placed (Position.behind lead) (lead.length + ·))

/-- A rejection of a text when the text stands behind `lead` in the source `t`. -/
def CompileError.behind (t lead : Text) : CompileError → CompileError :=
  placed (Position.behind lead) (ParseError.behind t lead)

theorem CompileError.position?_behind (t lead : Text) (e : CompileError) :
    (e.behind t lead).position? = e.position?.map (Position.behind lead) := by
  cases e with
  | parse e => cases e <;> rfl
  | _ => rfl

/-- A character that stops the reading of `t`, and the text before it. -/
def SyntaxError.foreign (t before : Text) (c : CodePoint) : SyntaxError :=
  .ofPlace t (.character c) before.length (Position.start.afterText before)

theorem compileSource_placed {s t lead : Text} {tree : Tree (.nonterminal .program)}
    (hs : Tree.ofSource s = .ok tree)
    (ht : Tree.ofSource t = .ok (tree.placed (Position.behind lead) (lead.length + ·)))
    (d : Definitions) :
    compileSource t d = (compileSource s d).mapError (CompileError.behind t lead) := by
  have hmoved := tree.meaning?_placed (Position.behind lead) (lead.length + ·)
  cases hm : tree.meaning? with
  | error e =>
    rw [hm] at hmoved
    rw [compileSource_of_badEscape hs hm, compileSource_of_badEscape ht hmoved]
    rfl
  | ok p =>
    rw [hm] at hmoved
    rw [compileSource_of_meaning hs hm, compileSource_of_meaning ht hmoved]
    exact p.compile?_placed _ _ d

/-! ### Compiling with and without margins -/

/-- A program has at least one token. -/
theorem Stack.complete?_nil : complete? [] = none := by
  cases h : complete? [] with
  | none => rfl
  | some tree =>
    obtain ⟨token, rest, htokens, -⟩ := tree.head_starts
    cases htokens.symm.trans (complete?_tokens h)

/-- How `t` is compiled, compared with how `t.strip` is. White space around it is either skipped, or
from its first code point on that is no blank (`Text.foreign`) not read. -/
structure CompilesAs (t : Text) (d : Definitions) : Prop where
  moved : t.lead.foreign = [] → t.trail.foreign = [] → ¬t.strip.Bare →
    compileSource t d = (compileSource t.strip d).mapError (CompileError.behind t t.lead)
  /-- The end of a text without tokens is reported at its beginning. -/
  bare : t.lead.foreign = [] → t.trail.foreign = [] → t.strip.Bare → ∀ s ∈ [t.strip, t],
    compileSource s d = .error (.parse (.unexpected (.ofPlace s .endOfInput 0 .start)))
  /-- The reading stops before the end of the program, and what is behind it does not matter. -/
  early : t.lead.foreign = [] → ∀ e, Tree.ofSource t.strip = .error e → e.problem ≠ .endOfInput →
    compileSource t d = .error (.parse (.unexpected (e.behind t t.lead)))
  foreignTrail : t.lead.foreign = [] → ∀ c w, t.trail.foreign = c :: w →
    (∀ e, Tree.ofSource t.strip = .error e → e.problem = .endOfInput) →
    compileSource t d
      = .error (.parse (.unexpected (.foreign t (t.lead ++ t.strip ++ t.trail.blanks) c)))
  foreignLead : ∀ c w, t.lead.foreign = c :: w →
    compileSource t d = .error (.parse (.unexpected (.foreign t t.lead.blanks c)))

section

variable {t : Text} (hne : t.strip ≠ []) (d : Definitions)
include hne

theorem compileSource_moved (hlead : t.lead.foreign = []) (htrail : t.trail.foreign = [])
    (hbare : ¬t.strip.Bare) :
    compileSource t d = (compileSource t.strip d).mapError (CompileError.behind t t.lead) := by
  have hreads := Tree.ofSource_strip hne hlead
  generalize hs : Tree.ofSource t.strip = r, ht : Tree.ofSource t = r' at hreads
  cases hreads with
  | tree => exact compileSource_placed hs ht d
  | error =>
    rw [t.margins] at ht
    rw [compileSource_of_error hs, compileSource_of_error ht]
    rfl
  | bare h => exact absurd h hbare
  | foreign hu => cases hu.symm.trans htrail

theorem compileSource_bare (hlead : t.lead.foreign = []) (htrail : t.trail.foreign = [])
    (hbare : t.strip.Bare) : ∀ s ∈ [t.strip, t],
      compileSource s d = .error (.parse (.unexpected (.ofPlace s .endOfInput 0 .start))) := by
  have hstrip : Tree.ofSource t.strip = .error (.ofPlace t.strip .endOfInput 0 .start) := by
    rw [Tree.ofSource, readFrom_unfinished hbare Stack.complete?_nil]
    rfl
  have hreads := Tree.ofSource_strip hne hlead
  generalize ht : Tree.ofSource t = r' at hreads
  rw [hstrip] at hreads
  cases hreads with
  | error h =>
    rcases h with h | h
    · exact absurd rfl h
    · exact absurd hbare h.2
  | bare =>
    rw [t.margins] at ht
    exact List.forall_mem_cons.2 ⟨compileSource_of_error hstrip d,
      List.forall_mem_singleton.2 (compileSource_of_error ht d)⟩
  | foreign hu => cases hu.symm.trans htrail

theorem compileSource_early (hlead : t.lead.foreign = []) {e : SyntaxError}
    (he : Tree.ofSource t.strip = .error e) (hproblem : e.problem ≠ .endOfInput) :
    compileSource t d = .error (.parse (.unexpected (e.behind t t.lead))) := by
  have hreads := Tree.ofSource_strip hne hlead
  generalize ht : Tree.ofSource t = r' at hreads
  rw [he] at hreads
  cases hreads with
  | error =>
    rw [t.margins] at ht
    exact compileSource_of_error ht d
  | bare => exact absurd rfl hproblem
  | foreign _ hr => exact absurd (hr e rfl) hproblem

theorem compileSource_foreign_trail (hlead : t.lead.foreign = []) {c : CodePoint} {w : Text}
    (htrail : t.trail.foreign = c :: w)
    (he : ∀ e, Tree.ofSource t.strip = .error e → e.problem = .endOfInput) :
    compileSource t d
      = .error (.parse (.unexpected (.foreign t (t.lead ++ t.strip ++ t.trail.blanks) c))) := by
  have hreads := Tree.ofSource_strip hne hlead
  generalize hs : Tree.ofSource t.strip = r, ht : Tree.ofSource t = r' at hreads
  cases hreads with
  | tree hu => cases hu.symm.trans htrail
  | error h =>
    rcases h with h | h
    · exact absurd (he _ hs) h
    · cases h.1.symm.trans htrail
  | bare _ hu => cases hu.symm.trans htrail
  | foreign hu =>
    cases hu.symm.trans htrail
    rw [t.margins] at ht
    exact compileSource_of_error ht d

theorem compilesAs : CompilesAs t d where
  moved := compileSource_moved hne d
  bare := compileSource_bare hne d
  early hlead _ := compileSource_early hne d hlead
  foreignTrail hlead _ _ := compileSource_foreign_trail hne d hlead
  foreignLead _ _ hlead := compileSource_of_error (Tree.ofSource_foreign_lead hlead) d

end

/-! ### Running with and without margins -/

theorem attempt_of_error {source : Text} {d : Definitions} {e : CompileError}
    (h : compileSource source d = .error e) (m : Machine Code) :
    attempt source d m = ⟨.rejected e.message, d, m⟩ := by
  rw [attempt, h]

theorem attempt_of_compileSource_eq {s t : Text} {d : Definitions}
    (h : compileSource t d = compileSource s d) (m : Machine Code) :
    attempt t d m = attempt s d m := by
  rw [attempt, h, attempt]

theorem attempt_success_iff {t : Text} (hne : t.strip ≠ []) (d : Definitions) (m : Machine Code) :
    (attempt t d m).outcome.success = true
      ↔ (attempt t.strip d m).outcome.success = true ∧ t.lead.foreign = []
        ∧ t.trail.foreign = [] := by
  obtain ⟨moved, bare, early, foreignTrail, foreignLead⟩ := compilesAs hne d
  have hrejected : ∀ {s e}, compileSource s d = .error e →
      ¬(attempt s d m).outcome.success = true := by
    intro s e h
    rw [attempt_of_error h]
    exact Bool.false_ne_true
  cases hlead : t.lead.foreign with
  | cons c w =>
    exact iff_of_false (hrejected (foreignLead c w hlead)) fun h => List.cons_ne_nil _ _ h.2.1
  | nil =>
    cases htrail : t.trail.foreign with
    | cons c w =>
      refine iff_of_false ?_ fun h => List.cons_ne_nil _ _ h.2.2
      by_cases he : ∃ e, Tree.ofSource t.strip = .error e ∧ e.problem ≠ .endOfInput
      · obtain ⟨e, he, hproblem⟩ := he
        exact hrejected (early hlead e he hproblem)
      · refine hrejected (foreignTrail hlead c w htrail fun e h => ?_)
        exact not_not.1 fun hproblem => he ⟨e, h, hproblem⟩
    | nil =>
      rw [and_iff_left ⟨rfl, rfl⟩]
      by_cases hbare : t.strip.Bare
      · have hboth := bare hlead htrail hbare
        exact iff_of_false (hrejected (hboth t (by simp))) (hrejected (hboth t.strip (by simp)))
      · have hmoved := moved hlead htrail hbare
        cases hc : compileSource t.strip d with
        | error e =>
          rw [hc] at hmoved
          exact iff_of_false (hrejected hmoved) (hrejected hc)
        | ok r =>
          rw [hc] at hmoved
          rw [attempt_of_compileSource_eq (hmoved.trans hc.symm)]

/-- How a program fares that is loaded and one that is executed, each in a new interaction. -/
structure Interaction.Loads (t : Text) : Prop where
  loaded : (runFresh .standard t (.start .empty)).1
    = .ok (some (attempt t.strip .empty .empty).outcome)
  executed : (execute .standard t (.start .empty)).1 = .ok (attempt t .empty .empty).outcome
  success : (attempt t .empty .empty).outcome.success = true
    ↔ (attempt t.strip .empty .empty).outcome.success = true ∧ t.lead.foreign = []
      ∧ t.trail.foreign = []
  same : t.lead.foreign = [] → t.trail.foreign = [] →
    ∀ r, compileSource t.strip .empty = .ok r →
      attempt t .empty .empty = attempt t.strip .empty .empty
  rejected : CompilesAs t .empty
  /-- Lines and columns are counted in the text that is compiled. -/
  places : ∀ s ∈ [t.strip, t], ∀ e q, compileSource s .empty = .error e →
    e.position? = some q → s.Place q
  moved : t.lead.foreign = [] → t.trail.foreign = [] → ¬t.strip.Bare →
    ∀ e q, compileSource t.strip .empty = .error e → e.position? = some q →
      ∃ e', compileSource t .empty = .error e' ∧ e'.position? = some (q.behind t.lead)
        ∧ (q.behind t.lead = q ↔ ('\n' : CodePoint) ∉ t.lead ∧ (q.line = 1 → t.lead = []))

theorem Interaction.loads {t : Text} (hne : t.strip ≠ []) : Loads t := by
  have hcompiles := compilesAs hne .empty
  have hsource : (Action.runFresh t).source? = some t.strip :=
    if_neg (by rwa [List.isEmpty_iff])
  constructor
  case loaded => exact (act_start hsource).1
  case executed => exact (EngineState.execute_standard t .empty).1
  case success => exact attempt_success_iff hne _ _
  case same =>
    intro hlead htrail r hr
    refine attempt_of_compileSource_eq ?_ _
    by_cases hbare : t.strip.Bare
    · cases hr.symm.trans (hcompiles.bare hlead htrail hbare _ List.mem_cons_self)
    · rw [hcompiles.moved hlead htrail hbare, hr]
      rfl
  case rejected => exact hcompiles
  case places => exact fun s _ e q => compileSource_place
  case moved =>
    intro hlead htrail hbare e q he hq
    refine ⟨e.behind t t.lead, ?_, ?_, Position.behind_eq_self_iff _ ?_⟩
    · rw [hcompiles.moved hlead htrail hbare, he]
      rfl
    · rw [CompileError.position?_behind, hq]
      rfl
    · exact (compileSource_place he hq).counted

theorem Interaction.loads_below_empty_line :
    ("\n x" : Text).strip ≠ [] ∧ Loads "\n x" :=
  ⟨by decide, loads (by decide)⟩

end Toplevel
