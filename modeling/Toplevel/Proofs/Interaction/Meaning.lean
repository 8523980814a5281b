import Toplevel.Proofs.Eval.Correctness
import Toplevel.Proofs.Interaction.Actions
import Toplevel.Proofs.Interaction.Numbering
import Toplevel.Proofs.Syntax.Rendering

/-!
# Sources mean what they are compiled to

When a session compiles a source, the code it gives out does what the program means in the scope of
the definitions that the session has met (`compiled_as_meant`): on every machine, and with room for
any number of calls, code and program come to the same end.
-/

namespace Toplevel

open Link

/-- What a machine holds for code, in place of what another holds for programs. -/
def Machine.Presents (m' : Machine Code) (m : Machine Body) : Prop := Link.compiled.Machines m m'

/-- Every machine presents one on which all functions are the host's. -/
def Machine.hosted (m : Machine Code) : Machine Body := ⟨m.heap.mapBody .host, m.globals⟩

theorem Machine.presents_hosted (m : Machine Code) : m.Presents m.hosted := by
  have hheaps := Heaps.mapBody (L := Link.compiled) (f := Body.host) (g := id) rfl
    (fun _ _ env => ⟨rfl, (Members.rename_id env).symm, rfl⟩) m.heap
  rw [Heap.mapBody_id] at hheaps
  exact ⟨hheaps, rfl⟩

/-- The ends of a program and of its code. -/
structure Run.Agree (r : Except Fault Value × Machine Body)
    (r' : Except Fault Value × Machine Code) : Prop where
  value : r'.1 = r.1
  shown : Run.outcome r' = Run.outcome r
  targets : ∀ a t, r'.2.heap.get? a = some (.ref t) ↔ r.2.heap.get? a = some (.ref t)
  globals : r'.2.globals = r.2.globals
  machines : r'.2.Presents r.2

theorem Link.Heaps.get?_ref_iff {h : Heap Body} {h' : Heap Code} (H : Link.compiled.Heaps h h')
    (a : Nat) (t : Value) : h'.get? a = some (.ref t) ↔ h.get? a = some (.ref t) := by
  have hplace : Link.compiled.place a = a := rfl
  rcases H.get?_cases a with ⟨h1, h2⟩ | ⟨o, o', h1, h2, ho⟩ <;> rw [hplace] at h2 <;> rw [h1, h2]
  · simp
  · cases ho with
    | ref target =>
      rw [show target.rename Link.compiled.place = target from target.rename_id]
      simp
    | _ => simp

theorem Link.Results.agree {r : Except Fault Value × Machine Body}
    {r' : Except Fault Value × Machine Code} (h : Link.compiled.Results Link.compiled.values r r') :
    Run.Agree r r' := by
  cases h with
  | @done v _ m m' hv hm =>
    subst hv
    have hid : v.rename Link.compiled.place = v := v.rename_id
    refine ⟨by rw [hid], ?_, hm.heaps.get?_ref_iff, hm.globals, hm⟩
    simp only [Run.outcome, Heap.display_rename hm.heaps]
  | failed hm => exact ⟨rfl, rfl, hm.heaps.get?_ref_iff, hm.globals, hm⟩
  | excused he => exact he.elim

/-- The code of a program does what the program means. -/
theorem Program.compile?_agree {scope : Scope} {p : Program} {code : Compiled} {d : Definitions}
    (h : p.compile? scope.definitions = .ok (code, d)) (calls : Nat) {m : Machine Code}
    {m' : Machine Body} (hm : m.Presents m') :
    Run.Agree (p.interpret calls scope m') (code.eval calls m) := by
  exact (interpretAll_sim calls p.statements (Program.compile?_eq_ok_iff.1 h) m' m hm).agree

open Session

theorem compiled_as_meant (machine : Machine Code) (log : List LogRecord) (cs : List Call)
    (source : Text) (code : Compiled)
    (h : (((EngineState.calls cs ⟨.empty, machine, log⟩).call (.process source)).2.call .output).1
      = .ok (.code code)) :
    ∃ p, parse source = .ok p ∧ ∀ m : Machine Code, (∃ m', m.Presents m') ∧ ∀ m', m.Presents m' →
      let meant := fun calls =>
        p.interpret calls (scope (EngineState.trace ⟨.empty, machine, log⟩ cs)) m'
      (∀ calls, Run.Agree (meant calls) (code.eval calls m))
        ∧ (code.nesting < maxBrackets → Run.Agree (meant maxCalls) (code.evaluate m)) := by
  have htracks := tracks machine log cs
  generalize EngineState.calls cs ⟨.empty, machine, log⟩ = now at h htracks
  generalize EngineState.trace ⟨.empty, machine, log⟩ cs = past at htracks
  obtain ⟨d, hc⟩ := EngineState.compileSource_of_output h
  rw [htracks.definitions] at hc
  obtain ⟨p, hparse, hcompile, -⟩ := compileSource_scope hc
  refine ⟨p, hparse, fun m => ⟨⟨_, m.presents_hosted⟩, fun m' hm => ⟨fun calls =>
    Program.compile?_agree hcompile calls hm, fun hnesting => ?_⟩⟩⟩
  have hroom : ¬maxBrackets < code.nesting + 1 := by omega
  rw [Compiled.evaluate, if_neg hroom]
  exact Program.compile?_agree hcompile maxCalls hm

theorem output_of_definition_as_itself :
    (((EngineState.calls [] ⟨.empty, .empty, []⟩).call (.process "let rec x = x")).2.call .output).1
      = .ok (.code ⟨[.define ⟨1, "x"⟩ (.globalVar ⟨1, "x"⟩)]⟩) := by
  obtain ⟨p, hp⟩ := eq_of_isDefinitionAsItself parse_definitions_of_x.2
  rw [EngineState.call_output, (EngineState.call_process _ _).2, process, compileSource, hp]
  rfl

/-- A recursive definition reads itself, where its own value is not there yet. -/
theorem compiled_as_meant_recursive :
    (((EngineState.calls [] ⟨.empty, .empty, []⟩).call (.process "let rec x = x")).2.call .output).1
        = .ok (.code ⟨[.define ⟨1, "x"⟩ (.globalVar ⟨1, "x"⟩)]⟩)
      ∧ ∃ p, parse "let rec x = x" = .ok p ∧ ∀ m m', Machine.Presents m m' →
        Run.Agree (p.interpret maxCalls [] m')
          (Compiled.evaluate ⟨[.define ⟨1, "x"⟩ (.globalVar ⟨1, "x"⟩)]⟩ m) := by
  obtain ⟨p, hp, hall⟩ := compiled_as_meant .empty [] [] "let rec x = x" _
    output_of_definition_as_itself
  exact ⟨output_of_definition_as_itself, p, hp,
    fun m m' hm => ((hall m).2 m' hm).2 (by decide)⟩

end Toplevel
