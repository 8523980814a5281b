import Toplevel.Proofs.Code.Confined
import Toplevel.Proofs.Interaction.Numbering
import Toplevel.Proofs.Syntax.Rendering

/-!
# What the code of a session may name

Whatever a session has compiled before, the text that it gives out for the next source is read by
the host as the expression that the code is, and its statements are confined to helpers and to the
definitions that the session knows (`compiled_code_confined`).
-/

namespace Toplevel

open Session

/-- The text of compiled code, as the host reads it: nothing in the source can add to the names that
it has from the session, the members of the helpers and the operators of the program. -/
theorem compiled_code_confined (machine : Machine Code) (log : List LogRecord) (cs : List Call)
    (source : Text) (code : Compiled)
    (h : (((EngineState.calls cs ⟨.empty, machine, log⟩).call (.process source)).2.call .output).1
      = .ok (.code code)) :
    let known := (EngineState.calls cs ⟨.empty, machine, log⟩).session.definitions.bindings.map
      fun b => b.2.text
    let taken := (targets (EngineState.trace ⟨.empty, machine, log⟩ cs)).map Global.text
    ∃ p, parse source = .ok p ∧ code.text.hostExpr? = some code.host
      ∧ HostExpr.AllConfined known taken p.statements code.host.statements := by
  have htracks := tracks machine log cs
  generalize EngineState.calls cs ⟨.empty, machine, log⟩ = now at h htracks
  generalize EngineState.trace ⟨.empty, machine, log⟩ cs = past at htracks
  obtain ⟨d, hc⟩ := EngineState.compileSource_of_output h
  have hnonempty := (compileSource_named hc).nonempty
  rw [htracks.definitions] at hc ⊢
  obtain ⟨p, hp, hall⟩ := exists_compileAll hc
  have hnamed := (parse_named hp).statements
  refine ⟨p, hp, code.hostExpr?_text hnonempty (compileAll_legible hall hnamed), ?_⟩
  rw [code.statements_host]
  refine compileAll_confined hall htracks.numbered hnamed (fun b hb => List.mem_map_of_mem hb)
    (fun x hx => ?_) fun x hx => ?_
  · obtain ⟨b, -, rfl⟩ := List.mem_map.1 hx
    exact ⟨b.2, rfl⟩
  · obtain ⟨g, hg, rfl⟩ := List.mem_map.1 hx
    exact ⟨g, by rwa [htracks.scope_eq, List.mem_reverse], rfl⟩

/-- A second definition of a name, which refers to itself: the first one is known, and the new name
is another. -/
theorem compiled_code_confined_recursive :
    ∃ now, now = EngineState.calls [.process "let x = true"] ⟨.empty, .empty, []⟩
      ∧ ((now.call (.process "let rec x = x")).2.call .output).1
        = .ok (.code ⟨[.define ⟨2, "x"⟩ (.globalVar ⟨2, "x"⟩)]⟩)
      ∧ ∃ p, parse "let rec x = x" = .ok p
        ∧ (Compiled.text ⟨[.define ⟨2, "x"⟩ (.globalVar ⟨2, "x"⟩)]⟩).hostExpr?
          = some (.call (.name "_define") [.string "g2_x", .name "g2_x"])
        ∧ HostExpr.AllConfined ["g1_x"] ["g1_x"] p.statements
          [.call (.name "_define") [.string "g2_x", .name "g2_x"]] := by
  have hfirst : Session.empty.process "let x = true"
      = (true, ⟨(Definitions.empty.define "x").1,
        .compiled ⟨[.define ⟨1, "x"⟩ (.bool true)]⟩⟩) := by
    rw [Session.process, compileSource, eq_of_isDefinitionAsTrue parse_definitions_of_x.1]
    rfl
  obtain ⟨p, hp⟩ := eq_of_isDefinitionAsItself parse_definitions_of_x.2
  have hall := compiled_code_confined .empty [] [.process "let x = true"] "let rec x = x"
    ⟨[.define ⟨2, "x"⟩ (.globalVar ⟨2, "x"⟩)]⟩
  refine ⟨_, rfl, ?_⟩
  have hcall := EngineState.call_process ⟨.empty, .empty, []⟩ "let x = true"
  have hsession : (EngineState.calls [.process "let x = true"] ⟨.empty, .empty, []⟩).session
      = ⟨(Definitions.empty.define "x").1, .compiled ⟨[.define ⟨1, "x"⟩ (.bool true)]⟩⟩ := by
    rw [EngineState.calls, List.foldl_cons, List.foldl_nil, hcall.2, hfirst]
  have htargets : targets (EngineState.trace ⟨.empty, .empty, []⟩ [.process "let x = true"])
      = [⟨1, "x"⟩] := by
    rw [EngineState.trace, EngineState.trace, hcall.1, hcall.2, hfirst]
    rfl
  generalize EngineState.calls [.process "let x = true"] ⟨.empty, .empty, []⟩ = now
    at hall hsession ⊢
  have houtput : ((now.call (.process "let rec x = x")).2.call .output).1
      = .ok (.code ⟨[.define ⟨2, "x"⟩ (.globalVar ⟨2, "x"⟩)]⟩) := by
    rw [EngineState.call_output, (now.call_process _).2, hsession, Session.process,
      compileSource, hp]
    rfl
  obtain ⟨q, hq, htext, hconfined⟩ := hall houtput
  rw [hsession, htargets] at hconfined
  exact ⟨houtput, q, hq, htext, hconfined⟩

end Toplevel
