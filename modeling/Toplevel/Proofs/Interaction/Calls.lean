import Toplevel.Interaction.Engine

/-!
# Calls of a session

A session is called in any order: to compile a source, for the code or the complaint of the last
source, and to start over. `Session.Contract` says which calls are answered after a list of others,
and which of the others matter: `Session.contract` proves it of all lists.

What matters of the past is in the definitions alone. A source that does not compile leaves them as
they were, and so such calls can be taken out of a list without a change to the rest
(`trace_thin`).
-/

namespace Toplevel

theorem syntaxErrorAt_ne_nil (p : Position) : syntaxErrorAt p ≠ [] := by
  simp [syntaxErrorAt, Text.concat, Text.ofString, Text.ofChars]

theorem ParseError.message_ne_nil (e : ParseError) : e.message ≠ [] := by
  cases e <;> simp [message, SyntaxError.message, Text.concat, syntaxErrorAt_ne_nil]

theorem CompileError.message_ne_nil (e : CompileError) : e.message ≠ [] := by
  cases e with
  | parse e => exact e.message_ne_nil
  | _ => simp [message, Text.concat, Text.ofString, Text.ofChars]

namespace Session

inductive Call where
  | process (source : Text)
  | output
  | error
  | reset

inductive Reply where
  | verdict (compiled : Bool)
  | code (code : Compiled)
  | reason (reason : Text)
  | done

def Call.isProcess : Call → Bool
  | process _ => true
  | _ => false

/-- What is raised at a question that a session has no answer to. -/
def refusal (e : SessionError) : Raised := .fault (.reported "ValueError" e.message)

/-- A call with its answer and the session behind it. -/
structure Entry where
  call : Call
  answer : Except Raised Reply
  after : Session

namespace Entry

def isFailure (e : Entry) : Bool :=
  match e.answer with
  | .ok (.verdict false) => true
  | _ => false

/-- Whether the last source has compiled, if there is one since the session last started over. -/
def verdict (last : Option Bool) (e : Entry) : Option Bool :=
  match e.call, e.answer with
  | .process _, .ok (.verdict compiled) => some compiled
  | .reset, _ => none
  | _, _ => last

/-- The entries without those of the failures that `drop` names by their positions. -/
def thin (drop : Nat → Bool) : List Entry → List Entry
  | [] => []
  | e :: es =>
    let rest := thin (fun i => drop (i + 1)) es
    if e.isFailure && drop 0 then rest else e :: rest

end Entry

def lastVerdict (es : List Entry) : Option Bool := es.foldl Entry.verdict none

end Session

open Session

namespace EngineState

def call (c : Call) (s : EngineState) : Answer EngineState Reply :=
  match c with
  | .process source =>
    let (answer, s) := Engine.standard.process source s
    (answer.map .verdict, s)
  | .output =>
    let (answer, s) := Engine.standard.output s
    (answer.map .code, s)
  | .error =>
    let (answer, s) := Engine.standard.error s
    (answer.map .reason, s)
  | .reset => (.ok .done, Engine.standard.reset s)

def calls (cs : List Call) (s : EngineState) : EngineState := cs.foldl (fun s c => (s.call c).2) s

/-- What comes of calls, one after another. -/
def trace (s : EngineState) : List Call → List Entry
  | [] => []
  | c :: cs => ⟨c, (s.call c).1, (s.call c).2.session⟩ :: (s.call c).2.trace cs

theorem call_process (s : EngineState) (source : Text) :
    (s.call (.process source)).1 = .ok (.verdict (s.session.process source).1)
      ∧ (s.call (.process source)).2.session = (s.session.process source).2 := by
  simp only [call, Engine.standard, process]
  split <;> exact ⟨rfl, rfl⟩

theorem calls_append (cs ds : List Call) (s : EngineState) :
    s.calls (cs ++ ds) = (s.calls cs).calls ds := List.foldl_append

theorem trace_append (cs ds : List Call) (s : EngineState) :
    s.trace (cs ++ ds) = s.trace cs ++ (s.calls cs).trace ds := by
  induction cs generalizing s with
  | nil => rfl
  | cons c cs ih =>
    simp only [List.cons_append, trace, ih]
    rfl

end EngineState

namespace Session

/-- Whether a session has code or a complaint to show. -/
def standing (s : Session) : Option Bool :=
  match s.verdict with
  | .none => none
  | .compiled _ => some true
  | .rejected _ => some false

theorem process_standing (s : Session) (source : Text) :
    (s.process source).2.standing = some (s.process source).1 := by
  rcases hc : compileSource source s.definitions with e | ⟨code, d⟩
  · rw [process_of_error hc]
    rfl
  · rw [process_of_ok hc]
    rfl

/-- A source is compiled against the definitions; what became of the last one does not matter. -/
theorem process_congr {s s' : Session} (h : s.definitions = s'.definitions) (source : Text) :
    s.process source = s'.process source := by
  simp only [process, h]

theorem process_definitions {s : Session} {source : Text} (h : (s.process source).1 = false) :
    (s.process source).2.definitions = s.definitions := by
  rcases hc : compileSource source s.definitions with e | ⟨code, d⟩
  · rw [process_of_error hc]
  · rw [process_of_ok hc] at h
    cases h

end Session

namespace EngineState

/-- Asking for the code changes nothing, whether there is any or not. -/
theorem call_output (s : EngineState) :
    s.call .output = (match s.session.verdict with
      | .compiled code => .ok (.code code)
      | _ => .error (refusal .noOutput), s) := by
  obtain ⟨⟨definitions, verdict⟩, machine, log⟩ := s
  cases verdict <;> rfl

theorem call_error (s : EngineState) :
    s.call .error = (match s.session.verdict with
      | .rejected e => .ok (.reason e.message)
      | _ => .error (refusal .noError), s) := by
  obtain ⟨⟨definitions, verdict⟩, machine, log⟩ := s
  cases verdict <;> rfl

/-- The code that a session gives out for a source is what the source has compiled to. -/
theorem compileSource_of_output {s : EngineState} {source : Text} {code : Compiled}
    (h : ((s.call (.process source)).2.call .output).1 = .ok (.code code)) :
    ∃ d, compileSource source s.session.definitions = .ok (code, d) := by
  rw [call_output, (s.call_process source).2] at h
  rcases hc : compileSource source s.session.definitions with e | ⟨code', d⟩
  · rw [process_of_error hc] at h
    cases h
  · rw [process_of_ok hc] at h
    cases h
    exact ⟨d, rfl⟩

theorem call_standing (s : EngineState) (c : Call) :
    (s.call c).2.session.standing
      = Entry.verdict s.session.standing ⟨c, (s.call c).1, (s.call c).2.session⟩ := by
  cases c with
  | process source =>
    obtain ⟨h1, h2⟩ := s.call_process source
    rw [h1, h2, process_standing]
    rfl
  | output =>
    rw [call_output]
    rfl
  | error =>
    rw [call_error]
    rfl
  | reset => rfl

theorem foldl_verdict_trace (cs : List Call) (s : EngineState) :
    (s.trace cs).foldl Entry.verdict s.session.standing = (s.calls cs).session.standing := by
  induction cs generalizing s with
  | nil => rfl
  | cons c cs ih =>
    simp only [trace, List.foldl_cons, ← call_standing]
    exact ih _

theorem call_congr {s s' : EngineState} (h : s.session.definitions = s'.session.definitions)
    (source : Text) :
    (s.call (.process source)).1 = (s'.call (.process source)).1
      ∧ (s.call (.process source)).2.session = (s'.call (.process source)).2.session := by
  rw [(s.call_process source).1, (s.call_process source).2, (s'.call_process source).1,
    (s'.call_process source).2, process_congr h]
  exact ⟨rfl, rfl⟩

theorem call_definitions_congr {s s' : EngineState}
    (h : s.session.definitions = s'.session.definitions) (c : Call) :
    (s.call c).2.session.definitions = (s'.call c).2.session.definitions := by
  cases c with
  | process source => rw [(call_congr h source).2]
  | output => rw [call_output, call_output, h]
  | error => rw [call_error, call_error, h]
  | reset => rfl

/-- Only a source can fail to compile, and then the definitions are as before. -/
theorem call_definitions {s : EngineState} {c : Call}
    (h : Entry.isFailure ⟨c, (s.call c).1, (s.call c).2.session⟩ = true) :
    (s.call c).2.session.definitions = s.session.definitions := by
  cases c with
  | process source =>
    obtain ⟨h1, h2⟩ := s.call_process source
    rw [h2]
    refine process_definitions ?_
    rcases hb : (s.session.process source).1 with _ | _
    · rfl
    · rw [h1, hb] at h
      cases h
  | output => rw [call_output]
  | error => rw [call_error]
  | reset => cases h

/-- Failures can be taken out of a list of calls: the sources that remain are compiled as before. -/
theorem trace_thin (cs : List Call) {s s' : EngineState} (drop : Nat → Bool)
    (h : s.session.definitions = s'.session.definitions) :
    (s'.trace ((Entry.thin drop (s.trace cs)).map Entry.call)).filter (·.call.isProcess)
      = (Entry.thin drop (s.trace cs)).filter (·.call.isProcess) := by
  induction cs generalizing s s' drop with
  | nil => rfl
  | cons c cs ih =>
    simp only [trace, Entry.thin]
    split
    · rename_i hdrop
      rw [Bool.and_eq_true] at hdrop
      exact ih _ ((call_definitions hdrop.1).trans h)
    · simp only [List.map_cons, trace]
      have hrest := ih (fun i => drop (i + 1)) (call_definitions_congr h c)
      cases c with
      | process source =>
        rw [List.filter_cons_of_pos rfl, List.filter_cons_of_pos rfl, hrest,
          (call_congr h source).1, (call_congr h source).2]
      | _ =>
        rw [List.filter_cons_of_neg (by simp [Call.isProcess]),
          List.filter_cons_of_neg (by simp [Call.isProcess]), hrest]

/-- The calls of two engines whose sessions are the same are answered alike. -/
theorem trace_congr (cs : List Call) {s s' : EngineState} (h : s.session = s'.session) :
    s.trace cs = s'.trace cs := by
  induction cs generalizing s s' with
  | nil => rfl
  | cons c cs ih =>
    have hcall : (s.call c).1 = (s'.call c).1
        ∧ (s.call c).2.session = (s'.call c).2.session := by
      cases c with
      | process source => exact call_congr (congrArg Session.definitions h) source
      | output => simp only [call_output, h, and_self]
      | error => simp only [call_error, h, and_self]
      | reset => exact ⟨rfl, rfl⟩
    simp only [trace, hcall.1, hcall.2, ih hcall.2]

end EngineState

/-- What holds of a session after some calls: `past` is what came of them. -/
structure Session.Contract (start : EngineState) (past : List Entry) (now : EngineState) :
    Prop where
  process_answers : ∀ source, ∃ compiled, (now.call (.process source)).1 = .ok (.verdict compiled)
  output_answers : (∃ code, (now.call .output).1 = .ok (.code code)) ↔ lastVerdict past = some true
  error_answers : (∃ reason, reason ≠ [] ∧ (now.call .error).1 = .ok (.reason reason))
    ↔ lastVerdict past = some false
  output_refuses : lastVerdict past ≠ some true →
    now.call .output = (.error (refusal .noOutput), now)
  error_refuses : lastVerdict past ≠ some false →
    now.call .error = (.error (refusal .noError), now)
  failure_keeps : ∀ source, (now.call (.process source)).1 = .ok (.verdict false) →
    (now.call (.process source)).2.session.definitions = now.session.definitions
  /-- The other sources get the same answers without the failures, and leave the same session. -/
  failures_erased : ∀ drop,
    (start.trace ((Entry.thin drop past).map Entry.call)).filter (·.call.isProcess)
      = (Entry.thin drop past).filter (·.call.isProcess)
  starts_over : ∀ cs machine log,
    (now.call .reset).2.trace cs = EngineState.trace ⟨.empty, machine, log⟩ cs

theorem Session.contract (machine : Machine Code) (log : List LogRecord) (cs : List Call) :
    Contract ⟨.empty, machine, log⟩ (EngineState.trace ⟨.empty, machine, log⟩ cs)
      (EngineState.calls cs ⟨.empty, machine, log⟩) := by
  let start : EngineState := ⟨.empty, machine, log⟩
  have hlast : lastVerdict (start.trace cs) = (start.calls cs).session.standing :=
    start.foldl_verdict_trace cs
  change Contract start (start.trace cs) (start.calls cs)
  generalize start.calls cs = now at hlast
  refine ⟨fun source => ⟨_, (now.call_process source).1⟩, ?_, ?_, ?_, ?_, fun source h => ?_,
    fun drop => EngineState.trace_thin cs drop rfl, fun cs _ _ => EngineState.trace_congr cs rfl⟩
  · rw [hlast, EngineState.call_output, standing]
    rcases now.session.verdict with _ | code | e <;> simp
  · rw [hlast, EngineState.call_error, standing]
    rcases now.session.verdict with _ | code | e <;> simp [CompileError.message_ne_nil]
  · rw [hlast, EngineState.call_output, standing]
    rcases now.session.verdict with _ | code | e <;> simp
  · rw [hlast, EngineState.call_error, standing]
    rcases now.session.verdict with _ | code | e <;> simp
  · exact EngineState.call_definitions (by rw [h]; rfl)

end Toplevel
