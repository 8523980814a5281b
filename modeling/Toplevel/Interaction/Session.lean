import Toplevel.Code.Compile

/-!
# Sessions

A session compiles one source after another. The definitions of a source that compiles are visible
to the next ones; a source that does not compile leaves them as they were. The session remembers
what became of the last source.
-/

namespace Toplevel

/-- What became of the last source. -/
inductive Verdict where
  | none
  | compiled (code : Compiled)
  | rejected (e : CompileError)

/-- A question to a session about a verdict that it does not have. -/
inductive SessionError where
  | noOutput
  | noError
deriving DecidableEq

def SessionError.message : SessionError → Text
  | noOutput => "No compiled output, last process() did not succeed"
  | noError => "No compile error, last process() did not fail"

structure Session where
  definitions : Definitions
  verdict : Verdict

namespace Session

def empty : Session := ⟨.empty, .none⟩

/-- Compiles a source against the definitions so far. -/
def process (s : Session) (source : Text) : Bool × Session :=
  match compileSource source s.definitions with
  | .ok (code, definitions) => (true, ⟨definitions, .compiled code⟩)
  | .error e => (false, ⟨s.definitions, .rejected e⟩)

theorem process_of_ok {s : Session} {source : Text} {code : Compiled} {d : Definitions}
    (h : compileSource source s.definitions = .ok (code, d)) :
    s.process source = (true, ⟨d, .compiled code⟩) := by
  rw [process, h]

theorem process_of_error {s : Session} {source : Text} {e : CompileError}
    (h : compileSource source s.definitions = .error e) :
    s.process source = (false, ⟨s.definitions, .rejected e⟩) := by
  rw [process, h]

/-- The code of the last source. -/
def output (s : Session) : Except SessionError Compiled :=
  match s.verdict with
  | .compiled code => .ok code
  | _ => .error .noOutput

/-- What was wrong with the last source. -/
def error (s : Session) : Except SessionError Text :=
  match s.verdict with
  | .rejected e => .ok e.message
  | _ => .error .noError

end Session

end Toplevel
