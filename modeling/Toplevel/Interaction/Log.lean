import Toplevel.Text.Basic

/-!
# Log records

What happens during an interaction beside what it shows. Each record names the part of the program
that it comes from; all of them are of the lowest level.
-/

namespace Toplevel

inductive LogRecord where
  | evaluating (length : Nat)
  | rejected (reason : Text)
  | compileFailed (reason : Text)
  | compilerRaised
  | evaluationFailed (reason : Text)
  | reset
  | initialized
  | loading (path : Text)
deriving DecidableEq

namespace LogRecord

def message : LogRecord → Text
  | evaluating n =>
    Text.concat ["mlrepl._session: Evaluating ", Text.ofNat n, " characters of compiled code"]
  | rejected reason => Text.concat ["mlrepl._compile: Rejected source: ", reason.firstLine]
  | compileFailed reason => Text.concat ["mlrepl._driver: Compile failed: ", reason]
  | compilerRaised => "mlrepl._driver: Compiler raised while processing input"
  | evaluationFailed reason => Text.concat ["mlrepl._driver: Evaluation failed: ", reason]
  | reset => "mlrepl._driver: Compiler session reset for full recompile"
  | initialized => "mlrepl.repl: Initialized REPL"
  | loading path => Text.concat ["mlrepl.repl: Loading ", path]

def text (r : LogRecord) : Text := Text.concat ["DEBUG ", r.message, "\n"]

end LogRecord

end Toplevel
