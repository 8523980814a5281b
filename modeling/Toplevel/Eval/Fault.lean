import Toplevel.Code.Basic
import Toplevel.Value.Display

/-!
# Faults

What can go wrong while a program is evaluated or its value displayed. A fault has a kind, which
classes it, and a detail, which may be empty; its description is what is shown.
-/

namespace Toplevel

inductive Fault where
  | notConcatenable (right : Text)
  | unsupportedOperands (op : Operator) (left right : Text)
  | notRepeatable (count : Text)
  | notOrdered (op : Operator) (left right : Text)
  | notNegatable (operand : Text)
  | notReal (operand : Text)
  | notCallable (func : Text)
  | fieldOfOther (name : Text)
  | missingField (name : Text)
  | updateOfOther
  | derefOfOther
  | assignToOther
  | noArm (tag : Text)
  | matchOfOther
  | undefined (name : Text)
  | floatDivisionByZero
  | divisionByZero
  | remainderUndefined
  | tooLargeForFloat
  | quotientTooLarge
  | countTooLarge
  | textTooLong
  | outOfMemory
  | tooManyDigits
  | tooDeep
  | tooManyBrackets
  /-- A fault that a collaborator reports in words of its own. -/
  | reported (kind detail : Text)
deriving DecidableEq

namespace Fault

def ofDisplayError : DisplayError → Fault
  | .tooManyDigits => tooManyDigits
  | .tooDeep => tooDeep

def kind : Fault → Text
  | notConcatenable _ | unsupportedOperands .. | notRepeatable _ | notOrdered .. => "TypeError"
  | notNegatable _ | notReal _ | notCallable _ => "TypeError"
  | fieldOfOther _ | missingField _ | updateOfOther | derefOfOther | assignToOther => "TypeError"
  | noArm _ | matchOfOther => "MatchError"
  | undefined _ => "NameError"
  | floatDivisionByZero | divisionByZero => "ZeroDivisionError"
  | remainderUndefined | tooManyDigits => "ValueError"
  | tooLargeForFloat | quotientTooLarge | countTooLarge | textTooLong => "OverflowError"
  | outOfMemory => "MemoryError"
  | tooDeep => "RecursionError"
  | tooManyBrackets => "SyntaxError"
  | reported kind _ => kind

def detail : Fault → Text
  | notConcatenable right =>
    Text.concat ["can only concatenate str (not \"", right, "\") to str"]
  | unsupportedOperands op left right =>
    Text.concat
      ["unsupported operand type(s) for ", op.text, ": '", left, "' and '", right, "'"]
  | notRepeatable count => Text.concat ["can't multiply sequence by non-int of type '", count, "'"]
  | notOrdered op left right =>
    Text.concat
      ["'", op.text, "' not supported between instances of '", left, "' and '", right, "'"]
  | notNegatable operand => Text.concat ["bad operand type for unary -: '", operand, "'"]
  | notReal operand => Text.concat ["must be real number, not ", operand]
  | notCallable func => Text.concat ["'", func, "' object is not callable"]
  | fieldOfOther name => Text.concat ["cannot read field ", name.quoted, " of a non-record value"]
  | missingField name => Text.concat ["record has no field ", name.quoted]
  | updateOfOther => "record update of a non-record value"
  | derefOfOther => "dereference of a non-reference value"
  | assignToOther => "assignment to a non-reference value"
  | noArm tag => Text.concat ["no match arm for tag ", tag]
  | matchOfOther => "match on a non-variant value"
  | undefined name => Text.concat ["name '", name, "' is not defined"]
  | floatDivisionByZero => "float division by zero"
  | divisionByZero => "division by zero"
  | remainderUndefined => "math domain error"
  | tooLargeForFloat => "int too large to convert to float"
  | quotientTooLarge => "integer division result too large for a float"
  | countTooLarge => "cannot fit 'int' into an index-sized integer"
  | textTooLong => "repeated string is too long"
  | outOfMemory => []
  | tooManyDigits =>
    Text.concat
      ["Exceeds the limit (", Text.ofNat maxDigits, " digits) for integer string conversion; ",
        "use sys.set_int_max_str_digits() to increase the limit"]
  | tooDeep => "maximum recursion depth exceeded"
  | tooManyBrackets => "too many nested parentheses (<repl>, line 1)"
  | reported _ detail => detail

/-- The kind, and the detail behind a colon if there is one. -/
def description (f : Fault) : Text :=
  if f.detail.isEmpty then f.kind else Text.concat [f.kind, ": ", f.detail]

end Fault

end Toplevel
