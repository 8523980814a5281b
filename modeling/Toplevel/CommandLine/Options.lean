import Toplevel.Text.Digits
import Toplevel.Text.Quoted

/-!
# Options

The arguments of the program are read in two passes. The first tells operands from options: an
option may be shortened as long as it can still be told from the others, and may carry a value
behind an equals sign; what follows two dashes are operands. The second pass takes options and
operands from left to right; the first operand is the source, and what nothing takes is reported at
the end.

A value that is two dashes, behind an equals sign, is no value at all: it leaves the level without
one.
-/

namespace Toplevel

inductive Level where
  | debug
  | info
  | warning
  | error
deriving DecidableEq

namespace Level

def all : List Level := [debug, info, warning, error]

def name : Level → Text
  | debug => "debug"
  | info => "info"
  | warning => "warning"
  | error => "error"

end Level

/-- What the arguments of the program ask for. There is no level if the last one given was no
value. -/
structure Options where
  source : Option Text
  text : Bool
  outline : Bool
  positions : Bool
  compile : Bool
  evaluate : Bool
  plain : Bool
  level : Option Level
deriving DecidableEq

def Options.default : Options := ⟨none, false, false, false, false, false, false, some .warning⟩

inductive Switch where
  | help
  | text
  | outline
  | positions
  | compile
  | evaluate
  | plain
  | level
deriving DecidableEq

namespace Switch

def all : List Switch := [help, text, outline, positions, compile, evaluate, plain, level]

def names : Switch → List Text
  | help => ["-h", "--help"]
  | text => ["--text"]
  | outline => ["--lark"]
  | positions => ["--pos"]
  | compile => ["--compile"]
  | evaluate => ["--eval"]
  | plain => ["--no-color"]
  | level => ["--log-level"]

def title (s : Switch) : Text := Text.join "/" s.names

def table : List (Text × Switch) := all.flatMap fun s => s.names.map fun n => (n, s)

end Switch

inductive UsageError where
  | ambiguous (argument : Text) (candidates : List Text)
  | ignoredValue (s : Switch) (value : Text)
  | missingValue (s : Switch)
  | invalidLevel (value : Text)
  | unrecognized (arguments : List Text)
  | textWithoutSource
  | severalModes
  | modeWithoutSource
deriving DecidableEq

namespace UsageError

def aboutSwitch (s : Switch) (what : Text) : Text :=
  Text.concat ["argument ", s.title, ": ", what]

def message : UsageError → Text
  | ambiguous argument candidates =>
    Text.concat ["ambiguous option: ", argument, " could match ", Text.join ", " candidates]
  | ignoredValue s value =>
    aboutSwitch s (Text.concat ["ignored explicit argument ", value.quoted])
  | missingValue s => aboutSwitch s "expected one argument"
  | invalidLevel value =>
    aboutSwitch .level
      (Text.concat
        ["invalid choice: ", value.quoted, " (choose from ",
          Text.join ", " (Level.all.map fun l => l.name.quoted), ")"])
  | unrecognized arguments =>
    Text.concat ["unrecognized arguments: ", Text.join " " arguments]
  | textWithoutSource => "--text requires program text"
  | severalModes => "--lark, --compile and --eval cannot be combined"
  | modeWithoutSource => "an output mode needs a source"

end UsageError

/-! ### Telling options from operands -/

inductive Argument where
  | operand (t : Text)
  | separator
  /-- A switch by one of its names, with what stands behind the name in the same argument. -/
  | option (s : Switch) (name : Text) (value : Option Text)
  | unknown (t : Text)
deriving DecidableEq

namespace Argument

def withoutLineFeed (t : Text) : Text :=
  if t.getLast? = some ('\n' : CodePoint) then t.dropLast else t

/-- A dash and a number, with or without digits after a point; a line feed may end it. -/
def isNegativeNumber (t : Text) : Bool :=
  match withoutLineFeed t with
  | [] => false
  | c :: t =>
    let (whole, fraction) := Text.cut '.' t
    c = ('-' : CodePoint) && whole.all CodePoint.isDecimal
      && match fraction with
        | none => !whole.isEmpty
        | some f => !f.isEmpty && f.all CodePoint.isDecimal

/-- The options that a long argument may be short for; it may end before an equals sign. -/
def longCandidates (t : Text) : List (Text × Argument) :=
  let (name, value) := Text.cut '=' t
  (Switch.table.filter fun e => name.isPrefixOf e.1).map fun e => (e.1, option e.2 e.1 value)

/-- The options that an argument with a single dash may be: a short name with more behind it, or
the start of a name. -/
def shortCandidates (t : Text) : List (Text × Argument) :=
  Switch.table.filterMap fun e =>
    if e.1 = t.take 2 then some (e.1, option e.2 e.1 (some (t.drop 2)))
    else if t.isPrefixOf e.1 then some (e.1, option e.2 e.1 none)
    else none

def candidates (t : Text) : List (Text × Argument) :=
  if (t.drop 1).head? = some ('-' : CodePoint) then longCandidates t else shortCandidates t

/-- The option that an argument names in full, with its value if it has one. -/
def inFull? (t : Text) : Option Argument :=
  match Switch.table.lookup t with
  | some s => some (option s t none)
  | none =>
    match Text.cut '=' t with
    | (name, some value) => (Switch.table.lookup name).map fun s => option s name (some value)
    | (_, none) => none

def ofText (t : Text) : Except UsageError Argument :=
  if t.head? ≠ some ('-' : CodePoint) || t.length = 1 then .ok (operand t)
  else
    match inFull? t with
    | some a => .ok a
    | none =>
      match candidates t with
      | [(_, a)] => .ok a
      | [] =>
        if isNegativeNumber t || t.contains (' ' : CodePoint) then .ok (operand t)
        else .ok (unknown t)
      | cs => .error (.ambiguous t (cs.map Prod.fst))

/-- Every argument; behind two dashes all of them are operands. -/
def ofTexts : List Text → Except UsageError (List Argument)
  | [] => .ok []
  | t :: ts =>
    if t = ("--" : Text) then .ok (separator :: ts.map operand)
    else do
      let a ← ofText t
      return a :: (← ofTexts ts)

def text : Argument → Text
  | operand t => t
  | separator => "--"
  | option _ name _ => name
  | unknown t => t

def isOption : Argument → Bool
  | option .. | unknown _ => true
  | _ => false

end Argument

/-! ### Taking them -/

inductive Refusal where
  | help
  | usage (e : UsageError)
deriving DecidableEq

/-- The options read so far, and the arguments that nothing took. -/
structure Reading where
  options : Options
  extras : List Text

namespace Reading

def start : Reading := ⟨.default, []⟩

def addExtras (r : Reading) (ts : List Text) : Reading := { r with extras := r.extras ++ ts }

def setSource (r : Reading) (t : Text) : Reading :=
  { r with options := { r.options with source := some t } }

def setSwitch (r : Reading) : Switch → Except Refusal Reading
  | .help => .error .help
  | .text => .ok { r with options := { r.options with text := true } }
  | .outline => .ok { r with options := { r.options with outline := true } }
  | .positions => .ok { r with options := { r.options with positions := true } }
  | .compile => .ok { r with options := { r.options with compile := true } }
  | .evaluate => .ok { r with options := { r.options with evaluate := true } }
  | .plain => .ok { r with options := { r.options with plain := true } }
  | .level => .error (.usage (.missingValue .level))

def setLevel (r : Reading) (value : Text) : Except Refusal Reading :=
  if value = ("--" : Text) then .ok { r with options := { r.options with level := none } }
  else
    match Level.all.find? fun l => l.name = value with
    | some l => .ok { r with options := { r.options with level := some l } }
    | none => .error (.usage (.invalidLevel value))

/-- What the characters behind a short name come to: each is a short name again, or the rest is a
value that nothing takes. Only the switch for help has a short name. -/
def refuseTail : Text → Refusal
  | [] => .help
  | c :: t =>
    if c = ('h' : CodePoint) then refuseTail t else .usage (.ignoredValue .help (c :: t))

/-- What a value comes to that stands behind the name of a switch without one. -/
def refuseValue (s : Switch) (name value : Text) : Refusal :=
  if name.length = 2 && !value.isEmpty then refuseTail value else .usage (.ignoredValue s value)

/-- Takes the arguments behind the last option. -/
def finish (r : Reading) (as : List Argument) : Reading :=
  if r.options.source.isSome then r.addExtras (as.map Argument.text)
  else
    match as with
    | .separator :: .operand t :: as => (r.setSource t).addExtras (as.map Argument.text)
    | .operand t :: .separator :: as => (r.setSource t).addExtras (as.map Argument.text)
    | .operand t :: as => (r.setSource t).addExtras (as.map Argument.text)
    | _ => r

def take (r : Reading) : List Argument → Except Refusal Reading
  | [] => .ok r
  | .unknown t :: as => take (r.addExtras [t]) as
  | .option .level _ (some value) :: as => do
    take (← r.setLevel value) as
  | .option .level _ none :: .operand value :: as => do
    take (← r.setLevel value) as
  | .option s name (some value) :: _ => .error (refuseValue s name value)
  | .option s _ none :: as => do
    take (← r.setSwitch s) as
  | .operand t :: as =>
    if as.any Argument.isOption then
      take (if r.options.source.isSome then r.addExtras [t] else r.setSource t) as
    else .ok (r.finish (.operand t :: as))
  | .separator :: as => .ok (r.finish (.separator :: as))

end Reading

def Options.ofArguments (arguments : List Text) : Except Refusal Options :=
  match Argument.ofTexts arguments with
  | .error e => .error (.usage e)
  | .ok as => do
    let r ← Reading.start.take as
    if r.extras.isEmpty then return r.options
    else throw (.usage (.unrecognized r.extras))

/-! ### Help -/

def usageText : Text :=
  Text.concat
    ["usage: mlrepl [-h] [--text] [--lark] [--pos] [--compile] [--eval] [--no-color]\n",
      "              [--log-level \x7bdebug,info,warning,error\x7d]\n",
      "              [source]\n"]

def helpText : Text :=
  Text.concat
    [usageText,
      "\n",
      "Compile, evaluate and print programs interactively\n",
      "\n",
      "positional arguments:\n",
      "  source                Program file to run before the REPL starts\n",
      "\n",
      "options:\n",
      "  -h, --help            show this help message and exit\n",
      "  --text                Treat source as program text instead of a file path\n",
      "  --lark                Show Lark parse tree\n",
      "  --pos                 Show line:column positions in the parse tree\n",
      "  --compile             Show the compiled Python expression\n",
      "  --eval                Evaluate the program and show the result\n",
      "  --no-color            Disable colored output\n",
      "  --log-level \x7bdebug,info,warning,error\x7d\n",
      "                        Logging threshold (default: warning)\n"]

def UsageError.report (e : UsageError) : Text :=
  Text.concat [usageText, "mlrepl: error: ", e.message, "\n"]

end Toplevel
