import Toplevel.Grammar.Production

/-!
# The automaton of the grammar

The LALR(1) automaton, computed from the rules. An item is a rule with a place in its right side;
a state is the set of the items that may have been reached after the symbols read so far, kept as
the items that have read something (the kernel). `cores` explores the states without regard to
what comes next; `lookaheads` then finds, for each kernel item, the tokens that may follow the
phrase when the item is through, by passing them along the moves until nothing is added. No rule
has an empty right side, so what a symbol can start with is a matter of its first symbols alone.

Sets of tokens are numbers: bit zero stands for the end of the source, bit `i + 1` for the
terminal numbered `i`.
-/

namespace Toplevel

/-- A set of what may come next: terminals and the end of the source. -/
abbrev Lookaheads := Nat

namespace Lookaheads

/-- The place of a terminal in a set; the end of the source is `none`. -/
def bit : Option Terminal → Nat
  | none => 0
  | some t => t.ctorIdx + 1

def single (t : Option Terminal) : Lookaheads := 1 <<< bit t

def mem (t : Option Terminal) (s : Lookaheads) : Bool := s.testBit (bit t)

end Lookaheads

namespace Automaton

/-- Repeats `f` until it changes nothing, at most `fuel` times. -/
def settle {α : Type} [DecidableEq α] (f : α → α) : Nat → α → α
  | 0, x => x
  | fuel + 1, x =>
    let y := f x
    if y = x then x else settle f fuel y

/-! ### What a phrase starts with -/

/-- What each phrase can start with, as far as known. -/
abbrev Starts := List Lookaheads

def Starts.ofSymbol (starts : Starts) : Symbol → Lookaheads
  | .terminal t => Lookaheads.single (some t)
  | .nonterminal n => starts.getD n.ctorIdx 0

/-- One round over the rules: a phrase starts with what its rules' right sides start with. -/
def Starts.grow (starts : Starts) : Starts :=
  Production.all.foldl
    (fun starts p =>
      match p.rhs with
      | [] => starts
      | s :: _ => starts.modify p.lhs.ctorIdx (· ||| Starts.ofSymbol starts s))
    starts

/-- Every round but the last makes one more phrase complete. -/
def starts : Starts :=
  settle Starts.grow Nonterminal.all.length (Nonterminal.all.map fun _ => 0)

/-! ### What is expected where a phrase is expected -/

/-- How a phrase comes to be expected where another one is: what may follow it of its own, and
whether what follows the other may follow it too. -/
structure Expected where
  follow : Lookaheads
  inherits : Bool
deriving DecidableEq

/-- The phrases expected at a place, by number. -/
abbrev Expectation := List (Option Expected)

def Expected.join (a b : Expected) : Expected := ⟨a.follow ||| b.follow, a.inherits || b.inherits⟩

def Expectation.add (e : Expectation) (n : Nonterminal) (x : Expected) : Expectation :=
  e.modify n.ctorIdx fun
    | none => some x
    | some y => some (y.join x)

/-- One round over the rules: where a phrase is expected, so is the first symbol of its rules. -/
def Expectation.grow (starts : Starts) (e : Expectation) : Expectation :=
  Production.all.foldl
    (fun e p =>
      match e.getD p.lhs.ctorIdx none, p.rhs with
      | some x, [.nonterminal n] => e.add n x
      | some _, .nonterminal n :: s :: _ => e.add n ⟨starts.ofSymbol s, false⟩
      | _, _ => e)
    e

def expectation (starts : Starts) (n : Nonterminal) : Expectation :=
  settle (Expectation.grow starts) Nonterminal.all.length
    (Expectation.add (Nonterminal.all.map fun _ => none) n ⟨0, true⟩)

/-- What the construction looks up about each phrase, by number. -/
structure Phrases where
  starts : Starts
  expectations : List Expectation

def phrases : Phrases where
  starts := starts
  expectations := Nonterminal.all.map (expectation starts)

variable (ph : Phrases)

def Phrases.expectation (n : Nonterminal) : Expectation := ph.expectations.getD n.ctorIdx []

/-! ### Items and states -/

/-- A rule and how many symbols of its right side have been read. -/
structure Item where
  production : Production
  dot : Nat
deriving DecidableEq

namespace Item

def next? (i : Item) : Option Symbol := i.production.rhs[i.dot]?

def advance (i : Item) : Item := { i with dot := i.dot + 1 }

def afterNext? (i : Item) : Option Symbol := i.production.rhs[i.dot + 1]?

def le (i j : Item) : Bool :=
  i.production.ctorIdx < j.production.ctorIdx
    || (i.production.ctorIdx == j.production.ctorIdx && i.dot ≤ j.dot)

def insert (i : Item) : List Item → List Item
  | [] => [i]
  | j :: js => if i = j then j :: js else if i.le j then i :: j :: js else j :: insert i js

end Item

def startable (i : Item) : List Production :=
  match i.next? with
  | some (.nonterminal n) =>
    let expected := ph.expectation n
    Production.all.filter fun p => (expected.getD p.lhs.ctorIdx none).isSome
  | _ => []

/-- All items of the state with the kernel `kernel`. -/
def itemsOf (kernel : List Item) : List Item :=
  kernel ++ ((kernel.flatMap (startable ph)).eraseDups.map fun p => ⟨p, 0⟩)

/-- The kernels to which a state moves, each with the symbol read. -/
def movesOf (kernel : List Item) : List (Symbol × List Item) :=
  (itemsOf ph kernel).foldl
    (fun moves i =>
      match i.next? with
      | none => moves
      | some s =>
        if moves.any (·.1 = s) then
          moves.map fun m => if m.1 = s then (s, i.advance.insert m.2) else m
        else moves ++ [(s, [i.advance])])
    []

/-- A state: its kernel, and for each symbol that may be read the number of the next state. -/
structure Core where
  kernel : List Item
  moves : List (Symbol × Nat)
deriving DecidableEq

/-- Numbers the kernels reached from one state, new ones at the end of `known`. -/
def number (known : List (List Item)) :
    List (Symbol × List Item) → List (List Item) × List (Symbol × Nat)
  | [] => (known, [])
  | (s, kernel) :: rest =>
    match known.findIdx? (· = kernel) with
    | some k =>
      let (known', moves) := number known rest
      (known', (s, k) :: moves)
    | none =>
      let (known', moves) := number (known ++ [kernel]) rest
      (known', (s, known.length) :: moves)

/-- Visits the known states in turn, from the one numbered `i` on. -/
def explore : Nat → Nat → List (List Item) → List Core
  | 0, _, _ => []
  | fuel + 1, i, known =>
    match known[i]? with
    | none => []
    | some kernel =>
      let (known, moves) := number known (movesOf ph kernel)
      ⟨kernel, moves⟩ :: explore fuel (i + 1) known

/-- The states; the first is the one before the first token. -/
def cores : List Core := explore ph 200 0 [[⟨.program, 0⟩]]

/-! ### Lookaheads -/

/-- For each state, what may follow each of its kernel items. -/
abbrev Follows := List (List Lookaheads)

/-- What may follow the rules of each phrase started in a state. -/
def startFollows (kernel : List Item) (follows : List Lookaheads) : List Lookaheads :=
  (kernel.zip follows).foldl
    (fun acc (i, after) =>
      match i.next? with
      | some (.nonterminal n) =>
        let after := match i.afterNext? with
          | none => after
          | some s => ph.starts.ofSymbol s
        List.zipWith
          (fun old e => match e with
            | none => old
            | some x => old ||| x.follow ||| (if x.inherits then after else 0))
          acc (ph.expectation n)
      | _ => acc)
    (Nonterminal.all.map fun _ => 0)

/-- What may follow the kernel items of the state that is reached by reading `s`. -/
def passed (kernel : List Item) (follows started : List Lookaheads) (target : List Item) :
    List Lookaheads :=
  target.map fun i =>
    if i.dot = 1 then
      started.getD i.production.lhs.ctorIdx 0
        ||| (((kernel.zip follows).find? fun k => k.1.advance = i).map (·.2)).getD 0
    else (((kernel.zip follows).find? fun k => k.1.advance = i).map (·.2)).getD 0

/-- Passes what follows the items of one state on to the states it moves to. -/
def passOn (cores : List Core) (all : Follows) (i : Nat) (core : Core) : Follows :=
  let follows := all.getD i []
  let started := startFollows ph core.kernel follows
  core.moves.foldl
    (fun all (_, k) =>
      let news := passed core.kernel follows started ((cores[k]?.map (·.kernel)).getD [])
      all.modify k fun olds => List.zipWith (· ||| ·) olds news)
    all

def sweep (cores : List Core) (all : Follows) : Follows :=
  cores.zipIdx.foldl (fun all (core, i) => passOn ph cores all i core) all

/-- Nothing but the end of the source follows a program; all else follows by sweeps. -/
def lookaheads (cores : List Core) : Follows :=
  settle (sweep ph cores) cores.length
    (cores.zipIdx.map fun (core, i) =>
      core.kernel.map fun _ => if i = 0 then Lookaheads.single none else 0)

end Automaton

/-- What to do in a state: the moves over symbols, and the rules that may be complete, each with
what may come next then. -/
structure State where
  moves : List (Symbol × Nat)
  complete : List (Production × Lookaheads)

namespace State

def move? (q : State) (s : Symbol) : Option Nat := q.moves.lookup s

/-- The rule that is complete if `t` comes next. -/
def reduce? (q : State) (t : Option Terminal) : Option Production :=
  (q.complete.find? fun r => r.2.mem t).map (·.1)

/-- Whether something can be done in the state if `t` comes next. -/
def accepts (q : State) (t : Terminal) : Bool :=
  (q.move? (.terminal t)).isSome || (q.reduce? (some t)).isSome

end State

namespace Automaton

def Core.state (core : Core) (follows : List Lookaheads) : State where
  moves := core.moves
  complete := (core.kernel.zip follows).filterMap fun (i, after) =>
    if i.next? = none then some (i.production, after) else none

def states : Array State :=
  (List.zipWith Core.state (cores phrases) (lookaheads phrases (cores phrases))).toArray

def state (i : Nat) : State := states.getD i ⟨[], []⟩

end Automaton

end Toplevel
