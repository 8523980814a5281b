import Toplevel.Grammar.Automaton
import Toplevel.Grammar.Tree

/-!
# Shifting and reducing

The stack holds a tree for each symbol read so far, with the state of the automaton after it.
`feed?` completes the rules that are through when a token comes next, and then shifts the token;
`complete?` does the same at the end of the source and takes the whole program off the stack.

A reduction checks that the trees on the stack are over the symbols of the rule, so what the stack
holds are derivations whatever the states say. A reduction leaves a shorter stack, or replaces the
top phrase by one that is closer to a whole program; `reduceLimit` bounds how often that can be.
-/

namespace Toplevel

structure Frame where
  state : Nat
  symbol : Symbol
  tree : Tree symbol

/-- The symbols read so far, the last one first. -/
abbrev Stack := List Frame

/-- Trees over the symbols `ss`, if that is what the frames hold. -/
def Forest.ofFrames? : (ss : List Symbol) → List Frame → Option (Forest ss)
  | [], [] => some .nil
  | s :: ss, f :: fs =>
    if h : f.symbol = s then (ofFrames? ss fs).map (.cons (h ▸ f.tree)) else none
  | _, _ => none

namespace Stack

def state (stack : Stack) : State :=
  match stack with
  | [] => Automaton.state 0
  | f :: _ => Automaton.state f.state

/-- Replaces the parts of a rule on top of the stack by the phrase they make up. -/
def reduce? (p : Production) (stack : Stack) : Option Stack := do
  let children ← Forest.ofFrames? p.rhs (stack.take p.rhs.length).reverse
  let below := stack.drop p.rhs.length
  let next ← (state below).move? (.nonterminal p.lhs)
  return ⟨next, .nonterminal p.lhs, .node p children⟩ :: below

/-- Completes rules as long as one is through when `t` comes next. -/
def reduceAll (t : Option Terminal) : Nat → Stack → Stack
  | 0, stack => stack
  | fuel + 1, stack =>
    match (state stack).reduce? t with
    | none => stack
    | some p =>
      match reduce? p stack with
      | none => stack
      | some stack => reduceAll t fuel stack

def reduceLimit (stack : Stack) : Nat := Nonterminal.all.length * (stack.length + 1)

/-- The stack after one more token, if it can come next. -/
def feed? (stack : Stack) (token : Token) : Option Stack :=
  let stack := reduceAll (some token.kind) stack.reduceLimit stack
  ((state stack).move? (.terminal token.kind)).map fun next =>
    ⟨next, .terminal token.kind, .leaf token⟩ :: stack

/-- The whole program, if the source can end here. -/
def complete? (stack : Stack) : Option (Tree (.nonterminal .program)) :=
  let stack := reduceAll none stack.reduceLimit stack
  (Forest.ofFrames? Production.program.rhs stack.reverse).map (.node .program)

end Stack

end Toplevel
