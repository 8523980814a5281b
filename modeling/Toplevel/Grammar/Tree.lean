import Toplevel.Grammar.Production

/-!
# Derivation trees

A tree over a symbol records how the rules write that symbol: a terminal as one token of its
kind, a phrase by a rule with a tree over each symbol on the rule's right. Trees are derivations:
`Derives s ts` says that the tokens `ts` can be written for `s`, and there is nothing to check
about a tree beyond its type. `Tree.fold` computes a meaning from the leaves up.
-/

namespace Toplevel

mutual

inductive Tree : Symbol → Type where
  | leaf (token : Token) : Tree (.terminal token.kind)
  | node (p : Production) (children : Forest p.rhs) : Tree (.nonterminal p.lhs)

inductive Forest : List Symbol → Type where
  | nil : Forest []
  | cons {s : Symbol} {ss : List Symbol} (tree : Tree s) (rest : Forest ss) : Forest (s :: ss)

end

mutual

def Tree.tokens {s : Symbol} : Tree s → List Token
  | .leaf token => [token]
  | .node _ children => children.tokens

def Forest.tokens {ss : List Symbol} : Forest ss → List Token
  | .nil => []
  | .cons tree rest => tree.tokens ++ rest.tokens

end

/-- The tokens `ts` can be written for the symbol `s`. -/
def Derives (s : Symbol) (ts : List Token) : Prop := ∃ tree : Tree s, tree.tokens = ts

/-- One meaning for each symbol of a list. -/
def Parts (M : Symbol → Type) : List Symbol → Type
  | [] => Unit
  | s :: ss => M s × Parts M ss

mutual

/-- The meaning of a tree, from what its tokens mean and what each rule makes of the meanings of
its parts. The first token from the left without a meaning decides. -/
def Tree.fold {ε : Type} {M : Symbol → Type}
    (onToken : (token : Token) → Except ε (M (.terminal token.kind)))
    (onRule : (p : Production) → Parts M p.rhs → M (.nonterminal p.lhs))
    {s : Symbol} : Tree s → Except ε (M s)
  | .leaf token => onToken token
  | .node p children => do
    let parts ← children.fold onToken onRule
    return onRule p parts

def Forest.fold {ε : Type} {M : Symbol → Type}
    (onToken : (token : Token) → Except ε (M (.terminal token.kind)))
    (onRule : (p : Production) → Parts M p.rhs → M (.nonterminal p.lhs))
    {ss : List Symbol} : Forest ss → Except ε (Parts M ss)
  | .nil => .ok ()
  | .cons tree rest => do
    let first ← tree.fold onToken onRule
    let parts ← rest.fold onToken onRule
    return (first, parts)

end

end Toplevel
