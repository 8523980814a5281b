import Mathlib.Order.Nat
import Toplevel.Grammar.Stack

/-!
# Completing rules

What a reduction does to a stack, whatever the automaton says: it keeps the tokens read
(`Stack.reduce?_tokens`) and makes the stack smaller (`Stack.reduce?_measure`), so that the bound on
the number of reductions is never met and a reduction more or less does not matter
(`Stack.settle_of_step`). So a program read from some tokens is a derivation of just these tokens
(`Stack.complete?_tokens`).
-/

namespace Toplevel

namespace Forest

theorem ofFrames?_symbols : ∀ {ss : List Symbol} {fs : List Frame} {forest : Forest ss},
    ofFrames? ss fs = some forest → fs.map Frame.symbol = ss
  | [], [], _, _ => rfl
  | [], _ :: _, _, h => by cases h
  | _ :: _, [], _, h => by cases h
  | s :: ss, f :: fs, forest, h => by
    rw [ofFrames?] at h
    split at h
    · rename_i hs
      obtain ⟨rest, hrest, -⟩ := Option.map_eq_some_iff.1 h
      rw [List.map_cons, hs, ofFrames?_symbols hrest]
    · cases h

theorem ofFrames?_tokens : ∀ {ss : List Symbol} {fs : List Frame} {forest : Forest ss},
    ofFrames? ss fs = some forest → forest.tokens = fs.flatMap fun f => f.tree.tokens
  | [], [], .nil, _ => rfl
  | [], _ :: _, _, h => by cases h
  | _ :: _, [], _, h => by cases h
  | s :: ss, ⟨q, _, tree⟩ :: fs, forest, h => by
    rw [ofFrames?] at h
    split at h
    · rename_i hs
      cases hs
      obtain ⟨rest, hrest, rfl⟩ := Option.map_eq_some_iff.1 h
      rw [List.flatMap_cons, ← ofFrames?_tokens hrest]
      rfl
    · cases h

end Forest

/-- How far a symbol is from a whole program by rules with one symbol on the right. -/
def Symbol.rank : Symbol → Nat
  | .terminal _ => Nonterminal.all.length
  | .nonterminal n => n.ctorIdx

theorem Symbol.rank_le (s : Symbol) : s.rank ≤ Nonterminal.all.length := by
  cases s with
  | terminal _ => exact Nat.le_refl _
  | nonterminal n => cases n <;> decide

theorem Production.rank_lhs_lt (p : Production) :
    (Symbol.nonterminal p.lhs).rank < Nonterminal.all.length := by
  cases p <;> decide

theorem Production.rank_lt_of_single {p : Production} {s : Symbol} (h : p.rhs = [s]) :
    (Symbol.nonterminal p.lhs).rank < s.rank := by
  cases p <;> cases h <;> decide

namespace Stack

/-- The tokens read so far. -/
def tokens (stack : Stack) : List Token := stack.reverse.flatMap fun f => f.tree.tokens

@[simp] theorem tokens_nil : tokens [] = [] := rfl

theorem tokens_append (above below : Stack) :
    tokens (above ++ below) = tokens below ++ tokens above := by
  rw [tokens, List.reverse_append, List.flatMap_append]
  rfl

@[simp] theorem tokens_cons (f : Frame) (stack : Stack) :
    tokens (f :: stack) = tokens stack ++ f.tree.tokens := by
  rw [← List.singleton_append, tokens_append]
  simp [tokens]

/-- A bound on the reductions that a stack allows. -/
def measure : Stack → Nat
  | [] => 0
  | f :: below => Nonterminal.all.length * (below.length + 1) + f.symbol.rank

theorem measure_le_reduceLimit (stack : Stack) : stack.measure ≤ stack.reduceLimit := by
  cases stack with
  | nil => exact Nat.zero_le _
  | cons f below =>
    exact Nat.add_le_add_left f.symbol.rank_le _

/-- The parts of the rule on top, and the stack below them. -/
theorem reduce?_eq_some {p : Production} {stack stack' : Stack}
    (h : reduce? p stack = some stack') :
    ∃ parts below children next, stack = parts ++ below
      ∧ Forest.ofFrames? p.rhs parts.reverse = some children
      ∧ (state below).move? (.nonterminal p.lhs) = some next
      ∧ stack' = ⟨next, .nonterminal p.lhs, .node p children⟩ :: below := by
  simp only [reduce?, bind, Option.bind_eq_some_iff, pure, Option.some.injEq] at h
  obtain ⟨children, hchildren, next, hnext, rfl⟩ := h
  exact ⟨stack.take p.rhs.length, stack.drop p.rhs.length, children, next,
    (List.take_append_drop _ _).symm, hchildren, hnext, rfl⟩

theorem reduce?_tokens {p : Production} {stack stack' : Stack}
    (h : reduce? p stack = some stack') : stack'.tokens = stack.tokens := by
  obtain ⟨parts, below, children, next, rfl, hchildren, -, rfl⟩ := reduce?_eq_some h
  rw [tokens_append, tokens_cons, Tree.tokens, Forest.ofFrames?_tokens hchildren]
  rfl

theorem reduce?_measure {p : Production} {stack stack' : Stack}
    (h : reduce? p stack = some stack') : stack'.measure < stack.measure := by
  obtain ⟨parts, below, children, next, rfl, hchildren, -, rfl⟩ := reduce?_eq_some h
  have hsymbols := Forest.ofFrames?_symbols hchildren
  rw [List.map_reverse] at hsymbols
  cases parts with
  | nil => exact absurd hsymbols.symm p.rhs_ne_nil
  | cons f parts =>
    rw [List.cons_append, measure, measure, List.length_append]
    cases parts with
    | nil =>
      have hrank := Production.rank_lt_of_single hsymbols.symm
      rw [List.length_nil, Nat.zero_add]
      exact Nat.add_lt_add_left hrank _
    | cons g parts =>
      -- One phrase more on the stack outweighs any difference in rank.
      have hlonger : below.length + 1 + 1 ≤ (g :: parts).length + below.length + 1 := by
        rw [List.length_cons]
        omega
      calc Nonterminal.all.length * (below.length + 1) + (Symbol.nonterminal p.lhs).rank
          < Nonterminal.all.length * (below.length + 1 + 1) :=
            Nat.add_lt_add_left p.rank_lhs_lt _
        _ ≤ Nonterminal.all.length * ((g :: parts).length + below.length + 1) :=
            Nat.mul_le_mul_left _ hlonger
        _ ≤ _ := Nat.le_add_right _ _

/-! ### As far as it goes -/

/-- The stack after one reduction, if one is due before `t`. -/
def step? (t : Option Terminal) (stack : Stack) : Option Stack :=
  (stack.state.reduce? t).bind fun p => reduce? p stack

theorem reduceAll_succ (t : Option Terminal) (fuel : Nat) (stack : Stack) :
    reduceAll t (fuel + 1) stack = match step? t stack with
      | none => stack
      | some stack' => reduceAll t fuel stack' := by
  simp only [reduceAll, step?]
  rcases stack.state.reduce? t with _ | p <;> rfl

theorem step?_measure {t : Option Terminal} {stack stack' : Stack}
    (h : step? t stack = some stack') : stack'.measure < stack.measure := by
  obtain ⟨p, -, hp⟩ := Option.bind_eq_some_iff.1 h
  exact reduce?_measure hp

theorem step?_tokens {t : Option Terminal} {stack stack' : Stack}
    (h : step? t stack = some stack') : stack'.tokens = stack.tokens := by
  obtain ⟨p, -, hp⟩ := Option.bind_eq_some_iff.1 h
  exact reduce?_tokens hp

theorem reduceAll_tokens (t : Option Terminal) (fuel : Nat) (stack : Stack) :
    (reduceAll t fuel stack).tokens = stack.tokens := by
  induction fuel generalizing stack with
  | zero => rfl
  | succ fuel ih =>
    rw [reduceAll_succ]
    rcases h : step? t stack with _ | stack'
    · rfl
    · exact (ih stack').trans (step?_tokens h)

theorem reduceAll_succ_eq {t : Option Terminal} {fuel : Nat} {stack : Stack}
    (h : stack.measure ≤ fuel) : reduceAll t (fuel + 1) stack = reduceAll t fuel stack := by
  induction fuel generalizing stack with
  | zero =>
    rw [reduceAll_succ]
    rcases hs : step? t stack with _ | stack'
    · rfl
    · have hlt := step?_measure hs
      omega
  | succ fuel ih =>
    rw [reduceAll_succ, reduceAll_succ]
    rcases hs : step? t stack with _ | stack'
    · rfl
    · have hlt := step?_measure hs
      exact ih (by omega)

theorem reduceAll_eq {t : Option Terminal} {fuel : Nat} {stack : Stack}
    (h : stack.measure ≤ fuel) : reduceAll t fuel stack = reduceAll t stack.measure stack := by
  induction fuel, h using Nat.le_induction with
  | base => rfl
  | succ fuel h ih => rw [reduceAll_succ_eq h, ih]

/-- The stack when all rules are completed that are through before `t`. -/
def settle (t : Option Terminal) (stack : Stack) : Stack := reduceAll t stack.reduceLimit stack

theorem settle_eq (t : Option Terminal) (stack : Stack) :
    settle t stack = reduceAll t stack.measure stack :=
  reduceAll_eq stack.measure_le_reduceLimit

theorem settle_of_step {t : Option Terminal} {stack stack' : Stack}
    (h : step? t stack = some stack') : settle t stack = settle t stack' := by
  have hlt := step?_measure h
  rw [settle_eq, settle_eq, ← reduceAll_succ_eq (Nat.le_refl _), reduceAll_succ, h]
  exact reduceAll_eq (Nat.le_of_lt hlt)

theorem settle_of_stuck {t : Option Terminal} {stack : Stack} (h : step? t stack = none) :
    settle t stack = stack := by
  rw [settle_eq, ← reduceAll_succ_eq (Nat.le_refl _), reduceAll_succ, h]

/-! ### Reading tokens -/

theorem feed?_eq (stack : Stack) (token : Token) :
    stack.feed? token = ((settle (some token.kind) stack).state.move? (.terminal token.kind)).map
      fun next => ⟨next, .terminal token.kind, .leaf token⟩ :: settle (some token.kind) stack :=
  rfl

theorem feed?_tokens {stack stack' : Stack} {token : Token} (h : stack.feed? token = some stack') :
    stack'.tokens = stack.tokens ++ [token] := by
  rw [feed?_eq] at h
  obtain ⟨next, -, rfl⟩ := Option.map_eq_some_iff.1 h
  rw [tokens_cons, settle, reduceAll_tokens]
  rfl

/-- A program read from some tokens is a derivation of just these. -/
theorem complete?_tokens {stack : Stack} {tree : Tree (.nonterminal .program)}
    (h : stack.complete? = some tree) : tree.tokens = stack.tokens := by
  obtain ⟨children, hchildren, rfl⟩ := Option.map_eq_some_iff.1 h
  change children.tokens = stack.tokens
  rw [Forest.ofFrames?_tokens hchildren, ← reduceAll_tokens none stack.reduceLimit stack]
  rfl

end Stack

end Toplevel
