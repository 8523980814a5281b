import Toplevel.Proofs.Grammar.Items
import Toplevel.Proofs.Grammar.Reduction

/-!
# Derivations are read

The automaton follows every derivation tree: where an item that reads the symbol of the tree next is
open, it reads the tokens of the tree and puts the tree on the stack (`Tree.areRead`). So the tokens
of a program are read to the end and give back the program they come from (`Tree.feedAll?`), and
there is no other program with these tokens (`Tree.eq_of_tokens`).

The states on the way are those after each token, in which the token after it is looked for
(`Automaton.Admits`). They depend on the tree and the first state alone (`Tree.shifts`).
-/

namespace Toplevel

open Automaton

/-! ### What trees start with -/

/-- The tokens of a tree start with a token that its symbol can start with. -/
theorem Tree.head_starts {s : Symbol} (tree : Tree s) : ∃ token rest, tree.tokens = token :: rest
    ∧ (phrases.starts.ofSymbol s).mem (some token.kind) = true := by
  refine @Tree.rec
    (fun s tree => ∃ token rest, tree.tokens = token :: rest
      ∧ (phrases.starts.ofSymbol s).mem (some token.kind) = true)
    (fun ss forest => ∀ x xs, ss = x :: xs → ∃ token rest,
      forest.tokens = token :: rest ∧ (phrases.starts.ofSymbol x).mem (some token.kind) = true)
    ?leaf ?node ?nil ?cons _ tree
  case leaf =>
    intro token
    exact ⟨token, [], rfl, Lookaheads.mem_single.2 rfl⟩
  case node =>
    intro p children ih
    rcases hrhs : p.rhs with _ | ⟨x, xs⟩
    · exact absurd hrhs p.rhs_ne_nil
    · obtain ⟨token, rest, htokens, hmem⟩ := ih x xs hrhs
      exact ⟨token, rest, htokens, starts_of_rule hrhs hmem⟩
  case nil =>
    intro x xs hss
    cases hss
  case cons =>
    intro s ss tree rest ihTree _ x xs hss
    cases hss
    obtain ⟨token, others, htokens, hmem⟩ := ihTree
    exact ⟨token, others ++ rest.tokens, by rw [Forest.tokens, htokens]; rfl, hmem⟩

/-! ### Stacks on the way through a tree -/

mutual

/-- The states after each of the tokens of a tree that is read in the state `q`. -/
def Tree.shifts {s : Symbol} (q : Nat) : Tree s → List Nat
  | .leaf token => [next q (.terminal token.kind)]
  | .node _ children => children.shifts q

def Forest.shifts {ss : List Symbol} (q : Nat) : Forest ss → List Nat
  | .nil => []
  | .cons (s := s) tree rest => tree.shifts q ++ rest.shifts (next q s)

end

/-- The trees one after the other on a stack, from the bottom up. -/
def Forest.frames {ss : List Symbol} (q : Nat) : Forest ss → List Frame
  | .nil => []
  | .cons (s := s) tree rest => ⟨next q s, s, tree⟩ :: rest.frames (next q s)

theorem Forest.length_frames {ss : List Symbol} (q : Nat) (forest : Forest ss) :
    (forest.frames q).length = ss.length := by
  induction ss generalizing q with
  | nil =>
    cases forest
    rfl
  | cons s ss ih =>
    cases forest with
    | cons tree rest => exact congrArg (· + 1) (ih _ rest)

theorem Forest.ofFrames?_frames {ss : List Symbol} (q : Nat) (forest : Forest ss) :
    ofFrames? ss (forest.frames q) = some forest := by
  induction ss generalizing q with
  | nil =>
    cases forest
    rfl
  | cons s ss ih =>
    cases forest with
    | cons tree rest =>
      rw [frames, ofFrames?, dif_pos rfl, ih]
      rfl

namespace Stack

/-- The number of the state that the automaton is in. -/
def top : Stack → Nat
  | [] => 0
  | f :: _ => f.state

theorem state_eq (stack : Stack) : stack.state = Automaton.state stack.top := by
  cases stack <;> rfl

/-- The stack with the trees of a forest on top. -/
def push {ss : List Symbol} (stack : Stack) (forest : Forest ss) : Stack :=
  (forest.frames stack.top).reverse ++ stack

theorem push_cons {s : Symbol} {ss : List Symbol} (stack : Stack) (tree : Tree s)
    (rest : Forest ss) :
    stack.push (.cons tree rest) = push (⟨next stack.top s, s, tree⟩ :: stack) rest := by
  change (_ :: rest.frames (next stack.top s)).reverse ++ stack = _
  rw [List.reverse_cons, List.append_assoc]
  rfl

theorem reduce?_push {p : Production} {stack : Stack} {q : Nat} (children : Forest p.rhs)
    (hmove : stack.state.move? (.nonterminal p.lhs) = some q) :
    reduce? p (stack.push children)
      = some (⟨q, .nonterminal p.lhs, .node p children⟩ :: stack) := by
  have hlength : (children.frames stack.top).reverse.length = p.rhs.length := by
    rw [List.length_reverse, children.length_frames]
  rw [reduce?, push, List.take_left' hlength, List.drop_left' hlength, List.reverse_reverse,
    children.ofFrames?_frames]
  simp only [bind, Option.bind_some, hmove, pure]

/-! ### Reading -/

/-- The first token to come, or what comes after all of them. -/
def ahead (ts : List Token) (t : Option Terminal) : Option Terminal :=
  match ts with
  | [] => t
  | token :: _ => some token.kind

theorem ahead_append (ts us : List Token) (t : Option Terminal) :
    ahead (ts ++ us) t = ahead ts (ahead us t) := by
  cases ts <;> rfl

/-- With `t` to come after the tokens `ts`, the automaton gets from one stack to another by reading
`ts`, and is in the states `qs` right after each of them. -/
inductive Reads (t : Option Terminal) : Stack → List Token → List Nat → Stack → Prop
  | refl {stack : Stack} : Reads t stack [] [] stack
  | reduce {stack stack' stack'' : Stack} {ts : List Token} {qs : List Nat}
    (hstep : step? (ahead ts t) stack = some stack') (hreads : Reads t stack' ts qs stack'') :
    Reads t stack ts qs stack''
  | shift {stack stack' : Stack} {token : Token} {q : Nat} {ts : List Token} {qs : List Nat}
    (hwait : stack.state.reduce? (some token.kind) = none)
    (hmove : stack.state.move? (.terminal token.kind) = some q)
    (hreads : Reads t (⟨q, .terminal token.kind, .leaf token⟩ :: stack) ts qs stack') :
    Reads t stack (token :: ts) (q :: qs) stack'

theorem Reads.trans {t : Option Terminal} {stack₁ stack₂ stack₃ : Stack} {ts us : List Token}
    {qs rs : List Nat} (h : Reads (ahead us t) stack₁ ts qs stack₂)
    (h' : Reads t stack₂ us rs stack₃) :
    Reads t stack₁ (ts ++ us) (qs ++ rs) stack₃ := by
  induction h with
  | refl => exact h'
  | reduce hstep _ ih => exact .reduce (by rwa [ahead_append]) (ih h')
  | shift hwait hmove _ ih => exact .shift hwait hmove (ih h')

end Stack

open Stack

/-- What the automaton makes of a tree: it puts it on the stack. -/
def Tree.AreRead {s : Symbol} (tree : Tree s) : Prop :=
  ∀ (stack : Stack) (i : Item) (t u : Option Terminal), Open stack.top i t → i.next? = some s →
    (ItemSet.afterNext i (Lookaheads.single t)).mem u = true →
    Reads u stack tree.tokens (tree.shifts stack.top) (⟨next stack.top s, s, tree⟩ :: stack)

/-- What it makes of the rest of a rule: it is at the end of the rule. -/
def Forest.AreRead {ss : List Symbol} (forest : Forest ss) : Prop :=
  ∀ (stack : Stack) (i : Item) (t : Option Terminal), Open stack.top i t →
    i.production.rhs.drop i.dot = ss →
    Reads t stack forest.tokens (forest.shifts stack.top) (stack.push forest)
      ∧ Open (stack.push forest).top ⟨i.production, i.dot + ss.length⟩ t

theorem Tree.areRead_leaf (token : Token) : (Tree.leaf token).AreRead := by
  intro stack i t u hopen hnext _
  have hmove := hopen.move?_eq hnext
  have hwait := hopen.waits hnext
  rw [← Stack.state_eq] at hmove hwait
  exact .shift hwait hmove .refl

theorem Tree.areRead_node {p : Production} {children : Forest p.rhs} (h : children.AreRead) :
    (Tree.node p children).AreRead := by
  intro stack i t u hopen hnext hu
  obtain ⟨hreads, hend⟩ := h stack ⟨p, 0⟩ u (hopen.expand hnext hu) rfl
  have hmove := hopen.move?_eq hnext
  rw [Nat.zero_add] at hend
  have hcomplete := hend.complete (List.getElem?_eq_none (Nat.le_refl _))
  rw [← Stack.state_eq] at hmove hcomplete
  have hstep : step? u (stack.push children)
      = some (⟨next stack.top (.nonterminal p.lhs), .nonterminal p.lhs, .node p children⟩
        :: stack) := by
    rw [step?, hcomplete, Option.bind_some, reduce?_push children hmove]
  have htrans : Reads u stack (children.tokens ++ []) (children.shifts stack.top ++ []) _ :=
    Reads.trans hreads (.reduce hstep .refl)
  rwa [List.append_nil, List.append_nil] at htrans

theorem Forest.areRead_nil : Forest.nil.AreRead := by
  intro stack i t hopen _
  exact ⟨.refl, hopen⟩

theorem Forest.areRead_cons {s : Symbol} {ss : List Symbol} {tree : Tree s} {rest : Forest ss}
    (htree : tree.AreRead) (hrest : rest.AreRead) : (Forest.cons tree rest).AreRead := by
  intro stack i t hopen hdrop
  have hnext : i.next? = some s := by
    rw [Item.next?, ← List.head?_drop, hdrop]
    rfl
  have hdrop' : i.advance.production.rhs.drop i.advance.dot = ss := by
    change i.production.rhs.drop (i.dot + 1) = ss
    rw [← List.tail_drop, hdrop]
    rfl
  have hafter : (ItemSet.afterNext i (Lookaheads.single t)).mem (ahead rest.tokens t) = true := by
    have hhead : i.afterNext? = ss.head? := by
      rw [Item.afterNext?, ← List.head?_drop]
      exact congrArg List.head? hdrop'
    rw [ItemSet.afterNext, hhead]
    cases rest with
    | nil => exact Lookaheads.mem_single.2 rfl
    | cons tree' rest' =>
      obtain ⟨token, others, htokens, hmem⟩ := tree'.head_starts
      rw [Forest.tokens, htokens]
      exact hmem
  have hreads := htree stack i t _ hopen hnext hafter
  obtain ⟨hreads', hend⟩ := hrest (⟨next stack.top s, s, tree⟩ :: stack) i.advance t
    (hopen.advance hnext) hdrop'
  rw [push_cons, List.length_cons, Nat.add_comm ss.length, ← Nat.add_assoc]
  exact ⟨hreads.trans hreads', hend⟩

theorem Tree.areRead {s : Symbol} (tree : Tree s) : tree.AreRead :=
  @Tree.rec (fun _ tree => tree.AreRead) (fun _ forest => forest.AreRead)
    Tree.areRead_leaf (fun _ _ => Tree.areRead_node) Forest.areRead_nil
    (fun _ _ => Forest.areRead_cons) _ tree

theorem Forest.areRead {ss : List Symbol} (forest : Forest ss) : forest.AreRead :=
  @Forest.rec (fun _ tree => tree.AreRead) (fun _ forest => forest.AreRead)
    Tree.areRead_leaf (fun _ _ => Tree.areRead_node) Forest.areRead_nil
    (fun _ _ => Forest.areRead_cons) _ forest

/-! ### From the first token to the last -/

theorem Tree.exists_leaf {t : Terminal} (tree : Tree (.terminal t)) :
    ∃ text offset position, tree = .leaf ⟨t, text, offset, position⟩ := by
  cases tree with
  | leaf token => exact ⟨token.text, token.offset, token.position, rfl⟩

theorem Tree.exists_children {n : Nonterminal} (tree : Tree (.nonterminal n)) :
    ∃ (p : Production) (h : p.lhs = n) (children : Forest p.rhs),
      tree = h ▸ Tree.node p children := by
  cases tree with
  | node p children => exact ⟨p, rfl, children, rfl⟩

theorem Tree.program_cases (tree : Tree (.nonterminal .program)) :
    ∃ children : Forest Production.program.rhs, tree = .node .program children := by
  obtain ⟨p, h, children, rfl⟩ := tree.exists_children
  cases p with
  | program => exact ⟨children, rfl⟩
  | _ => cases h

namespace Stack

theorem settle_of_wait {t : Option Terminal} {stack : Stack} (h : stack.state.reduce? t = none) :
    settle t stack = stack :=
  settle_of_stuck (by rw [step?, h, Option.bind_none])

/-- A whole program stays on the stack as what it consists of. -/
theorem step?_program {t : Option Terminal} {stack : Stack}
    (h : stack.state.reduce? t = some .program) : step? t stack = none := by
  rw [step?, h, Option.bind_some, Option.eq_none_iff_forall_ne_some]
  intro stack' hreduce
  simp only [reduce?, bind, Option.bind_eq_some_iff] at hreduce
  obtain ⟨_, -, q, hmove, -⟩ := hreduce
  rw [state_eq, show Production.program.lhs = .program from rfl, move?_program] at hmove
  cases hmove

theorem Reads.feed? {t : Option Terminal} {stack stack' : Stack} {token : Token} {ts : List Token}
    {qs : List Nat} (h : Reads t stack (token :: ts) qs stack') :
    ∃ next rest, stack.feed? token = some next ∧ qs = next.top :: rest
      ∧ Reads t next ts rest stack' := by
  generalize hts : token :: ts = all at h
  induction h with
  | refl => cases hts
  | @reduce stack stack' _ _ _ hstep hreads ih =>
    subst hts
    obtain ⟨next, rest, hfeed, hrest⟩ := ih rfl
    have hsettle : settle (some token.kind) stack = settle (some token.kind) stack' :=
      settle_of_step hstep
    refine ⟨next, rest, ?_, hrest⟩
    rwa [feed?_eq, hsettle]
  | shift hwait hmove hreads _ =>
    cases hts
    refine ⟨_, _, ?_, rfl, hreads⟩
    rw [feed?_eq, settle_of_wait hwait, hmove]
    rfl

theorem Reads.settle {t : Option Terminal} {stack stack' : Stack} {ts : List Token} {qs : List Nat}
    (h : Reads t stack ts qs stack') (hts : ts = []) : settle t stack = settle t stack' := by
  induction h with
  | refl => rfl
  | reduce hstep _ ih =>
    subst hts
    rw [← ih rfl]
    exact settle_of_step hstep
  | shift _ _ _ _ => cases hts

theorem Reads.states_nil {t : Option Terminal} {stack stack' : Stack} {ts : List Token}
    {qs : List Nat} (h : Reads t stack ts qs stack') (hts : ts = []) : qs = [] := by
  induction h with
  | refl => rfl
  | reduce _ _ ih => exact ih hts
  | shift _ _ _ _ => cases hts

/-- The stack after some more tokens. -/
def feedAll? (stack : Stack) : List Token → Option Stack
  | [] => some stack
  | token :: ts => (stack.feed? token).bind fun next => feedAll? next ts

/-- The states after each of some more tokens. -/
def states (stack : Stack) : List Token → List Nat
  | [] => []
  | token :: ts => ((stack.feed? token).map fun next => next.top :: states next ts).getD []

theorem feedAll?_cons {stack next : Stack} {token : Token} (h : stack.feed? token = some next)
    (ts : List Token) : stack.feedAll? (token :: ts) = next.feedAll? ts := by
  rw [feedAll?, h, Option.bind_some]

theorem states_cons {stack next : Stack} {token : Token} (h : stack.feed? token = some next)
    (ts : List Token) : stack.states (token :: ts) = next.top :: next.states ts := by
  rw [states, h, Option.map_some, Option.getD_some]

theorem feedAll?_tokens {stack stack' : Stack} {ts : List Token}
    (h : stack.feedAll? ts = some stack') : stack'.tokens = stack.tokens ++ ts := by
  induction ts generalizing stack with
  | nil =>
    cases h
    rw [List.append_nil]
  | cons token ts ih =>
    obtain ⟨next, hnext, h⟩ := Option.bind_eq_some_iff.1 h
    rw [ih h, feed?_tokens hnext, List.append_assoc]
    rfl

theorem states_append {stack stack' : Stack} {ts : List Token}
    (h : stack.feedAll? ts = some stack') (us : List Token) :
    stack.states (ts ++ us) = stack.states ts ++ stack'.states us := by
  induction ts generalizing stack with
  | nil =>
    cases h
    rfl
  | cons token ts ih =>
    obtain ⟨next, hnext, h⟩ := Option.bind_eq_some_iff.1 h
    rw [List.cons_append, states_cons hnext, states_cons hnext, ih h, List.cons_append]

theorem exists_of_feedAll?_append {stack last : Stack} {ts us : List Token}
    (h : stack.feedAll? (ts ++ us) = some last) :
    ∃ stack', stack.feedAll? ts = some stack' ∧ stack'.feedAll? us = some last := by
  induction ts generalizing stack with
  | nil => exact ⟨stack, rfl, h⟩
  | cons token ts ih =>
    obtain ⟨next, hnext, h⟩ := Option.bind_eq_some_iff.1 h
    obtain ⟨stack', hstack, hlast⟩ := ih h
    exact ⟨stack', (feedAll?_cons hnext ts).trans hstack, hlast⟩

theorem length_states {stack stack' : Stack} {ts : List Token}
    (h : stack.feedAll? ts = some stack') : (stack.states ts).length = ts.length := by
  induction ts generalizing stack with
  | nil => rfl
  | cons token ts ih =>
    obtain ⟨next, hnext, h⟩ := Option.bind_eq_some_iff.1 h
    rw [states_cons hnext, List.length_cons, List.length_cons, ih h]

theorem Reads.feedAll? {t : Option Terminal} {stack stack' : Stack} {ts : List Token}
    {qs : List Nat} (h : Reads t stack ts qs stack') :
    ∃ last, stack.feedAll? ts = some last ∧ Stack.settle t last = Stack.settle t stack' := by
  induction ts generalizing stack qs with
  | nil => exact ⟨stack, rfl, h.settle rfl⟩
  | cons token ts ih =>
    obtain ⟨next, rest, hnext, -, hrest⟩ := h.feed?
    obtain ⟨last, hlast, hsettle⟩ := ih hrest
    exact ⟨last, (feedAll?_cons hnext ts).trans hlast, hsettle⟩

theorem Reads.states {t : Option Terminal} {stack stack' : Stack} {ts : List Token}
    {qs : List Nat} (h : Reads t stack ts qs stack') : stack.states ts = qs := by
  induction ts generalizing stack qs with
  | nil => exact (h.states_nil rfl).symm
  | cons token ts ih =>
    obtain ⟨next, rest, hnext, rfl, hrest⟩ := h.feed?
    rw [states_cons hnext, ih hrest]

end Stack

/-- Each token can come next in the state before it. After a parenthesis that opens, no product
does. -/
inductive Automaton.Admits : Nat → List Token → List Nat → Prop
  | nil {q : Nat} : Admits q [] []
  | cons {q q' : Nat} {token : Token} {ts : List Token} {qs : List Nat}
    (haccepts : (state q).accepts token.kind = true)
    (hparen : token.kind = .leftParen → (state q').accepts .productOp = false)
    (hrest : Admits q' ts qs) : Admits q (token :: ts) (q' :: qs)

theorem Stack.Reads.admits {t : Option Terminal} {stack stack' : Stack} {ts : List Token}
    {qs : List Nat} (h : Reads t stack ts qs stack') : Admits stack.top ts qs := by
  induction h with
  | refl => exact .nil
  | @reduce stack _ _ ts qs hstep _ ih =>
    obtain ⟨p, hp, -⟩ := Option.bind_eq_some_iff.1 hstep
    cases ih with
    | nil => exact .nil
    | cons _ hparen hrest =>
      refine .cons ?_ hparen hrest
      rw [← Stack.state_eq, State.accepts, Bool.or_eq_true]
      exact Or.inr (Option.isSome_iff_exists.2 ⟨p, hp⟩)
  | @shift stack _ token q _ _ _ hmove _ ih =>
    rw [Stack.state_eq] at hmove
    refine .cons ?_ (fun hkind => not_accepts_productOp (hkind ▸ hmove)) ih
    rw [State.accepts, Bool.or_eq_true]
    exact Or.inl (Option.isSome_iff_exists.2 ⟨q, hmove⟩)

namespace Tree

variable (tree : Tree (.nonterminal .program))

/-- The automaton reads the tokens of a program up to what the program consists of. -/
theorem reads_program : ∃ stack : Stack, Reads none [] tree.tokens (tree.shifts 0) stack
    ∧ settle none stack = stack
    ∧ (Forest.ofFrames? Production.program.rhs stack.reverse).map (.node .program) = some tree := by
  obtain ⟨children, rfl⟩ := tree.program_cases
  obtain ⟨hreads, hend⟩ := children.areRead [] ⟨.program, 0⟩ none Open.start rfl
  refine ⟨Stack.push [] children, hreads, settle_of_stuck (step?_program ?_), ?_⟩
  · rw [Stack.state_eq]
    exact hend.complete rfl
  · rw [push, List.append_nil, List.reverse_reverse, Forest.ofFrames?_frames]
    rfl

/-- The tokens of a program are read to the end and give back the program. -/
theorem feedAll? :
    ∃ last, Stack.feedAll? [] tree.tokens = some last ∧ last.complete? = some tree := by
  obtain ⟨stack, hreads, hsettled, htree⟩ := tree.reads_program
  obtain ⟨last, hlast, hsettle⟩ := hreads.feedAll?
  refine ⟨last, hlast, ?_⟩
  rw [hsettled] at hsettle
  change (Forest.ofFrames? _ (settle none last).reverse).map _ = _
  rw [hsettle, htree]

theorem states_tokens : Stack.states [] tree.tokens = tree.shifts 0 := by
  obtain ⟨stack, hreads, -⟩ := tree.reads_program
  exact hreads.states

theorem admits_tokens : Admits 0 tree.tokens (tree.shifts 0) := by
  obtain ⟨stack, hreads, -⟩ := tree.reads_program
  exact hreads.admits

variable {tree}

/-- A program is known by its tokens. -/
theorem eq_of_tokens {tree' : Tree (.nonterminal .program)} (h : tree.tokens = tree'.tokens) :
    tree = tree' := by
  obtain ⟨last, hlast, htree⟩ := tree.feedAll?
  obtain ⟨last', hlast', htree'⟩ := tree'.feedAll?
  rw [h, hlast', Option.some.injEq] at hlast
  rw [← hlast, htree', Option.some.injEq] at htree
  exact htree.symm

end Tree

end Toplevel
