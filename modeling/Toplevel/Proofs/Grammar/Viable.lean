import Toplevel.Proofs.Grammar.Derivation

/-!
# What has been read can be completed

No stack that the automaton comes to is a dead end: some program starts with the tokens that have
been read (`Stack.exists_program`). An item is valid for a stack if the rules that it is nested in
have been started for one another on the way up the stack (`Item.Fits`), and such an item can be
completed from the inside out, with a tree for every symbol that is still to come. The items in the
kernel of a state are valid for every stack that leads to the state (`Stack.Traced.fits`), because
the construction of the automaton puts an item there for no other reason.
-/

namespace Toplevel

open Automaton

/-! ### What the construction expects -/

/-- The first phrase on the right of a rule for `n`, of a rule for that phrase, and so on. -/
inductive Nonterminal.Leads (n : Nonterminal) : Nonterminal → Prop
  | refl : Leads n n
  | step {p : Production} {m : Nonterminal} {ss : List Symbol} (h : Leads n p.lhs)
    (hrhs : p.rhs = .nonterminal m :: ss) : Leads n m

theorem Nonterminal.all_ctorIdx (n : Nonterminal) : all[n.ctorIdx]? = some n := by
  cases n <;> rfl

theorem Nonterminal.ctorIdx_injective {m n : Nonterminal} (h : m.ctorIdx = n.ctorIdx) : m = n := by
  have hget := n.all_ctorIdx
  rw [← h, m.all_ctorIdx] at hget
  exact Option.some.inj hget

namespace Automaton

theorem settle_induction {α : Type} [DecidableEq α] {P : α → Prop} {f : α → α} {x : α} (hx : P x)
    (hf : ∀ y, P y → P (f y)) (fuel : Nat) : P (settle f fuel x) := by
  induction fuel generalizing x with
  | zero => exact hx
  | succ fuel ih =>
    simp only [settle]
    split
    · exact hx
    · exact ih (hf x hx)

/-- Only phrases are expected that a rule of an expected phrase starts with. -/
def Expectation.IsLed (e : Expectation) (n : Nonterminal) : Prop :=
  ∀ m : Nonterminal, (e.getD m.ctorIdx none).isSome = true → n.Leads m

theorem Expectation.IsLed.add {e : Expectation} {n m : Nonterminal} (h : e.IsLed n)
    (hm : n.Leads m) (x : Expected) : (e.add m x).IsLed n := by
  intro k hk
  by_cases hmk : m.ctorIdx = k.ctorIdx
  · rw [← Nonterminal.ctorIdx_injective hmk]
    exact hm
  · rw [Expectation.add, List.getD_eq_getElem?_getD, List.getElem?_modify_ne _ _ hmk,
      ← List.getD_eq_getElem?_getD] at hk
    exact h k hk

theorem Expectation.IsLed.grow {e : Expectation} {n : Nonterminal} (h : e.IsLed n)
    (starts : Starts) : (e.grow starts).IsLed n := by
  rw [Expectation.grow]
  refine List.foldlRecOn (motive := (IsLed · n)) _ _ h fun e he p _ => ?_
  split
  · rename_i x m hx hrhs
    exact he.add (.step (he p.lhs (by rw [hx]; rfl)) hrhs) x
  · rename_i x m s ss hx hrhs
    exact he.add (.step (he p.lhs (by rw [hx]; rfl)) hrhs) _
  · exact he

theorem isLed_expectation (n : Nonterminal) : (phrases.expectation n).IsLed n := by
  have hget : phrases.expectation n = expectation starts n := by
    rw [Phrases.expectation, phrases, List.getD_eq_getElem?_getD, List.getElem?_map, n.all_ctorIdx,
      Option.map_some, Option.getD_some]
  rw [hget, expectation]
  refine settle_induction (P := (Expectation.IsLed · n)) ?_ (fun e he => he.grow starts) _
  refine Expectation.IsLed.add (fun m hm => ?_) .refl _
  rw [List.getD_eq_getElem?_getD, List.getElem?_map, m.all_ctorIdx] at hm
  cases hm

/-! ### Kernels -/

/-- The item `i` is in the kernel of the state numbered `q`. -/
def Kernel (q : Nat) (i : Item) : Prop := ∃ s, itemSets[q]? = some s ∧ i ∈ s.core.kernel

theorem kernel_start {i : Item} : Kernel 0 i ↔ i = ⟨.program, 0⟩ := by
  have hstart := itemSets_sound.start
  rcases h0 : itemSets[0]? with _ | s
  · rw [h0] at hstart
    cases hstart
  · rw [h0, Option.any_some, isStart, Bool.and_eq_true, decide_eq_true_eq] at hstart
    constructor
    · rintro ⟨s', hs', hi⟩
      rw [h0, Option.some.injEq] at hs'
      rw [← hs', hstart.2] at hi
      exact List.mem_singleton.1 hi
    · rintro rfl
      exact ⟨s, h0, hstart.2 ▸ List.mem_singleton_self _⟩

/-- What is read on in a state: an item of the kernel, or a rule of a phrase expected by one. -/
inductive Held (q : Nat) : Item → Prop
  | kernel {i : Item} (hi : Kernel q i) : Held q i
  | started {i : Item} {n : Nonterminal} {p : Production} (hi : Kernel q i)
    (hn : i.next? = some (.nonterminal n)) (hp : n.Leads p.lhs) : Held q ⟨p, 0⟩

theorem held_of_mem {q : Nat} {s : ItemSet} (hs : itemSets[q]? = some s) {i : Item}
    (hi : i ∈ itemsOf phrases s.core.kernel) : Held q i := by
  rcases List.mem_append.1 hi with hi | hi
  · exact .kernel ⟨s, hs, hi⟩
  · obtain ⟨p, hp, rfl⟩ := List.mem_map.1 hi
    obtain ⟨j, hj, hp⟩ := List.mem_flatMap.1 (List.mem_eraseDups.1 hp)
    rw [startable] at hp
    split at hp
    · rename_i n hn
      exact .started ⟨s, hs, hj⟩ hn (isLed_expectation n p.lhs (List.mem_filter.1 hp).2)
    · cases hp

theorem ItemSet.exists_of_isTraced {sets : List ItemSet} {s : ItemSet}
    (h : s.isTraced sets = true) {x : Symbol} {k : Nat} (hmove : (x, k) ∈ s.core.moves) :
    ∃ s', sets[k]? = some s' ∧ s'.core.kernel ≠ [] ∧ ∀ i ∈ s'.core.kernel,
      ∃ j ∈ itemsOf phrases s.core.kernel, j.advance = i ∧ j.next? = some x := by
  have htraced := List.all_eq_true.1 h _ hmove
  dsimp only at htraced
  split at htraced
  · cases htraced
  · rename_i s' hs'
    rw [Bool.and_eq_true, Bool.not_eq_true', List.isEmpty_eq_false_iff, List.all_eq_true]
      at htraced
    refine ⟨s', hs', htraced.1, fun i hi => ?_⟩
    have hany := htraced.2 i hi
    simp only [List.any_eq_true, Bool.and_eq_true, decide_eq_true_eq] at hany
    exact hany

/-- A state is moved to with items that are read on, and with at least one. -/
theorem kernel_of_move {q k : Nat} {x : Symbol} (h : (state q).move? x = some k) :
    (∃ i, Kernel k i) ∧ ∀ i, Kernel k i → ∃ j, Held q j ∧ j.next? = some x ∧ j.advance = i := by
  rcases hq : itemSets[q]? with _ | s
  · rw [state_eq, stateIn, hq] at h
    cases h
  · rw [state_of_itemSet hq] at h
    obtain ⟨before, after, hmoves, -⟩ := List.lookup_eq_some_iff.1 h
    have hmem : (x, k) ∈ s.core.moves := by
      rw [show s.core.moves = _ from hmoves]
      exact List.mem_append_right _ List.mem_cons_self
    obtain ⟨s', hs', hkernel, htraced⟩ :=
      ItemSet.exists_of_isTraced (itemSets_sound.traced s (List.mem_of_getElem? hq)) hmem
    constructor
    · obtain ⟨i, hi⟩ := List.exists_mem_of_ne_nil _ hkernel
      exact ⟨i, s', hs', hi⟩
    · rintro i ⟨s'', hs'', hi⟩
      rw [hs', Option.some.injEq] at hs''
      subst hs''
      obtain ⟨j, hj, hadvance, hnext⟩ := htraced i hi
      exact ⟨j, held_of_mem hq hj, hnext, hadvance⟩

end Automaton

/-! ### Items that are valid for a stack -/

/-- The item is read on in rules that are nested in one another from the program down, with what
is on the stack for the symbols in front of their places. -/
inductive Automaton.Item.Fits : Item → Stack → Prop
  | start : Fits ⟨.program, 0⟩ []
  | expand {i : Item} {p : Production} {stack : Stack} (h : Fits i stack)
    (hn : i.next? = some (.nonterminal p.lhs)) : Fits ⟨p, 0⟩ stack
  | advance {i : Item} {f : Frame} {stack : Stack} (h : Fits i stack)
    (hn : i.next? = some f.symbol) : Fits i.advance (f :: stack)

namespace Automaton.Item.Fits

variable {i : Item} {stack : Stack}

theorem of_leads (h : i.Fits stack) {n m : Nonterminal} (hn : i.next? = some (.nonterminal n))
    (hm : n.Leads m) {p : Production} (hp : p.lhs = m) : Fits ⟨p, 0⟩ stack := by
  induction hm generalizing p with
  | refl => exact h.expand (hp ▸ hn)
  | @step r m ss _ hrhs ih =>
    have hnext : Item.next? ⟨r, 0⟩ = some (.nonterminal m) := by
      rw [Item.next?, hrhs]
      rfl
    exact (ih rfl).expand (hp ▸ hnext)

theorem of_held {q : Nat} (hkernel : ∀ j, Kernel q j → j.Fits stack) (h : Held q i) :
    i.Fits stack := by
  cases h with
  | kernel hi => exact hkernel i hi
  | started hj hn hp => exact (hkernel _ hj).of_leads hn hp rfl

end Automaton.Item.Fits

/-! ### Stacks that follow the moves -/

namespace Stack

/-- Each state on the stack is the one that the automaton moves to from the state below it. -/
inductive Traced : Stack → Prop
  | nil : Traced []
  | cons {f : Frame} {stack : Stack} (h : Traced stack)
    (hmove : stack.state.move? f.symbol = some f.state) : Traced (f :: stack)

namespace Traced

variable {stack stack' : Stack}

theorem of_append {parts : Stack} (h : Traced (parts ++ stack)) : stack.Traced := by
  induction parts with
  | nil => exact h
  | cons f parts ih =>
    cases h with
    | cons h _ => exact ih h

theorem step? (h : stack.Traced) {t : Option Terminal} (hstep : step? t stack = some stack') :
    stack'.Traced := by
  obtain ⟨p, -, hp⟩ := Option.bind_eq_some_iff.1 hstep
  obtain ⟨parts, below, children, next, rfl, -, hmove, rfl⟩ := reduce?_eq_some hp
  exact .cons h.of_append hmove

theorem reduceAll (h : stack.Traced) (t : Option Terminal) (fuel : Nat) :
    (reduceAll t fuel stack).Traced := by
  induction fuel generalizing stack with
  | zero => exact h
  | succ fuel ih =>
    rw [reduceAll_succ]
    rcases hs : Stack.step? t stack with _ | stack'
    · exact h
    · exact ih (h.step? hs)

theorem feed? (h : stack.Traced) {token : Token} (hfeed : stack.feed? token = some stack') :
    stack'.Traced := by
  rw [feed?_eq] at hfeed
  obtain ⟨next, hnext, rfl⟩ := Option.map_eq_some_iff.1 hfeed
  exact .cons (h.reduceAll _ _) hnext

theorem feedAll? (h : stack.Traced) {ts : List Token} (hfeed : stack.feedAll? ts = some stack') :
    stack'.Traced := by
  induction ts generalizing stack with
  | nil =>
    cases hfeed
    exact h
  | cons token ts ih =>
    obtain ⟨next, hnext, hfeed⟩ := Option.bind_eq_some_iff.1 hfeed
    exact ih (h.feed? hnext) hfeed

/-- A state is there for the items in its kernel, and these are valid for the stack. -/
theorem fits (h : stack.Traced) :
    (∃ i, Kernel stack.top i) ∧ ∀ i, Kernel stack.top i → i.Fits stack := by
  induction h with
  | nil =>
    refine ⟨⟨_, kernel_start.2 rfl⟩, fun i hi => ?_⟩
    rw [kernel_start.1 hi]
    exact .start
  | @cons f stack _ hmove ih =>
    rw [state_eq] at hmove
    obtain ⟨hexists, hkernel⟩ := kernel_of_move hmove
    refine ⟨hexists, fun i hi => ?_⟩
    obtain ⟨j, hj, hnext, rfl⟩ := hkernel i hi
    exact (Item.Fits.of_held ih.2 hj).advance hnext

end Traced

end Stack

/-! ### Trees for what is to come -/

/-- A spelling of each kind of token. -/
def Terminal.sample (t : Terminal) : Text :=
  match t with
  | number => ['0']
  | string => ['"', '"']
  | name => ['x']
  | tag => ['`', 'x']
  | t => (t.keyword? <|> t.marks.head?).getD []

/-- A token of some kind, in no place in particular. -/
def Token.ofKind (t : Terminal) : Token := ⟨t, t.sample, 0, Position.start⟩

def Token.IsSample (token : Token) : Prop := token.text = token.kind.sample

namespace Production

/-- A rule for each phrase, with no phrases on its right but those of the rules before it. -/
def plain : List Production :=
  [var, simpleAtom, callSimple, unaryCall, productUnary, sumProduct, concatSum, compareConcat,
    assignCompare, exprAssign, statementExpr, statementsOne, program, moreStatementsOne, anyPattern,
    arm, armsOne, taggedSimple, field, moreFieldsOne]

theorem plain_grounded : ∀ x ∈ plain.zipIdx, ∀ s ∈ x.1.rhs, (∃ t ∈ Terminal.all, s = .terminal t)
    ∨ ∃ p ∈ plain.take x.2, s = .nonterminal p.lhs := by
  decide

theorem exists_plain (n : Nonterminal) : ∃ p ∈ plain, p.lhs = n := by
  cases n <;> decide

end Production

/-- Some tree over the symbol is made of samples. -/
def Symbol.HasSample (s : Symbol) : Prop := ∃ tree : Tree s, ∀ token ∈ tree.tokens, token.IsSample

theorem Forest.exists_sample_of {ss : List Symbol} (h : ∀ s ∈ ss, s.HasSample) :
    ∃ forest : Forest ss, ∀ token ∈ forest.tokens, token.IsSample := by
  induction ss with
  | nil => exact ⟨.nil, nofun⟩
  | cons s ss ih =>
    rw [List.forall_mem_cons] at h
    obtain ⟨tree, htree⟩ := h.1
    obtain ⟨rest, hrest⟩ := ih h.2
    exact ⟨.cons tree rest, List.forall_mem_append.2 ⟨htree, hrest⟩⟩

theorem Symbol.hasSample (s : Symbol) : s.HasSample := by
  have hterminal : ∀ t : Terminal, HasSample (.terminal t) := fun t =>
    ⟨.leaf (.ofKind t), List.forall_mem_singleton.2 rfl⟩
  have hplain : ∀ k, ∀ p ∈ Production.plain.take k, HasSample (.nonterminal p.lhs) := by
    intro k
    induction k with
    | zero => exact nofun
    | succ k ih =>
      intro p hp
      rw [List.take_add_one, List.mem_append, Option.mem_toList] at hp
      rcases hp with hp | hp
      · exact ih p hp
      · have hgrounded := Production.plain_grounded (p, k) (List.mem_zipIdx_iff_getElem?.2 hp)
        have hparts : ∀ s ∈ p.rhs, s.HasSample := by
          intro s hs
          rcases hgrounded s hs with ⟨t, -, rfl⟩ | ⟨r, hr, rfl⟩
          · exact hterminal t
          · exact ih r hr
        obtain ⟨children, hchildren⟩ := Forest.exists_sample_of hparts
        exact ⟨.node p children, hchildren⟩
  cases s with
  | terminal t => exact hterminal t
  | nonterminal n =>
    obtain ⟨p, hp, rfl⟩ := Production.exists_plain n
    exact hplain Production.plain.length p (by rwa [List.take_length])

theorem Forest.exists_sample (ss : List Symbol) :
    ∃ forest : Forest ss, ∀ token ∈ forest.tokens, token.IsSample :=
  exists_sample_of fun s _ => s.hasSample

/-! ### Completing an item -/

theorem Automaton.Item.drop_eq {i : Item} {s : Symbol} (hn : i.next? = some s) :
    i.production.rhs.drop i.dot = s :: i.production.rhs.drop (i.dot + 1) := by
  obtain ⟨hlt, hget⟩ := List.getElem?_eq_some_iff.1 hn
  rw [List.drop_eq_getElem_cons hlt, hget]

/-- With the rest of its rule read, an item that is valid for a stack is part of a program. -/
theorem Automaton.Item.Fits.exists_program {i : Item} {stack : Stack} (h : i.Fits stack)
    {ss : List Symbol} (hss : i.production.rhs.drop i.dot = ss) (forest : Forest ss) :
    ∃ (tree : Tree (.nonterminal .program)) (us : List Token),
      (∀ u ∈ us, u.IsSample) ∧ tree.tokens = stack.tokens ++ (forest.tokens ++ us) := by
  induction h generalizing ss with
  | start =>
    subst hss
    exact ⟨.node .program forest, [], nofun, (List.append_nil _).symm⟩
  | @expand i p stack _ hn ih =>
    subst hss
    obtain ⟨rest, hrest⟩ := Forest.exists_sample (i.production.rhs.drop (i.dot + 1))
    obtain ⟨tree, us, hus, htokens⟩ := ih (Item.drop_eq hn) (.cons (.node p forest) rest)
    refine ⟨tree, rest.tokens ++ us, List.forall_mem_append.2 ⟨hrest, hus⟩, htokens.trans ?_⟩
    change stack.tokens ++ (forest.tokens ++ rest.tokens ++ us) = _
    rw [List.append_assoc]
  | @advance i f stack _ hn ih =>
    subst hss
    obtain ⟨tree, us, hus, htokens⟩ := ih (Item.drop_eq hn) (.cons f.tree forest)
    refine ⟨tree, us, hus, htokens.trans ?_⟩
    change stack.tokens ++ (f.tree.tokens ++ forest.tokens ++ us) = _
    rw [Stack.tokens_cons, List.append_assoc, List.append_assoc]

/-- Whatever has been read is how some program starts. -/
theorem Stack.exists_program {stack : Stack} {ts : List Token}
    (h : Stack.feedAll? [] ts = some stack) :
    ∃ (tree : Tree (.nonterminal .program)) (us : List Token),
      (∀ u ∈ us, u.IsSample) ∧ tree.tokens = ts ++ us := by
  obtain ⟨⟨i, hi⟩, hfits⟩ := (Traced.nil.feedAll? h).fits
  obtain ⟨rest, hrest⟩ := Forest.exists_sample (i.production.rhs.drop i.dot)
  obtain ⟨tree, us, hus, htokens⟩ := (hfits i hi).exists_program rfl rest
  refine ⟨tree, rest.tokens ++ us, List.forall_mem_append.2 ⟨hrest, hus⟩, ?_⟩
  rw [htokens, feedAll?_tokens h]
  rfl

end Toplevel
