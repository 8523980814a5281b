import Toplevel.Grammar.Automaton

/-!
# What the states expect

An item is open in a state for `t` if the state holds it, `t` being what may follow its phrase.
`Open` is closed under everything that happens on the way through a rule: where a phrase comes next,
its own rules are open too (`Open.expand`); reading the next symbol leads to a state where the item
is open one place further (`Open.advance`); at its end the rule is the one to be completed
(`Open.complete`), and before a token that it waits for nothing is completed (`Open.waits`).

The automaton is a table, so this is a matter of looking through the table (`ItemSet.isSound`),
which is done once (`itemSets_checked`) together with what else is read off the table.
-/

namespace Toplevel

def Symbol.all : List Symbol :=
  Terminal.all.map .terminal ++ Nonterminal.all.map .nonterminal

theorem Symbol.mem_all (s : Symbol) : s ∈ all := by
  cases s with
  | terminal t => exact List.mem_append_left _ (List.mem_map_of_mem t.mem_all)
  | nonterminal n => exact List.mem_append_right _ (List.mem_map_of_mem n.mem_all)

/-- The phrases made of whole statements. -/
def Nonterminal.isOuter : Nonterminal → Bool
  | .program | .statements | .moreStatements | .statement => true
  | _ => false

def Symbol.isInner : Symbol → Bool
  | .terminal _ => true
  | .nonterminal n => !n.isOuter

namespace Lookaheads

def subset (a b : Lookaheads) : Bool := a &&& b == a

theorem mem_of_subset {a b : Lookaheads} (h : subset a b = true) {t : Option Terminal}
    (ht : mem t a = true) : mem t b = true := by
  have hand : a &&& b = a := beq_iff_eq.1 h
  rw [mem, ← hand, Nat.testBit_and, Bool.and_eq_true] at ht
  exact ht.2

theorem bit_injective {t u : Option Terminal} (h : bit t = bit u) : t = u := by
  cases t <;> cases u <;> simp only [bit] at h
  · rfl
  · omega
  · omega
  · rename_i t u
    revert h
    cases t <;> cases u <;> decide

theorem mem_single {t u : Option Terminal} : mem t (single u) = true ↔ t = u := by
  rw [mem, single, Nat.one_shiftLeft, Nat.testBit_two_pow, decide_eq_true_eq]
  exact ⟨fun h => (bit_injective h).symm, fun h => by rw [h]⟩

end Lookaheads

namespace Automaton

/-- Where nothing follows, the state after reading `s` is the first one, as for a table that has no
entry. -/
def next (q : Nat) (s : Symbol) : Nat := ((state q).move? s).getD 0

theorem next_def (q : Nat) (s : Symbol) : next q s = ((state q).move? s).getD 0 := rfl

-- Otherwise a number is looked up in the table wherever two states are compared.
attribute [irreducible] next

/-- A state with what may follow each item of its kernel. -/
structure ItemSet where
  core : Core
  follows : List Lookaheads

def itemSets : List ItemSet :=
  List.zipWith ItemSet.mk (cores phrases) (lookaheads phrases (cores phrases))

namespace ItemSet

def state (s : ItemSet) : State := s.core.state s.follows

/-- What may follow the rules of a phrase that is started here. -/
def started (s : ItemSet) (n : Nonterminal) : Lookaheads :=
  (startFollows phrases s.core.kernel s.follows).getD n.ctorIdx 0

/-- What may follow the phrase of an item. -/
def after (s : ItemSet) (i : Item) : Lookaheads :=
  ((s.core.kernel.zip s.follows).lookup i).getD <|
    if i.dot = 0 then s.started i.production.lhs else 0

/-- What may follow the symbol that an item reads next, if `after` may follow its phrase. -/
def afterNext (i : Item) (after : Lookaheads) : Lookaheads :=
  match i.afterNext? with
  | none => after
  | some s => phrases.starts.ofSymbol s

/-- An item that is through is the one to be completed. -/
def completes (s : ItemSet) (i : Item) : Bool :=
  (none :: Terminal.all.map some).all fun t =>
    !(s.after i).mem t || decide (s.state.reduce? t = some i.production)

/-- The state after reading the next symbol holds the item one place further. -/
def advances (sets : List ItemSet) (s : ItemSet) (i : Item) (next : Symbol) : Bool :=
  match (s.state.move? next).bind fun q => sets[q]? with
  | none => false
  | some s' => (s.after i).subset (s'.after i.advance)

/-- The next symbol can be read: a token is not kept waiting, and a phrase has its rules here. -/
def awaits (s : ItemSet) (i : Item) : Symbol → Bool
  | .terminal t => decide (s.state.reduce? (some t) = none)
  | .nonterminal n => (Production.all.filter (·.lhs = n)).all fun p =>
    (afterNext i (s.after i)).subset (s.after ⟨p, 0⟩)

def isSoundAt (sets : List ItemSet) (s : ItemSet) (i : Item) : Bool :=
  s.after i == 0 ||
    match i.next? with
    | none => s.completes i
    | some next => s.advances sets i next && s.awaits i next

def items (s : ItemSet) : List Item :=
  s.core.kernel ++ (Production.all.filter fun p => s.started p.lhs != 0).map fun p => ⟨p, 0⟩

def isSound (sets : List ItemSet) (s : ItemSet) : Bool := s.items.all (s.isSoundAt sets)

/-- A state is moved to with items that are read on from here, and with at least one. -/
def isTraced (sets : List ItemSet) (s : ItemSet) : Bool :=
  s.core.moves.all fun (x, k) =>
    match sets[k]? with
    | none => false
    | some s' => !s'.core.kernel.isEmpty && s'.core.kernel.all fun i =>
      (itemsOf phrases s.core.kernel).any fun j =>
        decide (j.advance = i) && decide (j.next? = some x)

theorem mem_items {s : ItemSet} {i : Item} (h : s.after i ≠ 0) : i ∈ s.items := by
  rw [items, List.mem_append]
  rcases hl : (s.core.kernel.zip s.follows).lookup i with _ | a
  · rw [after, hl, Option.getD_none] at h
    by_cases hdot : i.dot = 0
    · rw [if_pos hdot] at h
      refine Or.inr (List.mem_map.2 ⟨i.production, ?_, by rw [← hdot]⟩)
      exact List.mem_filter.2 ⟨i.production.mem_all, bne_iff_ne.2 h⟩
    · rw [if_neg hdot] at h
      exact absurd rfl h
  · obtain ⟨l₁, l₂, hzip, -⟩ := List.lookup_eq_some_iff.1 hl
    have hmem : (i, a) ∈ s.core.kernel.zip s.follows := by simp [hzip]
    exact Or.inl (List.of_mem_zip hmem).1

end ItemSet

/-! ### The table -/

def stateIn (sets : List ItemSet) (q : Nat) : State := (sets[q]?.map (·.state)).getD ⟨[], []⟩

def nextIn (sets : List ItemSet) (q : Nat) (s : Symbol) : Nat :=
  ((stateIn sets q).move? s).getD 0

/-- The first state is before a program that the end of the source follows, and nothing else. -/
def isStart (s : ItemSet) : Bool :=
  (s.after ⟨.program, 0⟩).mem none && decide (s.core.kernel = [⟨.program, 0⟩])

/-- A phrase can start with what the first symbol of its rule starts with. -/
def startsGrow (p : Production) : Bool :=
  match p.rhs with
  | [] => false
  | s :: _ => (phrases.starts.ofSymbol s).subset (phrases.starts.ofSymbol (.nonterminal p.lhs))

/-- Nothing is read after a program, and nothing is multiplied right after a parenthesis opens. -/
def isEndless (sets : List ItemSet) (s : ItemSet) : Bool :=
  decide (s.state.move? (.nonterminal .program) = none)
    && (s.state.move? (.terminal .leftParen)).all fun q => !(stateIn sets q).accepts .productOp

/-- Where one statement is read, it does not matter what was read before. -/
def isOpening (sets : List ItemSet) (q : Nat) : Bool :=
  (Symbol.all.all fun s => !s.isInner || decide (nextIn sets q s = nextIn sets 0 s))
    && Terminal.all.all fun t => (stateIn sets q).accepts t == (stateIn sets 0).accepts t

/-- The states before the second statement and before any further one. -/
def openings (sets : List ItemSet) : List Nat :=
  let one := nextIn sets 0 (.nonterminal .statement)
  [nextIn sets one (.terminal .semicolon),
    nextIn sets (nextIn sets one (.nonterminal .moreStatements)) (.terminal .semicolon)]

/-- What is read on the way to places of words, with the keywords that may stand there: behind a
brace that opens, behind a name, behind `fun`, `let` and `let rec`, behind `let` in parentheses, and
in patterns. -/
def wordPlaces : List (List Symbol × List Terminal) :=
  let arm : List Symbol :=
    [.terminal .kwMatch, .nonterminal .expr, .terminal .kwWith, .terminal .bar]
  [([.terminal .leftBrace], [.kwTrue, .kwFalse]),
    ([.terminal .name], [.kwIn, .kwThen, .kwElse, .kwWith, .kwTrue, .kwFalse]),
    ([.terminal .kwFun], []), ([.terminal .kwLet], [.kwRec]),
    ([.terminal .kwLet, .terminal .kwRec], []), ([.terminal .leftParen, .terminal .kwLet], []),
    (arm, []), (arm ++ [.terminal .tag], [])]

def isWordPlace (sets : List ItemSet) (place : List Symbol × List Terminal) : Bool :=
  Terminal.all.all fun t => t.keyword?.isNone || place.2.contains t
    || !(stateIn sets (place.1.foldl (nextIn sets) 0)).accepts t

-- The kernel runs the construction of the automaton here, so everything is looked up at once.
theorem itemSets_checked :
    (itemSets.all (·.isSound itemSets) && itemSets[0]?.any isStart && Production.all.all startsGrow
      && itemSets.all (isEndless itemSets) && (openings itemSets).all (isOpening itemSets)
      && itemSets.all (·.isTraced itemSets) && wordPlaces.all (isWordPlace itemSets)) = true := by
  decide +kernel

/-- What the check says of the table. -/
structure Checked (sets : List ItemSet) : Prop where
  sound : ∀ s ∈ sets, s.isSound sets = true
  start : sets[0]?.any isStart = true
  starts : ∀ p, startsGrow p = true
  endless : ∀ s ∈ sets, isEndless sets s = true
  openings : ∀ q ∈ openings sets, isOpening sets q = true
  traced : ∀ s ∈ sets, s.isTraced sets = true
  words : ∀ place ∈ wordPlaces, isWordPlace sets place = true

theorem itemSets_sound : Checked itemSets := by
  have h := itemSets_checked
  simp only [Bool.and_eq_true, List.all_eq_true] at h
  obtain ⟨⟨⟨⟨⟨⟨hsets, hstart⟩, hstarts⟩, hend⟩, hopen⟩, htraced⟩, hwords⟩ := h
  exact ⟨hsets, hstart, fun p => hstarts p p.mem_all, hend, hopen, htraced, hwords⟩

theorem state_eq (q : Nat) : state q = stateIn itemSets q := by
  have hmap : states = (itemSets.map ItemSet.state).toArray := by
    rw [states, itemSets, List.map_zipWith]
    rfl
  rw [state, hmap, stateIn]
  simp [Array.getD_eq_getD_getElem?]

theorem next_eq (q : Nat) (s : Symbol) : next q s = nextIn itemSets q s := by
  rw [next_def, nextIn, state_eq]

theorem state_of_itemSet {q : Nat} {s : ItemSet} (h : itemSets[q]? = some s) :
    state q = s.state := by
  rw [state_eq, stateIn, h]
  rfl

theorem state_cases (q : Nat) : (∃ s ∈ itemSets, state q = s.state) ∨ state q = ⟨[], []⟩ := by
  rw [state_eq, stateIn]
  rcases h : itemSets[q]? with _ | s
  · exact Or.inr rfl
  · exact Or.inl ⟨s, List.mem_of_getElem? h, rfl⟩

theorem starts_of_rule {p : Production} {x : Symbol} {xs : List Symbol} (h : p.rhs = x :: xs)
    {t : Option Terminal} (ht : (phrases.starts.ofSymbol x).mem t = true) :
    (phrases.starts.ofSymbol (.nonterminal p.lhs)).mem t = true := by
  have hrule := itemSets_sound.starts p
  rw [startsGrow, h] at hrule
  exact Lookaheads.mem_of_subset hrule ht

theorem move?_program (q : Nat) : (state q).move? (.nonterminal .program) = none := by
  rcases state_cases q with ⟨s, hs, hq⟩ | hq
  · have hend := itemSets_sound.endless s hs
    rw [isEndless, Bool.and_eq_true] at hend
    rw [hq]
    exact of_decide_eq_true hend.1
  · rw [hq]
    rfl

/-- The characters `(*` are never read as two tokens. -/
theorem not_accepts_productOp {q k : Nat}
    (h : (state q).move? (.terminal .leftParen) = some k) :
    (state k).accepts .productOp = false := by
  rcases state_cases q with ⟨s, hs, hq⟩ | hq
  · have hend := itemSets_sound.endless s hs
    rw [isEndless, Bool.and_eq_true, ← hq, h, Option.all_some, ← state_eq,
      Bool.not_eq_true'] at hend
    exact hend.2
  · rw [hq] at h
    cases h

/-- No keyword may stand in a place but those that the table has there. -/
theorem not_accepts_of_wordPlace {place : List Symbol × List Terminal} (hplace : place ∈ wordPlaces)
    {t : Terminal} (ht : t.keyword? ≠ none) (hnot : t ∉ place.2) :
    (state (place.1.foldl next 0)).accepts t = false := by
  have hnext : next = nextIn itemSets := funext fun q => funext fun s => next_eq q s
  have hwords := List.all_eq_true.1 (itemSets_sound.words place hplace) t t.mem_all
  rwa [Option.isNone_eq_false_iff.2 (Option.isSome_iff_ne_none.2 ht),
    show place.2.contains t = false by simpa using hnot, Bool.false_or, Bool.false_or,
    Bool.not_eq_true', ← hnext, ← state_eq] at hwords

/-! ### Open items -/

/-- The item `i` is in the state numbered `q`, and `t` may follow its phrase. -/
def Open (q : Nat) (i : Item) (t : Option Terminal) : Prop :=
  ∃ s, itemSets[q]? = some s ∧ (s.after i).mem t = true

namespace Open

variable {q : Nat} {i : Item} {t : Option Terminal}

theorem start : Open 0 ⟨.program, 0⟩ none := by
  have hstart := itemSets_sound.start
  rcases h0 : itemSets[0]? with _ | s
  · rw [h0] at hstart
    cases hstart
  · rw [h0] at hstart
    exact ⟨s, h0, (Bool.and_eq_true_iff.1 hstart).1⟩

theorem sound (h : Open q i t) : ∃ s, itemSets[q]? = some s ∧ (s.after i).mem t = true
    ∧ (match i.next? with
      | none => s.completes i
      | some next => s.advances itemSets i next && s.awaits i next) = true := by
  obtain ⟨s, hs, ht⟩ := h
  have hne : s.after i ≠ 0 := by
    intro hzero
    rw [hzero, Lookaheads.mem, Nat.zero_testBit] at ht
    cases ht
  have hsound := itemSets_sound.sound s (List.mem_of_getElem? hs)
  rw [ItemSet.isSound, List.all_eq_true] at hsound
  have hi := hsound i (ItemSet.mem_items hne)
  rw [ItemSet.isSoundAt, beq_eq_false_iff_ne.2 hne, Bool.false_or] at hi
  exact ⟨s, hs, ht, hi⟩

theorem complete (h : Open q i t) (hn : i.next? = none) :
    (state q).reduce? t = some i.production := by
  obtain ⟨s, hs, ht, hsound⟩ := h.sound
  rw [hn] at hsound
  have hmem : t ∈ none :: Terminal.all.map some := by
    cases t with
    | none => exact List.mem_cons_self
    | some t => exact List.mem_cons_of_mem _ (List.mem_map_of_mem t.mem_all)
  have hend := List.all_eq_true.1 hsound t hmem
  rw [ht, Bool.not_true, Bool.false_or, decide_eq_true_eq] at hend
  rw [state_of_itemSet hs, hend]

theorem soundBefore (h : Open q i t) {x : Symbol} (hn : i.next? = some x) :
    ∃ s, itemSets[q]? = some s ∧ (s.after i).mem t = true ∧ s.advances itemSets i x = true
      ∧ s.awaits i x = true := by
  obtain ⟨s, hs, ht, hsound⟩ := h.sound
  rw [hn] at hsound
  exact ⟨s, hs, ht, Bool.and_eq_true_iff.1 hsound⟩

theorem move?_eq (h : Open q i t) {x : Symbol} (hn : i.next? = some x) :
    (state q).move? x = some (next q x) := by
  obtain ⟨s, hs, -, hmove, -⟩ := h.soundBefore hn
  rw [next_def, state_of_itemSet hs]
  rcases hq : s.state.move? x with _ | q'
  · rw [ItemSet.advances, hq] at hmove
    cases hmove
  · rfl

theorem advance (h : Open q i t) {x : Symbol} (hn : i.next? = some x) :
    Open (next q x) i.advance t := by
  obtain ⟨s, hs, ht, hmove, -⟩ := h.soundBefore hn
  have hq := h.move?_eq hn
  rw [state_of_itemSet hs] at hq
  rw [ItemSet.advances, hq, Option.bind_some] at hmove
  rcases hs' : itemSets[next q x]? with _ | s'
  · rw [hs'] at hmove
    cases hmove
  · rw [hs'] at hmove
    exact ⟨s', hs', Lookaheads.mem_of_subset hmove ht⟩

theorem waits (h : Open q i t) {u : Terminal} (hn : i.next? = some (.terminal u)) :
    (state q).reduce? (some u) = none := by
  obtain ⟨s, hs, -, -, hwait⟩ := h.soundBefore hn
  rw [state_of_itemSet hs]
  exact of_decide_eq_true hwait

/-- Whatever may follow the next phrase of an item may follow the rules of that phrase. -/
theorem expand (h : Open q i t) {p : Production} (hn : i.next? = some (.nonterminal p.lhs))
    {u : Option Terminal} (hu : (ItemSet.afterNext i (Lookaheads.single t)).mem u = true) :
    Open q ⟨p, 0⟩ u := by
  obtain ⟨s, hs, ht, -, hwait⟩ := h.soundBefore hn
  have hmem : p ∈ Production.all.filter (·.lhs = p.lhs) :=
    List.mem_filter.2 ⟨p.mem_all, decide_eq_true rfl⟩
  have hrule := List.all_eq_true.1 hwait p hmem
  refine ⟨s, hs, Lookaheads.mem_of_subset hrule ?_⟩
  rw [ItemSet.afterNext] at hu ⊢
  rcases hx : i.afterNext? with _ | x <;> rw [hx] at hu
  · rw [Lookaheads.mem_single.1 hu]
    exact ht
  · exact hu

end Open

/-! ### Where a statement is read -/

/-- A state that reads a statement as the first one does. -/
structure Opening (q : Nat) : Prop where
  next : ∀ s : Symbol, s.isInner = true → next q s = next 0 s
  accepts : ∀ t, (state q).accepts t = (state 0).accepts t

theorem opening_of_mem {q : Nat} (hq : q ∈ openings itemSets) : Opening q := by
  have h := itemSets_sound.openings q hq
  rw [isOpening, Bool.and_eq_true] at h
  constructor
  · intro s hs
    have hnext := List.all_eq_true.1 h.1 s s.mem_all
    rw [hs, Bool.not_true, Bool.false_or, decide_eq_true_eq] at hnext
    rw [next_eq, next_eq, hnext]
  · intro t
    have haccepts := List.all_eq_true.1 h.2 t t.mem_all
    rw [state_eq, state_eq]
    exact beq_iff_eq.1 haccepts

/-- The second statement. -/
theorem opening_second :
    Opening (next (next 0 (.nonterminal .statement)) (.terminal .semicolon)) := by
  refine opening_of_mem ?_
  simp only [next_eq, openings, List.mem_cons, true_or]

/-- Any further statement. -/
theorem opening_further :
    Opening (next (next (next 0 (.nonterminal .statement)) (.nonterminal .moreStatements))
      (.terminal .semicolon)) := by
  refine opening_of_mem ?_
  simp only [next_eq, openings, List.mem_cons, true_or, or_true]

end Automaton

end Toplevel
