import Toplevel.Proofs.Grammar.Places
import Toplevel.Proofs.Syntax.Lexeme
import Toplevel.Syntax.Source

/-!
# Reading a source

A source is read token by token, with blanks between them; which kinds of tokens are looked for
depends on the state of the automaton. `Cursor.Reads` is that walk for given states, and
`Text.HasTokens` is the walk through the states that the tokens lead to, up to the end. A source is
read as a program just if its tokens are those of the program (`Tree.ofSource_eq_ok_iff`).
-/

namespace Toplevel

open Automaton

theorem Terminal.all_increasing : all.Pairwise fun t t' => t.ctorIdx < t'.ctorIdx := by decide

namespace Cursor

/-! ### Blanks -/

/-- The place after the blanks. -/
def skip (c : Cursor) : Cursor := c.skipBlanks c.rest.length

theorem skipBlanks_of_none {c : Cursor} (h : Lexeme.blank? c.rest = none) (fuel : Nat) :
    c.skipBlanks fuel = c := by
  cases fuel with
  | zero => rfl
  | succ fuel => rw [skipBlanks, h]

theorem skipBlanks_of_some {c : Cursor} {x : Lexeme} (h : Lexeme.blank? c.rest = some x)
    (fuel : Nat) : c.skipBlanks (fuel + 1) = (c.after x).skipBlanks fuel := by
  rw [skipBlanks, h]

theorem skipBlanks_succ_eq {fuel : Nat} {c : Cursor} (h : c.rest.length ≤ fuel) :
    c.skipBlanks (fuel + 1) = c.skipBlanks fuel := by
  cases hx : Lexeme.blank? c.rest with
  | none => rw [skipBlanks_of_none hx, skipBlanks_of_none hx]
  | some x =>
    have hlt : x.2.length < c.rest.length := (Lexeme.blank?_splits hx).length_lt
    induction fuel generalizing c x with
    | zero => omega
    | succ fuel ih =>
      rw [skipBlanks_of_some hx, skipBlanks_of_some hx]
      have hle : (c.after x).rest.length ≤ fuel := by
        change x.2.length ≤ fuel
        omega
      cases hy : Lexeme.blank? (c.after x).rest with
      | none => exact (skipBlanks_of_none hy _).trans (skipBlanks_of_none hy _).symm
      | some y => exact ih hle y hy (Lexeme.blank?_splits hy).length_lt

theorem skipBlanks_eq {fuel : Nat} {c : Cursor} (h : c.rest.length ≤ fuel) :
    c.skipBlanks fuel = c.skip := by
  induction fuel, h using Nat.le_induction with
  | base => rfl
  | succ fuel h ih => rw [skipBlanks_succ_eq h, ih]

theorem skip_of_none {c : Cursor} (h : Lexeme.blank? c.rest = none) : c.skip = c :=
  skipBlanks_of_none h _

theorem skip_of_some {c : Cursor} {x : Lexeme} (h : Lexeme.blank? c.rest = some x) :
    c.skip = (c.after x).skip := by
  have hlt : x.2.length < c.rest.length := (Lexeme.blank?_splits h).length_lt
  rw [← skipBlanks_eq (Nat.le_succ _), skipBlanks_of_some h]
  exact skipBlanks_eq (Nat.le_of_lt hlt)

theorem length_skip_le (c : Cursor) : c.skip.rest.length ≤ c.rest.length := by
  induction hn : c.rest.length using Nat.strong_induction_on generalizing c with
  | h n ih =>
    subst hn
    cases hx : Lexeme.blank? c.rest with
    | none => rw [skip_of_none hx]
    | some x =>
      have hlt : x.2.length < c.rest.length := (Lexeme.blank?_splits hx).length_lt
      rw [skip_of_some hx]
      exact (ih _ hlt (c.after x) rfl).trans (Nat.le_of_lt hlt)

/-- No blanks are left behind the blanks. -/
theorem blank?_skip (c : Cursor) : Lexeme.blank? c.skip.rest = none := by
  induction hn : c.rest.length using Nat.strong_induction_on generalizing c with
  | h n ih =>
    subst hn
    cases hx : Lexeme.blank? c.rest with
    | none => rwa [skip_of_none hx]
    | some x =>
      rw [skip_of_some hx]
      exact ih _ (Lexeme.blank?_splits hx).length_lt (c.after x) rfl

/-! ### One token -/

variable {admitted : Terminal → Bool} {c : Cursor}

theorem token?_of_first {t : Terminal} {x : Lexeme} (ht : admitted t = true)
    (hx : t.lexeme? c.rest = some x)
    (hfirst : ∀ t' : Terminal, t'.ctorIdx < t.ctorIdx → admitted t' = true →
      t'.lexeme? c.rest = none) :
    c.token? admitted = some (⟨t, x.1, c.offset, c.position⟩, c.after x) := by
  obtain ⟨before, after, hall⟩ := List.append_of_mem t.mem_all
  refine List.findSome?_eq_some_iff.2 ⟨before, t, after, hall, ?_, ?_⟩
  · rw [if_pos ht, hx]
    rfl
  · intro t' ht'
    have hincreasing := Terminal.all_increasing
    rw [hall, List.pairwise_append] at hincreasing
    split
    · rename_i hadmitted
      rw [hfirst t' (hincreasing.2.2 t' ht' t List.mem_cons_self) hadmitted]
      rfl
    · rfl

theorem token?_eq_some {token : Token} {c' : Cursor}
    (h : c.token? admitted = some (token, c')) :
    admitted token.kind = true ∧ token.kind.lexeme? c.rest = some (token.text, c'.rest)
      ∧ token.offset = c.offset ∧ token.position = c.position
      ∧ c' = c.after (token.text, c'.rest)
      ∧ ∀ t' : Terminal, t'.ctorIdx < token.kind.ctorIdx → admitted t' = true →
        t'.lexeme? c.rest = none := by
  obtain ⟨before, t, after, hall, ht, hbefore⟩ := List.findSome?_eq_some_iff.1 h
  split at ht
  · rename_i hadmitted
    obtain ⟨x, hx, hpair⟩ := Option.map_eq_some_iff.1 ht
    cases hpair
    refine ⟨hadmitted, hx, rfl, rfl, rfl, fun t' hlt hadmitted' => ?_⟩
    have hincreasing := Terminal.all_increasing
    have hmem := t'.mem_all
    rw [hall, List.mem_append] at hmem
    rw [hall, List.pairwise_append, List.pairwise_cons] at hincreasing
    rcases hmem with hmem | hmem
    · have hnone := hbefore t' hmem
      rw [if_pos hadmitted'] at hnone
      exact Option.map_eq_none_iff.1 hnone
    · rcases List.mem_cons.1 hmem with rfl | hmem
      · exact absurd hlt (Nat.lt_irrefl _)
      · exact absurd (hincreasing.2.1.1 t' hmem) (Nat.lt_asymm hlt)
  · cases ht

theorem token?_length_lt {token : Token} {c' : Cursor}
    (h : c.token? admitted = some (token, c')) : c'.rest.length < c.rest.length :=
  (Terminal.lexeme?_eq_some (token?_eq_some h).2.1).1.length_lt

/-! ### All tokens -/

/-- The walk from one place to another over the given tokens. It starts in the state `q`, and goes
on in the given states: in each of them the tokens that are admitted there are looked for. -/
inductive Reads : Cursor → Nat → List Token → List Nat → Cursor → Nat → Prop
  | refl {c : Cursor} {q : Nat} : Reads c q [] [] c q
  | token {c c' c'' : Cursor} {q q' q'' : Nat} {token : Token} {ts : List Token} {qs : List Nat}
    (htoken : c.skip.token? (Automaton.state q).accepts = some (token, c'))
    (hreads : Reads c' q' ts qs c'' q'') : Reads c q (token :: ts) (q' :: qs) c'' q''

theorem Reads.trans {c c' c'' : Cursor} {q q' q'' : Nat} {ts us : List Token} {qs rs : List Nat}
    (h : c.Reads q ts qs c' q') (h' : c'.Reads q' us rs c'' q'') :
    c.Reads q (ts ++ us) (qs ++ rs) c'' q'' := by
  induction h with
  | refl => exact h'
  | token htoken _ ih => exact .token htoken (ih h')

/-- What stands at a place are the given tokens, up to the end of the source. -/
def Spells (c : Cursor) (q : Nat) (ts : List Token) (qs : List Nat) : Prop :=
  ∃ c' q', c.Reads q ts qs c' q' ∧ c'.skip.rest = []

end Cursor

/-- The tokens of a source, each looked for in the state that the tokens before it lead to. -/
def Text.HasTokens (source : Text) (ts : List Token) : Prop :=
  (Cursor.start source).Spells 0 ts (Stack.states [] ts)

/-! ### Whole sources -/

theorem readFrom_of_spells {source : Text} {fuel : Nat} {c : Cursor} {stack stack' : Stack}
    {last : Option Token} {ts : List Token} {tree : Tree (.nonterminal .program)}
    (hfuel : c.rest.length < fuel) (hspells : c.Spells stack.top ts (stack.states ts))
    (hfeed : stack.feedAll? ts = some stack') (htree : stack'.complete? = some tree) :
    readFrom source fuel c stack last = .ok tree := by
  induction ts generalizing fuel c stack last with
  | nil =>
    obtain ⟨c', q', hreads, hend⟩ := hspells
    cases hreads
    cases hfeed
    cases fuel with
    | zero => omega
    | succ fuel =>
      rw [Cursor.skip] at hend
      simp only [readFrom, hend, htree]
  | cons token ts ih =>
    obtain ⟨c', q', hreads, hend⟩ := hspells
    obtain ⟨next, hnext, hfeed⟩ := Option.bind_eq_some_iff.1 hfeed
    rw [Stack.states_cons hnext] at hreads
    cases hreads with
    | token htoken hreads =>
      cases fuel with
      | zero => omega
      | succ fuel =>
        have hlt := Cursor.token?_length_lt htoken
        have hle := c.length_skip_le
        have hrest : readFrom source fuel _ next (some token) = .ok tree :=
          ih (by omega) ⟨c', q', hreads, hend⟩ hfeed
        rw [← Stack.state_eq, Cursor.skip] at htoken
        rw [Cursor.skip] at hlt
        simp only [readFrom]
        split
        · rename_i hnil
          rw [hnil] at hlt
          exact absurd hlt (Nat.not_lt_zero _)
        · simp only [htoken, hnext, hrest]

theorem spells_of_readFrom {source : Text} {fuel : Nat} {c : Cursor} {stack : Stack}
    {last : Option Token} {tree : Tree (.nonterminal .program)}
    (h : readFrom source fuel c stack last = .ok tree) :
    ∃ ts stack', c.Spells stack.top ts (stack.states ts) ∧ stack.feedAll? ts = some stack'
      ∧ stack'.complete? = some tree := by
  induction fuel generalizing c stack last with
  | zero => cases h
  | succ fuel ih =>
    simp only [readFrom] at h
    split at h
    · rename_i hend
      split at h
      · rename_i htree
        cases h
        exact ⟨[], stack, ⟨c, stack.top, .refl, hend⟩, rfl, htree⟩
      · split at h <;> cases h
    · split at h
      · rename_i token c₁ htoken
        split at h
        · rename_i next hnext
          obtain ⟨ts, stack', ⟨c', q', hreads, hend⟩, hfeed, htree⟩ := ih h
          rw [Stack.state_eq] at htoken
          refine ⟨token :: ts, stack', ⟨c', q', ?_, hend⟩, ?_, htree⟩
          · rw [Stack.states_cons hnext]
            exact .token htoken hreads
          · rw [Stack.feedAll?_cons hnext, hfeed]
        · cases h
      · split at h <;> cases h

/-- A source is read as a program just if its tokens are those of the program. -/
theorem Tree.ofSource_eq_ok_iff {source : Text} {tree : Tree (.nonterminal .program)} :
    Tree.ofSource source = .ok tree ↔ source.HasTokens tree.tokens := by
  constructor
  · intro h
    obtain ⟨ts, stack', hspells, hfeed, htree⟩ := spells_of_readFrom h
    have htokens : tree.tokens = ts := by
      rw [Stack.complete?_tokens htree, Stack.feedAll?_tokens hfeed]
      rfl
    rwa [htokens]
  · intro h
    obtain ⟨stack', hfeed, htree⟩ := tree.feedAll?
    exact readFrom_of_spells (Nat.lt_succ_self _) h hfeed htree

theorem Text.hasTokens_iff {source : Text} {tree : Tree (.nonterminal .program)} :
    source.HasTokens tree.tokens
      ↔ (Cursor.start source).Spells 0 tree.tokens (tree.shifts 0) := by
  rw [HasTokens, tree.states_tokens]

/-- A source whose tokens are those of a derivation up to places is read as this derivation. -/
theorem Tree.exists_ofSource {source : Text} (tree : Tree (.nonterminal .program))
    {us : List Token} (hus : us.map Token.unplaced = tree.tokens.map Token.unplaced)
    (hspells : (Cursor.start source).Spells 0 us (tree.shifts 0)) :
    ∃ tree', Tree.ofSource source = .ok tree' ∧ tree'.unplaced = tree.unplaced := by
  obtain ⟨tree', rfl, htree⟩ := tree.exists_placed hus
  rw [← shifts_of_unplaced htree] at hspells
  exact ⟨tree', ofSource_eq_ok_iff.2 (Text.hasTokens_iff.2 hspells), htree⟩

end Toplevel
