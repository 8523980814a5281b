import Toplevel.Proofs.Grammar.Derivation

/-!
# Trees up to places

Two trees are the same up to the places of their tokens if they are once the places are left out
(`Tree.unplaced`). The tokens of a tree may be put in any places (`Tree.exists_placed`), and the
automaton does not look at places (`Tree.shifts_unplaced`).
-/

namespace Toplevel

/-- The kind and the text of a token. -/
def Token.unplaced (token : Token) : Token := ⟨token.kind, token.text, 0, Position.start⟩

mutual

/-- A tree without the places of its tokens. -/
def Tree.unplaced {s : Symbol} : Tree s → Tree s
  | .leaf token => .leaf token.unplaced
  | .node p children => .node p children.unplaced

def Forest.unplaced {ss : List Symbol} : Forest ss → Forest ss
  | .nil => .nil
  | .cons tree rest => .cons tree.unplaced rest.unplaced

end

theorem Tree.tokens_unplaced {s : Symbol} (tree : Tree s) :
    tree.unplaced.tokens = tree.tokens.map Token.unplaced := by
  refine @Tree.rec
    (fun _ tree => tree.unplaced.tokens = tree.tokens.map Token.unplaced)
    (fun _ forest => forest.unplaced.tokens = forest.tokens.map Token.unplaced)
    ?_ ?_ ?_ ?_ _ tree
  · intro token
    rfl
  · intro p children ih
    exact ih
  · rfl
  · intro s ss tree rest ihTree ihRest
    rw [Forest.unplaced, Forest.tokens, Forest.tokens, List.map_append, ihTree, ihRest]

theorem Tree.shifts_unplaced {s : Symbol} (tree : Tree s) (q : Nat) :
    tree.unplaced.shifts q = tree.shifts q := by
  refine @Tree.rec
    (fun _ tree => ∀ q, tree.unplaced.shifts q = tree.shifts q)
    (fun _ forest => ∀ q, forest.unplaced.shifts q = forest.shifts q)
    ?_ ?_ ?_ ?_ _ tree q
  · intro token q
    rfl
  · intro p children ih q
    exact ih q
  · intro q
    rfl
  · intro s ss tree rest ihTree ihRest q
    rw [Forest.unplaced, Forest.shifts, Forest.shifts, ihTree, ihRest]

/-- The tokens of a tree may stand anywhere. -/
theorem Tree.exists_placed {s : Symbol} (tree : Tree s) {ts : List Token}
    (h : ts.map Token.unplaced = tree.tokens.map Token.unplaced) :
    ∃ tree' : Tree s, tree'.tokens = ts ∧ tree'.unplaced = tree.unplaced := by
  refine @Tree.rec
    (fun s tree => ∀ ts : List Token,
      ts.map Token.unplaced = tree.tokens.map Token.unplaced →
      ∃ tree' : Tree s, tree'.tokens = ts ∧ tree'.unplaced = tree.unplaced)
    (fun ss forest => ∀ ts : List Token,
      ts.map Token.unplaced = forest.tokens.map Token.unplaced →
      ∃ forest' : Forest ss, forest'.tokens = ts ∧ forest'.unplaced = forest.unplaced)
    ?leaf ?node ?nil ?cons _ tree ts h
  case leaf =>
    rintro ⟨kind, text, _, _⟩ ts hts
    obtain ⟨⟨kind', text', offset, position⟩, rfl, htoken⟩ := List.map_eq_singleton_iff.1 hts
    simp only [Token.unplaced, Token.mk.injEq, and_true] at htoken
    obtain ⟨rfl, rfl⟩ := htoken
    exact ⟨.leaf ⟨kind', text', offset, position⟩, rfl, rfl⟩
  case node =>
    intro p children ih ts hts
    obtain ⟨children', rfl, hchildren⟩ := ih ts hts
    exact ⟨.node p children', rfl, by rw [Tree.unplaced, Tree.unplaced, hchildren]⟩
  case nil =>
    intro ts hts
    exact ⟨.nil, (List.map_eq_nil_iff.1 hts).symm, rfl⟩
  case cons =>
    intro s ss tree rest ihTree ihRest ts hts
    rw [Forest.tokens, List.map_append] at hts
    obtain ⟨ts₁, ts₂, rfl, hts₁, hts₂⟩ := List.map_eq_append_iff.1 hts
    obtain ⟨tree', rfl, htree⟩ := ihTree ts₁ hts₁
    obtain ⟨rest', rfl, hrest⟩ := ihRest ts₂ hts₂
    exact ⟨.cons tree' rest', rfl, by rw [Forest.unplaced, Forest.unplaced, htree, hrest]⟩

/-- The automaton goes through the same states for tokens that differ in their places alone. -/
theorem Tree.shifts_of_unplaced {s : Symbol} {tree tree' : Tree s}
    (h : tree'.unplaced = tree.unplaced) (q : Nat) : tree'.shifts q = tree.shifts q := by
  rw [← tree'.shifts_unplaced, h, tree.shifts_unplaced]

end Toplevel
