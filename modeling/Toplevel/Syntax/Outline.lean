import Toplevel.Grammar.Tree
import Toplevel.Text.Quoted

/-!
# Outlines

The outline of a derivation drops the words and marks that only hold a phrase together, and shows
the parts of a helper phrase in its place. A phrase stands where its first token does, be it one
that the outline drops.
-/

namespace Toplevel

inductive Outline where
  | token (label text : Text) (position : Position)
  | node (label : Text) (position : Position) (children : List Outline)

/-- The meanings of a list of symbols that all mean the same kind of thing. -/
def Parts.toList {α : Type} : {ss : List Symbol} → Parts (fun _ => α) ss → List α
  | [], () => []
  | _ :: _, (x, parts) => x :: Parts.toList parts

/-- What the outline shows for a symbol, and where the symbol starts. -/
structure Shown where
  items : List Outline
  position : Position

namespace Shown

def ofToken (token : Token) : Shown where
  items :=
    match token.kind.label? with
    | none => []
    | some label => [.token label token.text token.position]
  position := token.position

def ofRule (p : Production) (parts : List Shown) : Shown :=
  let items := parts.flatMap Shown.items
  let position := (parts.head?.map Shown.position).getD Position.start
  match p.label? with
  | none => ⟨items, position⟩
  | some label => ⟨[.node label position items], position⟩

end Shown

/-- The outline of a derivation. -/
def Tree.shown {s : Symbol} (tree : Tree s) : Shown :=
  match tree.fold (ε := Empty) (M := fun _ => Shown)
      (fun token => .ok (Shown.ofToken token)) (fun p parts => Shown.ofRule p parts.toList) with
  | .ok shown => shown

def Position.mark (p : Position) : Text :=
  Text.concat [" @", Text.ofNat p.line, ":", Text.ofNat p.column]

mutual

/-- One line for each node and token, parts below their phrase and two blanks further in. -/
def Outline.lines (positions : Bool) (depth : Nat) : Outline → List Text
  | .token label text position =>
    [Text.concat
      [List.replicate (2 * depth) ' ', label, " ", text.quoted,
        if positions then position.mark else []]]
  | .node label position children =>
    Text.concat
      [List.replicate (2 * depth) ' ', label, if positions then position.mark else []]
      :: Outline.linesAll positions (depth + 1) children

def Outline.linesAll (positions : Bool) (depth : Nat) : List Outline → List Text
  | [] => []
  | o :: os => o.lines positions depth ++ Outline.linesAll positions depth os

end

end Toplevel
