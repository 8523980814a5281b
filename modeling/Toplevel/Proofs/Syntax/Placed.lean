import Toplevel.Code.Compile
import Toplevel.Proofs.Grammar.Derivation

/-!
# Programs in other places

A derivation may be moved, also while it is read (`Stack.feed?_placed`): every place in it is
replaced by the place that `f` gives, and every offset by the one that `g` gives. What it means
moves along (`Tree.meaning?_placed`), and so does the place that a program is rejected at; the code
does not change (`Program.compile?_placed`).
-/

namespace Toplevel

variable (f : Position → Position) (g : Nat → Nat)

/-! ### Trees -/

def Token.placed (token : Token) : Token :=
  ⟨token.kind, token.text, g token.offset, f token.position⟩

mutual

def Tree.placed {s : Symbol} : Tree s → Tree s
  | .leaf token => .leaf (token.placed f g)
  | .node p children => .node p children.placed

def Forest.placed {ss : List Symbol} : Forest ss → Forest ss
  | .nil => .nil
  | .cons tree rest => .cons tree.placed rest.placed

end

/-! ### Stacks -/

def Frame.placed (frame : Frame) : Frame := ⟨frame.state, frame.symbol, frame.tree.placed f g⟩

theorem Forest.ofFrames?_placed (ss : List Symbol) (fs : List Frame) :
    ofFrames? ss (fs.map (Frame.placed f g)) = (ofFrames? ss fs).map (placed f g) := by
  induction ss generalizing fs with
  | nil => cases fs <;> rfl
  | cons s ss ih =>
    cases fs with
    | nil => rfl
    | cons frame fs =>
      obtain ⟨state, symbol, tree⟩ := frame
      rw [List.map_cons, ofFrames?, ofFrames?]
      by_cases hs : symbol = s
      · subst hs
        rw [dif_pos (show (Frame.placed f g ⟨state, symbol, tree⟩).symbol = symbol from rfl),
          dif_pos rfl, ih, Option.map_map, Option.map_map]
        rfl
      · rw [dif_neg hs, dif_neg (show ¬(Frame.placed f g ⟨state, symbol, tree⟩).symbol = s from hs)]
        rfl

namespace Stack

variable (stack : Stack)

theorem state_placed : state (stack.map (Frame.placed f g)) = stack.state := by
  cases stack <;> rfl

theorem reduce?_placed (p : Production) :
    reduce? p (stack.map (Frame.placed f g))
      = (reduce? p stack).map (List.map (Frame.placed f g)) := by
  simp only [reduce?, ← List.map_take, ← List.map_drop, ← List.map_reverse,
    Forest.ofFrames?_placed, state_placed]
  cases Forest.ofFrames? p.rhs (stack.take p.rhs.length).reverse with
  | none => rfl
  | some children =>
    change (_ >>= _) = Option.map _ (_ >>= _)
    cases (state (stack.drop p.rhs.length)).move? (.nonterminal p.lhs) <;> rfl

theorem reduceAll_placed (t : Option Terminal) (fuel : Nat) :
    reduceAll t fuel (stack.map (Frame.placed f g))
      = (reduceAll t fuel stack).map (Frame.placed f g) := by
  induction fuel generalizing stack with
  | zero => rfl
  | succ fuel ih =>
    rw [reduceAll, reduceAll, state_placed]
    cases (state stack).reduce? t with
    | none => rfl
    | some p =>
      dsimp only
      rw [reduce?_placed]
      cases reduce? p stack with
      | none => rfl
      | some stack => exact ih stack

theorem reduceLimit_placed :
    reduceLimit (stack.map (Frame.placed f g)) = stack.reduceLimit := by
  rw [reduceLimit, reduceLimit, List.length_map]

/-- The automaton does not look at places. -/
theorem feed?_placed (token : Token) :
    feed? (stack.map (Frame.placed f g)) (token.placed f g)
      = (feed? stack token).map (List.map (Frame.placed f g)) := by
  rw [feed?, feed?, reduceLimit_placed]
  simp only [reduceAll_placed, state_placed, Option.map_map]
  rfl

theorem complete?_placed :
    complete? (stack.map (Frame.placed f g)) = (complete? stack).map (Tree.placed f g) := by
  rw [complete?, complete?, reduceLimit_placed]
  simp only [reduceAll_placed, ← List.map_reverse, Forest.ofFrames?_placed]
  cases Forest.ofFrames? Production.program.rhs (reduceAll none stack.reduceLimit stack).reverse <;>
    rfl

end Stack
/-! ### Programs -/

mutual

def Expr.placed : Expr → Expr
  | .number x => .number x
  | .string s => .string s
  | .bool b => .bool b
  | .var x p => .var x (f p)
  | .func x b => .func x b.placed
  | .apply e a => .apply e.placed a.placed
  | .letIn x v b => .letIn x v.placed b.placed
  | .ifElse c y n => .ifElse c.placed y.placed n.placed
  | .matchWith s as => .matchWith s.placed as.placed
  | .binary op p l r => .binary op (f p) l.placed r.placed
  | .neg a => .neg a.placed
  | .deref a => .deref a.placed
  | .assign t v => .assign t.placed v.placed
  | .record fs => .record fs.placed
  | .update b fs => .update b.placed fs.placed
  | .field b x => .field b.placed x
  | .tagged t p => .tagged t p.placed
  | .newRef a => .newRef a.placed

def Arms.placed : Arms → Arms
  | .nil => .nil
  | .cons tag x b rest => .cons tag x b.placed rest.placed

def Fields.placed : Fields → Fields
  | .nil => .nil
  | .cons x v rest => .cons x v.placed rest.placed

end

def Statement.placed : Statement → Statement
  | .define x v recursive => .define x (v.placed f) recursive
  | .expr e => .expr (e.placed f)

def Program.placed (p : Program) : Program := ⟨p.statements.map (Statement.placed f)⟩

theorem Arms.placed_append : ∀ as bs : Arms,
    (as.append bs).placed f = (as.placed f).append (bs.placed f)
  | .nil, _ => rfl
  | .cons tag x b rest, bs => by
    rw [Arms.append, Arms.placed, Arms.placed_append rest bs]
    rfl

theorem Fields.placed_append : ∀ fs gs : Fields,
    (fs.append gs).placed f = (fs.placed f).append (gs.placed f)
  | .nil, _ => rfl
  | .cons x v rest, gs => by
    rw [Fields.append, Fields.placed, Fields.placed_append rest gs]
    rfl

/-! ### What trees mean -/

/-- The meanings of some trees. -/
def Forest.meaning? {ss : List Symbol} (forest : Forest ss) : Except BadEscape (Parts Meaning ss) :=
  forest.fold Meaning.ofToken Meaning.ofRule

def Word.placed (w : Word) : Word := ⟨w.text, f w.position⟩

def BadEscape.placed (e : BadEscape) : BadEscape := ⟨e.literal.placed f g⟩

def Meaning.placed : (s : Symbol) → Meaning s → Meaning s
  | .terminal _ => Word.placed f
  | .nonterminal .program => Program.placed f
  | .nonterminal .statements | .nonterminal .moreStatements => List.map (Statement.placed f)
  | .nonterminal .statement => Statement.placed f
  | .nonterminal .arms | .nonterminal .arm => Arms.placed f
  | .nonterminal .pattern => id
  | .nonterminal .moreFields | .nonterminal .field => Fields.placed f
  | .nonterminal .expr | .nonterminal .assign | .nonterminal .compare | .nonterminal .concat
  | .nonterminal .sum | .nonterminal .product | .nonterminal .unary | .nonterminal .call
  | .nonterminal .tagged | .nonterminal .simple | .nonterminal .atom => Expr.placed f

def Parts.placed : (ss : List Symbol) → Parts Meaning ss → Parts Meaning ss
  | [], () => ()
  | s :: ss, (m, ms) => (Meaning.placed f s m, placed ss ms)

theorem Meaning.ofRule_placed (p : Production) (parts : Parts Meaning p.rhs) :
    ofRule p (parts.placed f p.rhs) = placed f (.nonterminal p.lhs) (ofRule p parts) := by
  cases p with
  | moreStatementsNext =>
    obtain ⟨ss, _, s, _⟩ := parts
    exact (@List.map_append _ _ (Statement.placed f) ss [s]).symm
  | armsNext => exact (Arms.placed_append f _ _).symm
  | recordMore | recordMoreEnd => exact congrArg Expr.record (Fields.placed_append f _ _).symm
  | updateMore | updateMoreEnd => exact congrArg (Expr.update _) (Fields.placed_append f _ _).symm
  | moreFieldsNext => exact (Fields.placed_append f _ _).symm
  | _ => rfl

theorem Meaning.ofToken_placed (token : Token) : ofToken (token.placed f g)
    = ((ofToken token).mapError (BadEscape.placed f g)).map (Word.placed f) := by
  rw [ofToken, ofToken]
  by_cases hstring : token.kind = .string
  · rw [if_pos hstring, if_pos (show (token.placed f g).kind = .string from hstring)]
    rw [show (token.placed f g).text = token.text from rfl]
    cases Text.unescape? (token.text.drop 1).dropLast <;> rfl
  · rw [if_neg hstring, if_neg (show ¬ (token.placed f g).kind = .string from hstring)]
    rfl

theorem Tree.meaning?_placed {s : Symbol} (tree : Tree s) : (tree.placed f g).meaning?
    = (tree.meaning?.mapError (BadEscape.placed f g)).map (Meaning.placed f s) := by
  refine @Tree.rec
    (fun s tree => (tree.placed f g).meaning?
      = (tree.meaning?.mapError (BadEscape.placed f g)).map (Meaning.placed f s))
    (fun ss forest => (forest.placed f g).meaning?
      = (forest.meaning?.mapError (BadEscape.placed f g)).map (Parts.placed f ss))
    ?leaf ?node ?nil ?cons _ tree
  case leaf =>
    intro token
    exact Meaning.ofToken_placed f g token
  case node =>
    intro p children ih
    change (do return Meaning.ofRule p (← (children.placed f g).meaning?))
      = ((do return Meaning.ofRule p (← children.meaning?) : Except BadEscape _).mapError _).map _
    rw [ih]
    cases children.meaning? with
    | error e => rfl
    | ok parts => exact congrArg Except.ok (Meaning.ofRule_placed f p parts)
  case nil => rfl
  case cons =>
    intro s ss tree rest ihTree ihRest
    rw [Forest.placed]
    change (do return (← (tree.placed f g).meaning?, ← (rest.placed f g).meaning?))
      = ((do return (← tree.meaning?, ← rest.meaning?) : Except BadEscape _).mapError _).map _
    rw [ihTree, ihRest]
    cases tree.meaning? with
    | error e => rfl
    | ok m =>
      cases rest.meaning? <;> rfl

/-! ### What compiles -/

variable (h : ParseError → ParseError)

/-- A rejection in another place. What a text is rejected for before it is a program changes in
any way: a program is not rejected for it. -/
def CompileError.placed : CompileError → CompileError
  | .parse e => .parse (h e)
  | .unbound x p => .unbound x (f p)
  | e => e

theorem mapError_bind {ε α β : Type} (h : ε → ε) (x : Except ε α) (k : α → Except ε β) :
    (x >>= k).mapError h = x.mapError h >>= fun a => (k a).mapError h := by
  cases x <;> rfl

section

variable (globals : Bindings)

mutual

theorem Expr.compile_placed : ∀ (e : Expr) (scope : List Text),
    (e.placed f).compile globals scope
      = (e.compile globals scope).mapError (CompileError.placed f h)
  | .number _, _ | .string _, _ | .bool _, _ => rfl
  | .var x p, scope => by
    simp only [Expr.placed, Expr.compile, resolve]
    split
    · rfl
    · split <;> rfl
  | .func x b, scope => by
    simp only [Expr.placed, Expr.compile, mapError_bind, b.compile_placed]
    rfl
  | .apply e a, scope => by
    simp only [Expr.placed, Expr.compile, mapError_bind, e.compile_placed, a.compile_placed]
    rfl
  | .letIn x v b, scope => by
    simp only [Expr.placed, Expr.compile, mapError_bind, v.compile_placed, b.compile_placed]
    rfl
  | .ifElse c y n, scope => by
    simp only [Expr.placed, Expr.compile, mapError_bind, c.compile_placed, y.compile_placed,
      n.compile_placed]
    rfl
  | .matchWith s as, scope => by
    simp only [Expr.placed, Expr.compile, mapError_bind, s.compile_placed, as.compile_placed]
    rfl
  | .binary op _ l r, scope => by
    simp only [Expr.placed, Expr.compile, mapError_bind, l.compile_placed, r.compile_placed]
    rfl
  | .neg a, scope | .deref a, scope | .newRef a, scope => by
    simp only [Expr.placed, Expr.compile, mapError_bind, a.compile_placed]
    rfl
  | .assign t v, scope => by
    simp only [Expr.placed, Expr.compile, mapError_bind, t.compile_placed, v.compile_placed]
    rfl
  | .record fs, scope => by
    simp only [Expr.placed, Expr.compile, mapError_bind, fs.compile_placed]
    rfl
  | .update b fs, scope => by
    simp only [Expr.placed, Expr.compile, mapError_bind, b.compile_placed, fs.compile_placed]
    rfl
  | .field b x, scope | .tagged x b, scope => by
    simp only [Expr.placed, Expr.compile, mapError_bind, b.compile_placed]
    rfl

theorem Arms.compile_placed : ∀ (as : Arms) (scope tags : List Text) (closed : Bool),
    (as.placed f).compile globals scope tags closed
      = (as.compile globals scope tags closed).mapError (CompileError.placed f h)
  | .nil, _, _, _ => rfl
  | .cons tag x b rest, scope, tags, closed => by
    simp only [Arms.placed, Arms.compile]
    split
    · rfl
    · simp only [mapError_bind, b.compile_placed]
      cases tag with
      | none =>
        simp only [mapError_bind, rest.compile_placed]
        rfl
      | some t =>
        congr 1
        funext c
        dsimp only
        split
        · rfl
        · simp only [mapError_bind, rest.compile_placed]
          rfl

theorem Fields.compile_placed : ∀ (fs : Fields) (scope names : List Text),
    (fs.placed f).compile globals scope names
      = (fs.compile globals scope names).mapError (CompileError.placed f h)
  | .nil, _, _ => rfl
  | .cons x v rest, scope, names => by
    simp only [Fields.placed, Fields.compile]
    split
    · rfl
    · simp only [mapError_bind, v.compile_placed, rest.compile_placed]
      rfl

end

end

theorem Statement.compile?_placed (s : Statement) (d : Definitions) :
    (s.placed f).compile? d = (s.compile? d).mapError (CompileError.placed f h) := by
  cases s with
  | expr e =>
    simp only [placed, compile?, mapError_bind, e.compile_placed f h]
    rfl
  | define x v recursive =>
    simp only [placed, compile?, mapError_bind, v.compile_placed f h]
    rfl

theorem compileAll_placed (ss : List Statement) (d : Definitions) :
    compileAll d (ss.map (Statement.placed f))
      = (compileAll d ss).mapError (CompileError.placed f h) := by
  induction ss generalizing d with
  | nil => rfl
  | cons s ss ih =>
    simp only [List.map_cons, compileAll, mapError_bind, s.compile?_placed f h, ih]
    rfl

/-- A program in other places has the same code, or is rejected in another place. -/
theorem Program.compile?_placed (p : Program) (d : Definitions) :
    (p.placed f).compile? d = (p.compile? d).mapError (CompileError.placed f h) := by
  simp only [compile?, placed, mapError_bind, compileAll_placed f h]
  rfl

end Toplevel
