import Mathlib.Algebra.Group.Int.Defs
import Mathlib.Algebra.Group.Nat.Defs
import Toplevel.Eval.Evaluate
import Toplevel.Proofs.Syntax.Grammar
import Toplevel.Proofs.Syntax.Phrases
import Toplevel.Proofs.Syntax.Statements

/-!
# Whole numbers

Numerals denote doubles, but truth values count as whole numbers: a sum of `true` is the number of
its terms (`Code.eval_ones`), and two that is squared again and again soon has more digits than can
be displayed (`Code.eval_tower`). As a source each is one statement (`Text.isStatement_ones`,
`Text.isStatement_tower`), since its tokens are set apart.
-/

namespace Toplevel

/-! ### Statements whose tokens are set apart -/

namespace Text

def ofTokens (ts : List Token) : Text := setApart (ts.map (·.text))

theorem ofTokens_append {ts us : List Token} (hts : ts ≠ []) (hus : us ≠ []) :
    ofTokens (ts ++ us) = ofTokens ts ++ (' ' : CodePoint) :: ofTokens us := by
  induction ts with
  | nil => exact absurd rfl hts
  | cons t ts ih =>
    cases ts with
    | nil =>
      obtain ⟨u, us, rfl⟩ := List.exists_cons_of_ne_nil hus
      change setApart (t.text :: _) = setApart [t.text] ++ _
      rw [setApart_cons, setApart_cons, gap, List.append_nil]
      rfl
    | cons t' ts =>
      change setApart (t.text :: _) = setApart (t.text :: _) ++ _
      rw [setApart_cons, setApart_cons, List.append_assoc]
      exact congrArg (fun u : Text => t.text ++ (' ' : CodePoint) :: u) (ih (List.cons_ne_nil _ _))

end Text

/-- A token that is read as it is spelled, and is no semicolon. -/
structure Token.Plain (token : Token) : Prop where
  spells : token.kind.Spells token.text
  kind : token.kind ≠ .semicolon

/-- A statement whose tokens are set apart is a source of it. -/
theorem Tree.isStatement_ofTokens {tree : Tree (.nonterminal .statement)} {s : Statement}
    (hmeaning : tree.meaning? = .ok s) (hplain : ∀ token ∈ tree.tokens, token.Plain) :
    (Text.ofTokens tree.tokens).IsStatement ∧ (Text.ofTokens tree.tokens).Denotes [s] := by
  rw [← tree.tokens_single] at hplain ⊢
  obtain ⟨tree', hsource, hplaces⟩ :=
    exists_ofSource_setApart fun token h => (hplain token h).spells
  have hdenotes := Text.denotes_of_unplaced hsource hplaces (meaning?_single hmeaning)
  refine ⟨⟨hdenotes.exists_single, fun tree'' hsource' token htoken => ?_⟩, hdenotes⟩
  cases hsource.symm.trans hsource'
  have hmem := List.mem_map_of_mem (f := Token.unplaced) (List.mem_of_mem_getLast? htoken)
  rw [← tokens_unplaced, hplaces, tokens_unplaced] at hmem
  obtain ⟨token', hmem, hkind⟩ := List.mem_map.1 hmem
  rw [show token.kind = token'.kind from (congrArg Token.kind hkind).symm]
  exact (hplain token' hmem).kind

/-! ### Sums -/

namespace Tree

/-- A sum as an expression. -/
def ofSum (tree : Tree (.nonterminal .sum)) : Tree (.nonterminal .expr) :=
  .node .exprAssign (.cons (.node .assignCompare (.cons (.node .compareConcat (.cons
    (.node .concatSum (.cons tree .nil)) .nil)) .nil)) .nil)

def ofExpr (tree : Tree (.nonterminal .expr)) : Tree (.nonterminal .statement) :=
  .node .statementExpr (.cons tree .nil)

def truth : Tree (.nonterminal .product) :=
  .node .productUnary (.cons
    (ofAtom (.node .trueLit (.cons (.leaf (word .kwTrue "true")) .nil))) .nil)

/-- The sum of `n + 1` times `true`. -/
def ones : Nat → Tree (.nonterminal .sum)
  | 0 => .node .sumProduct (.cons truth .nil)
  | n + 1 => .node .plus (.cons (ones n) (.cons (.leaf (word .plus "+")) (.cons truth .nil)))

end Tree

def Expr.ones : Nat → Expr
  | 0 => .bool true
  | n + 1 => .binary .plus Position.start (ones n) (.bool true)

def Code.ones : Nat → Code
  | 0 => .bool true
  | n + 1 => .binary .plus (ones n) (.bool true)

def Text.ones : Nat → Text
  | 0 => "true"
  | n + 1 => ones n ++ " + true"

namespace Tree

theorem tokens_ofSum (tree : Tree (.nonterminal .sum)) : (ofSum tree).tokens = tree.tokens := by
  simp only [ofSum, tokens, Forest.tokens, List.append_nil]

theorem tokens_ofExpr (tree : Tree (.nonterminal .expr)) : (ofExpr tree).tokens = tree.tokens := by
  simp only [ofExpr, tokens, Forest.tokens, List.append_nil]

theorem meaning?_ofSum {tree : Tree (.nonterminal .sum)} {e : Expr} (h : tree.meaning? = .ok e) :
    (ofSum tree).meaning? = .ok e := by
  have honly : ∀ {s : Symbol} {child : Tree s} {m : Meaning s}, child.meaning? = .ok m →
      (Forest.cons child .nil).meaning? = .ok ((m, ()) : Parts Meaning [s]) :=
    fun hchild => Forest.meaning?_cons_eq_ok.2 ⟨hchild, rfl⟩
  exact meaning?_node_eq_ok.2 ⟨(e, ()), honly (meaning?_node_eq_ok.2 ⟨(e, ()), honly
    (meaning?_node_eq_ok.2 ⟨(e, ()), honly (meaning?_node_eq_ok.2 ⟨(e, ()), honly h, rfl⟩), rfl⟩),
    rfl⟩), rfl⟩

theorem meaning?_ofExpr {tree : Tree (.nonterminal .expr)} {e : Expr} (h : tree.meaning? = .ok e) :
    (ofExpr tree).meaning? = .ok (Statement.expr e) :=
  meaning?_node_eq_ok.2 ⟨(e, ()), Forest.meaning?_cons_eq_ok.2 ⟨h, rfl⟩, rfl⟩

theorem meaning?_ones (n : Nat) : (ones n).meaning? = .ok (Expr.ones n) := by
  induction n with
  | zero => rfl
  | succ n ih =>
    exact meaning?_node_eq_ok.2 ⟨(Expr.ones n, _, Expr.bool true, ()),
      Forest.meaning?_cons_eq_ok.2 ⟨ih, Forest.meaning?_cons_eq_ok.2 ⟨rfl,
        Forest.meaning?_cons_eq_ok.2 ⟨rfl, rfl⟩⟩⟩, rfl⟩

theorem tokens_ne_nil {s : Symbol} (tree : Tree s) : tree.tokens ≠ [] := by
  obtain ⟨token, rest, htokens, -⟩ := tree.head_starts
  rw [htokens]
  exact List.cons_ne_nil _ _

theorem ofTokens_ones (n : Nat) : Text.ofTokens (ones n).tokens = Text.ones n := by
  induction n with
  | zero => rfl
  | succ n ih =>
    have htokens : (ones (n + 1)).tokens
        = (ones n).tokens ++ [word .plus "+", word .kwTrue "true"] := rfl
    rw [htokens, Text.ofTokens_append (ones n).tokens_ne_nil (List.cons_ne_nil _ _), ih]
    rfl

theorem plain_word {kind : Terminal} {text : Text} (h : kind.lexeme? text = some (text, []))
    (hname : kind ≠ .name) (hsemicolon : kind ≠ .semicolon) : (word kind text).Plain :=
  ⟨⟨h, fun hkind => absurd hkind hname⟩, hsemicolon⟩

theorem plain_name : (word .name "x").Plain :=
  ⟨⟨rfl, fun _ t => by cases t <;> decide⟩, nofun⟩

theorem plain_ones (n : Nat) : ∀ token ∈ (ones n).tokens, token.Plain := by
  have htrue : (word .kwTrue "true").Plain := plain_word rfl nofun nofun
  have hplus : (word .plus "+").Plain := plain_word rfl nofun nofun
  induction n with
  | zero => exact List.forall_mem_singleton.2 htrue
  | succ n ih =>
    exact List.forall_mem_append.2 ⟨ih, List.forall_mem_cons.2 ⟨hplus,
      List.forall_mem_cons.2 ⟨htrue, List.forall_mem_nil _⟩⟩⟩

end Tree

theorem Text.isStatement_ones (n : Nat) :
    (Text.ones n).IsStatement ∧ (Text.ones n).Denotes [.expr (Expr.ones n)] := by
  rw [← Tree.ofTokens_ones, ← Tree.tokens_ofSum, ← Tree.tokens_ofExpr]
  refine Tree.isStatement_ofTokens
    (Tree.meaning?_ofExpr (Tree.meaning?_ofSum (Tree.meaning?_ones n))) ?_
  rw [Tree.tokens_ofExpr, Tree.tokens_ofSum]
  exact Tree.plain_ones n

section

variable (n : Nat)

theorem Expr.hasCode_ones {globals : Bindings} {scope : List Text} :
    (Expr.ones n).HasCode globals scope (Code.ones n) := by
  induction n with
  | zero => exact .bool true
  | succ n ih => exact .binary .plus _ ih (.bool true)

theorem Expr.compile_ones (globals : Bindings) (scope : List Text) :
    (Expr.ones n).compile globals scope = .ok (Code.ones n) :=
  (Expr.hasCode_ones n).compile

theorem Code.nesting_ones : (Code.ones n).nesting = n := by
  induction n with
  | zero => rfl
  | succ n ih =>
    have hnesting : (Code.ones (n + 1)).nesting = 1 + max (Code.ones n).nesting 0 := rfl
    omega

def Value.ones : Nat → Value
  | 0 => .bool true
  | n + 1 => .int (n + 2)

theorem Value.ofValue?_ones : Numeric.ofValue? (Value.ones n) = some (.int (n + 1)) := by
  cases n <;> rfl

theorem Value.atomText_ones_zero : (Value.ones 0).atomText = .ok "true" := rfl

theorem Value.ones_ne_object (a : Nat) : Value.ones n ≠ .object a := by
  cases n <;> exact fun h => (nomatch h)

end

section

variable {β : Type} {close : Code → β} {apply : Value → Value → Run β Value} {env : Env}
  {m : Machine β}

/-- An operator between operands that leave the machine as it is. -/
theorem Code.eval_binary {op : Operator} {l r : Code} {v w x : Value}
    (hl : l.eval close apply env m = (.ok v, m)) (hr : r.eval close apply env m = (.ok w, m))
    (h : m.heap.operate op v w = .ok x) :
    (Code.binary op l r).eval close apply env m = (.ok x, m) := by
  rw [Code.eval, Run.bind_ok hl, Run.bind_ok hr, Run.ask, h]

theorem Heap.operate_plus {h : Heap β} {v w : Value} {a b : Int}
    (hv : Numeric.ofValue? v = some (.int a)) (hw : Numeric.ofValue? w = some (.int b)) :
    h.operate .plus v w = .ok (.int (a + b)) := by
  unfold Heap.operate
  simp only [hv, hw]
  rfl

theorem Heap.operate_times {h : Heap β} {v w : Value} {a b : Int}
    (hv : Numeric.ofValue? v = some (.int a)) (hw : Numeric.ofValue? w = some (.int b)) :
    h.operate .times v w = .ok (.int (a * b)) := by
  unfold Heap.operate
  simp only [hv, hw]
  rfl

theorem Code.eval_ones (n : Nat) :
    (Code.ones n).eval close apply env m = (.ok (Value.ones n), m) := by
  induction n with
  | zero => rfl
  | succ n ih =>
    refine Code.eval_binary ih rfl ((Heap.operate_plus (Value.ofValue?_ones n) rfl).trans ?_)
    rw [Value.ones, Int.add_assoc]
    rfl

end

/-! ### Squares -/

namespace Tree

def named : Tree (.nonterminal .unary) :=
  ofAtom (.node .var (.cons (.leaf (word .name "x")) .nil))

def square : Tree (.nonterminal .product) :=
  .node .product (.cons (.node .productUnary (.cons named .nil))
    (.cons (.leaf (word .productOp "*")) (.cons named .nil)))

def bound (value body : Tree (.nonterminal .expr)) : Tree (.nonterminal .expr) :=
  .node .letIn (.cons (.leaf (word .kwLet "let")) (.cons (.leaf (word .name "x"))
    (.cons (.leaf (word .equals "=")) (.cons value (.cons (.leaf (word .kwIn "in"))
      (.cons body .nil))))))

/-- What `x` is after it has been squared `n` times. -/
def squares : Nat → Tree (.nonterminal .expr)
  | 0 => ofSum (.node .sumProduct (.cons (.node .productUnary (.cons named .nil)) .nil))
  | n + 1 => bound (ofSum (.node .sumProduct (.cons square .nil))) (squares n)

end Tree

def Expr.squares : Nat → Expr
  | 0 => .var "x" Position.start
  | n + 1 =>
    .letIn "x" (.binary .times Position.start (.var "x" Position.start) (.var "x" Position.start))
      (squares n)

def Code.squares : Nat → Code
  | 0 => .localVar "x"
  | n + 1 => .call (.lambda "x" (squares n)) (.binary .times (.localVar "x") (.localVar "x"))

/-- The source of a number after it has been squared `n` times. -/
def Text.squares : Nat → Text
  | 0 => "x"
  | n + 1 => "let x = x * x in " ++ squares n

namespace Tree

theorem meaning?_bound {value body : Tree (.nonterminal .expr)} {v b : Expr}
    (hv : value.meaning? = .ok v) (hb : body.meaning? = .ok b) :
    (bound value body).meaning? = .ok (Expr.letIn "x" v b) :=
  meaning?_node_eq_ok.2 ⟨(_, _, _, v, _, b, ()), Forest.meaning?_cons_eq_ok.2 ⟨rfl,
    Forest.meaning?_cons_eq_ok.2 ⟨rfl, Forest.meaning?_cons_eq_ok.2 ⟨rfl,
      Forest.meaning?_cons_eq_ok.2 ⟨hv, Forest.meaning?_cons_eq_ok.2 ⟨rfl,
        Forest.meaning?_cons_eq_ok.2 ⟨hb, rfl⟩⟩⟩⟩⟩⟩, rfl⟩

theorem meaning?_squares (n : Nat) : (squares n).meaning? = .ok (Expr.squares n) := by
  induction n with
  | zero => rfl
  | succ n ih => exact meaning?_bound (meaning?_ofSum rfl) ih

theorem tokens_bound (value body : Tree (.nonterminal .expr)) : (bound value body).tokens
    = [word .kwLet "let", word .name "x", word .equals "="]
      ++ (value.tokens ++ ([word .kwIn "in"] ++ body.tokens)) := by
  simp [bound, Tree.tokens, Forest.tokens]

theorem ofTokens_bound (value body : Tree (.nonterminal .expr)) :
    Text.ofTokens (bound value body).tokens = "let x = " ++ Text.ofTokens value.tokens ++ " in "
      ++ Text.ofTokens body.tokens := by
  have hin : [word .kwIn "in"] ++ body.tokens ≠ [] := List.cons_ne_nil _ _
  rw [tokens_bound, Text.ofTokens_append (List.cons_ne_nil _ _)
    (List.append_ne_nil_of_right_ne_nil _ hin), Text.ofTokens_append value.tokens_ne_nil hin,
    Text.ofTokens_append (List.cons_ne_nil _ _) body.tokens_ne_nil]
  simp only [List.append_assoc]
  rfl

theorem ofTokens_squares (n : Nat) : Text.ofTokens (squares n).tokens = Text.squares n := by
  induction n with
  | zero => rfl
  | succ n ih =>
    rw [squares, ofTokens_bound, ih]
    rfl

theorem plain_bound {value body : Tree (.nonterminal .expr)}
    (hvalue : ∀ token ∈ value.tokens, token.Plain) (hbody : ∀ token ∈ body.tokens, token.Plain) :
    ∀ token ∈ (bound value body).tokens, token.Plain := by
  rw [tokens_bound]
  refine List.forall_mem_append.2 ⟨?_, List.forall_mem_append.2 ⟨hvalue,
    List.forall_mem_append.2 ⟨?_, hbody⟩⟩⟩
  · exact List.forall_mem_cons.2 ⟨plain_word rfl nofun nofun, List.forall_mem_cons.2
      ⟨plain_name, List.forall_mem_singleton.2 (plain_word rfl nofun nofun)⟩⟩
  · exact List.forall_mem_singleton.2 (plain_word rfl nofun nofun)

theorem plain_squares (n : Nat) : ∀ token ∈ (squares n).tokens, token.Plain := by
  induction n with
  | zero => exact List.forall_mem_singleton.2 plain_name
  | succ n ih =>
    refine plain_bound (List.forall_mem_cons.2 ⟨plain_name, List.forall_mem_cons.2
      ⟨plain_word rfl nofun nofun, List.forall_mem_singleton.2 plain_name⟩⟩) ih

end Tree

section

variable (n : Nat)

theorem Expr.hasCode_squares {globals : Bindings} {scope : List Text}
    (h : ("x" : Text) ∈ scope) : (Expr.squares n).HasCode globals scope (Code.squares n) := by
  induction n generalizing scope with
  | zero => exact .localVar h _
  | succ n ih =>
    exact .letIn (.binary .times _ (.localVar h _) (.localVar h _)) (ih List.mem_cons_self)

theorem Code.nesting_squares_le : (Code.squares n).nesting ≤ n + 2 := by
  induction n with
  | zero => exact Nat.zero_le _
  | succ n ih =>
    have hnesting : (Code.squares (n + 1)).nesting
        = max (1 + (Code.squares n).nesting) (1 + (1 + max 0 0)) := rfl
    omega

theorem Code.eval_squares {β : Type} {close : Code → β} {apply : Value → Value → Run β Value}
    {env : Env} {m : Machine β} {a : Int} (h : env.lookup ("x" : Text) = some (Value.int a)) :
    (Code.squares n).eval close apply env m = (.ok (.int (a ^ 2 ^ n)), m) := by
  have hx : ∀ {env : Env} {a : Int}, env.lookup ("x" : Text) = some (Value.int a) →
      (Code.localVar "x").eval close apply env m = (.ok (.int a), m) := by
    intro env a h
    rw [Code.eval, Run.lookup, h]
    rfl
  induction n generalizing env a with
  | zero => rw [Code.squares, hx h, Nat.pow_zero, Int.pow_one]
  | succ n ih =>
    rw [Code.squares, Code.eval, Run.bind_ok (Code.eval_binary (hx h) (hx h)
      (Heap.operate_times rfl rfl)), ih rfl, ← pow_two, ← pow_mul, ← Nat.pow_succ']

end

/-- The source of two after it has been squared `n` times. -/
def Text.tower (n : Nat) : Text := "let x = true + true in " ++ Text.squares n

theorem Text.isStatement_tower (n : Nat) : (Text.tower n).IsStatement
    ∧ (Text.tower n).Denotes [.expr (.letIn "x" (Expr.ones 1) (Expr.squares n))] := by
  have htokens : Text.ofTokens (Tree.ofExpr (Tree.bound (Tree.ofSum (Tree.ones 1))
      (Tree.squares n))).tokens = Text.tower n := by
    rw [Tree.tokens_ofExpr, Tree.ofTokens_bound, Tree.tokens_ofSum, Tree.ofTokens_ones,
      Tree.ofTokens_squares]
    rfl
  rw [← htokens]
  refine Tree.isStatement_ofTokens (Tree.meaning?_ofExpr (Tree.meaning?_bound
    (Tree.meaning?_ofSum (Tree.meaning?_ones 1)) (Tree.meaning?_squares n))) ?_
  rw [Tree.tokens_ofExpr]
  refine Tree.plain_bound ?_ (Tree.plain_squares n)
  rw [Tree.tokens_ofSum]
  exact Tree.plain_ones 1

def Code.tower (n : Nat) : Code := .call (.lambda "x" (Code.squares n)) (Code.ones 1)

theorem Expr.compile_tower (n : Nat) (globals : Bindings) (scope : List Text) :
    (Expr.letIn "x" (Expr.ones 1) (Expr.squares n)).compile globals scope
      = .ok (Code.tower n) :=
  (Expr.HasCode.letIn (Expr.hasCode_ones 1) (Expr.hasCode_squares n List.mem_cons_self)).compile

theorem Code.nesting_tower_le (n : Nat) : (Code.tower n).nesting ≤ n + 3 := by
  have hsquares := Code.nesting_squares_le n
  have hones := Code.nesting_ones 1
  have hnesting : (Code.tower n).nesting
      = max (1 + (Code.squares n).nesting) (1 + (Code.ones 1).nesting) := rfl
  omega

theorem Code.eval_tower {β : Type} {close : Code → β} {apply : Value → Value → Run β Value}
    {env : Env} {m : Machine β} (n : Nat) :
    (Code.tower n).eval close apply env m = (.ok (.int (2 ^ 2 ^ n)), m) := by
  exact (Run.bind_ok (Code.eval_ones 1)).trans (Code.eval_squares n rfl)

/-- A value that is no object is displayed by itself. -/
theorem Heap.display_atom {β : Type} (h : Heap β) {v : Value} (hv : ∀ a, v ≠ .object a) :
    h.display v = v.atomText := by
  have hdrain : drain h Display.empty [.value v] = (do
      return (Display.empty.write (← v.atomText), none)) := by
    cases v <;> first | exact absurd rfl (hv _) | rfl
  rw [Heap.display, Display.add, Display.addWithin, writeAll, hdrain]
  rcases v.atomText with e | t
  · rfl
  · exact congrArg Except.ok (List.append_nil t)

end Toplevel
