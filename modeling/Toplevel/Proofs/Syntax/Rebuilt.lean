import Toplevel.CommandLine.Program
import Toplevel.Proofs.Code.EqualTrees
import Toplevel.Proofs.Syntax.Outline

/-!
# Programs from outlines

What a derivation means can be put together again from its outline, phrase by phrase
(`Tree.built_shown`): the words and marks that an outline leaves out, and the helper phrases in
whose place it shows their parts, make no difference. So sources with the same outline are equal
programs (`outline_exact`).
-/

namespace Toplevel

/-! ### Outlines of derivations -/

/-- What an outline shows for some trees, one after another. -/
def Forest.shown {ss : List Symbol} : Forest ss → List Shown
  | .nil => []
  | .cons tree rest => tree.shown :: rest.shown

theorem Tree.fold_eq_shown {s : Symbol} (tree : Tree s) :
    tree.fold (ε := Empty) (M := fun _ => Shown) (fun token => .ok (Shown.ofToken token))
      (fun p parts => Shown.ofRule p parts.toList) = .ok tree.shown := by
  unfold Tree.shown
  split
  assumption

theorem Forest.exists_fold_shown : ∀ {ss : List Symbol} (forest : Forest ss),
    ∃ parts : Parts (fun _ => Shown) ss,
      forest.fold (ε := Empty) (fun token => .ok (Shown.ofToken token))
        (fun p parts => Shown.ofRule p parts.toList) = .ok parts
      ∧ parts.toList = forest.shown
  | _, .nil => ⟨(), rfl, rfl⟩
  | _, .cons tree rest => by
    obtain ⟨parts, hparts, hshown⟩ := rest.exists_fold_shown
    refine ⟨(tree.shown, parts), ?_, congrArg (tree.shown :: ·) hshown⟩
    rw [Forest.fold, tree.fold_eq_shown, hparts]
    rfl

theorem Tree.shown_node (p : Production) (children : Forest p.rhs) :
    (Tree.node p children).shown = Shown.ofRule p children.shown := by
  obtain ⟨parts, hparts, hshown⟩ := children.exists_fold_shown
  have hnode := (Tree.node p children).fold_eq_shown
  rw [Tree.fold, hparts] at hnode
  exact (Except.ok.inj hnode).symm.trans (congrArg (Shown.ofRule p) hshown)

theorem Terminal.isLabel_of_label? {t : Terminal} {label : Text} (h : t.label? = some label) :
    label.IsLabel := by
  have hall : ∀ t ∈ Terminal.all, ∀ label ∈ t.label?, label.IsLabel := by decide
  exact hall t t.mem_all label h

theorem Production.isLabel_of_label? {p : Production} {label : Text} (h : p.label? = some label) :
    label.IsLabel := by
  have hall : ∀ p ∈ Production.all, ∀ label ∈ p.label?, label.IsLabel := by decide
  exact hall p p.mem_all label h

namespace Shown

theorem items_ofToken (token : Token) : (ofToken token).items
    = (token.kind.label?.map fun label =>
        Outline.token label token.text token.position).toList := by
  unfold ofToken
  cases token.kind.label? <;> rfl

theorem items_ofRule (p : Production) (parts : List Shown) : (ofRule p parts).items
    = match p.label? with
      | none => parts.flatMap items
      | some label =>
        [.node label ((parts.head?.map position).getD Position.start) (parts.flatMap items)] := by
  unfold ofRule
  cases p.label? <;> rfl

end Shown

theorem Shown.labeled_ofRule (p : Production) {parts : List Shown}
    (h : Outline.AllLabeled (parts.flatMap Shown.items)) :
    Outline.AllLabeled (Shown.ofRule p parts).items := by
  rw [items_ofRule]
  cases hlabel : p.label? with
  | none => exact h
  | some label => exact ⟨⟨Production.isLabel_of_label? hlabel, h⟩, trivial⟩

theorem Tree.labeled_shown {s : Symbol} (tree : Tree s) :
    Outline.AllLabeled tree.shown.items := by
  refine @Tree.rec
    (fun _ tree => Outline.AllLabeled tree.shown.items)
    (fun _ forest => Outline.AllLabeled (forest.shown.flatMap Shown.items))
    ?leaf ?node ?nil ?cons _ tree
  case leaf =>
    intro token
    change Outline.AllLabeled (Shown.ofToken token).items
    rw [Shown.items_ofToken]
    cases hlabel : token.kind.label? with
    | none => trivial
    | some label => exact ⟨Terminal.isLabel_of_label? hlabel, trivial⟩
  case node =>
    intro p children ih
    rw [Tree.shown_node]
    exact Shown.labeled_ofRule p ih
  case nil => trivial
  case cons =>
    intro s ss tree rest ihTree ihRest
    rw [Forest.shown, List.flatMap_cons]
    exact Outline.allLabeled_append.2 ⟨ihTree, ihRest⟩

/-- A program is shown as one outline. -/
theorem Tree.exists_shown_program (tree : Tree (.nonterminal .program)) :
    ∃ o, tree.shown.items = [o] := by
  obtain ⟨children, rfl⟩ := tree.program_cases
  exact ⟨_, congrArg Shown.items (Tree.shown_node .program children)⟩

/-! ### Places -/

namespace Shown

def unplaced (x : Shown) : Shown := ⟨Outline.unplacedAll x.items, Position.start⟩

theorem ofToken_unplaced (token : Token) : ofToken token.unplaced = (ofToken token).unplaced := by
  unfold ofToken unplaced Token.unplaced
  cases token.kind.label? <;> rfl

end Shown

theorem Outline.unplacedAll_append (os os' : List Outline) :
    unplacedAll (os ++ os') = unplacedAll os ++ unplacedAll os' := by
  induction os with
  | nil => rfl
  | cons o os ih => rw [List.cons_append, unplacedAll, ih, unplacedAll, List.cons_append]

theorem Shown.ofRule_unplaced (p : Production) (parts : List Shown) :
    ofRule p (parts.map unplaced) = (ofRule p parts).unplaced := by
  have hitems : (parts.map unplaced).flatMap items = Outline.unplacedAll (parts.flatMap items) := by
    induction parts with
    | nil => rfl
    | cons x parts ih =>
      rw [List.map_cons, List.flatMap_cons, ih, List.flatMap_cons, Outline.unplacedAll_append]
      rfl
  have hposition : (((parts.map unplaced).head?.map position).getD Position.start)
      = Position.start := by
    cases parts <;> rfl
  unfold ofRule
  rw [hitems, hposition]
  cases p.label? <;> rfl

theorem Tree.shown_unplaced {s : Symbol} (tree : Tree s) :
    tree.unplaced.shown = tree.shown.unplaced := by
  refine @Tree.rec
    (fun _ tree => tree.unplaced.shown = tree.shown.unplaced)
    (fun _ forest => forest.unplaced.shown = forest.shown.map Shown.unplaced)
    ?leaf ?node ?nil ?cons _ tree
  case leaf => exact Shown.ofToken_unplaced
  case node =>
    intro p children ih
    rw [Tree.unplaced, Tree.shown_node, Tree.shown_node, ih, Shown.ofRule_unplaced]
  case nil => rfl
  case cons =>
    intro s ss tree rest ihTree ihRest
    rw [Forest.unplaced, Forest.shown, Forest.shown, List.map_cons, ihTree, ihRest]

/-! ### What outlines mean -/

/-- What a part of an outline stands for. -/
inductive Built where
  | program (p : Program)
  | statement (s : Statement)
  | arm (tag : Option Text) (name : Text) (body : Expr)
  | pattern (tag : Option Text) (name : Text)
  | field (name : Text) (value : Expr)
  | word (label : Text) (w : Word)

namespace Built

@[match_pattern]
def expr (e : Expr) : Built := statement (.expr e)

def statements? : List Built → Option (List Statement)
  | [] => some []
  | statement s :: parts => (statements? parts).map (s :: ·)
  | _ => none

def arms? : List Built → Option Arms
  | [] => some .nil
  | arm tag x b :: parts => (arms? parts).map (.cons tag x b ·)
  | _ => none

def fields? : List Built → Option Fields
  | [] => some .nil
  | field x v :: parts => (fields? parts).map (.cons x v ·)
  | _ => none

/-- The operator that a token is, with the kinds of tokens kept apart. -/
def operator (label text : Text) : BinaryOp :=
  if label = "CMP_OP" then BinaryOp.find BinaryOp.comparisons text .greater
  else if label = "CONCAT_OP" then .concat
  else if label = "PLUS" then .plus
  else if label = "MINUS" then .minus
  else BinaryOp.find BinaryOp.products text .remainder

/-- What the phrases stand for, from what their parts stand for. -/
def rules : List (Text × (List Built → Option Built)) :=
  [("start", fun parts => (statements? parts).map fun ss => program ⟨ss⟩),
    ("let_def", fun
      | [word _ x, expr v] => some (statement (.define x.text v false))
      | _ => none),
    ("let_rec_def", fun
      | [word _ x, expr v] => some (statement (.define x.text v true))
      | _ => none),
    ("func", fun
      | [word _ x, expr b] => some (expr (.func x.text b))
      | _ => none),
    ("let_in", fun
      | [word _ x, expr v, expr b] => some (expr (.letIn x.text v b))
      | _ => none),
    ("if_expr", fun
      | [expr c, expr y, expr n] => some (expr (.ifElse c y n))
      | _ => none),
    ("match_expr", fun
      | expr s :: parts => (arms? parts).map fun as => expr (.matchWith s as)
      | _ => none),
    ("arm", fun
      | [pattern tag x, expr b] => some (arm tag x b)
      | _ => none),
    ("tag_pattern", fun
      | [word _ t, word _ x] => some (pattern (some t.text) x.text)
      | _ => none),
    ("any_pattern", fun
      | [word _ x] => some (pattern none x.text)
      | _ => none),
    ("assign", fun
      | [expr t, expr v] => some (expr (.assign t v))
      | _ => none),
    ("binary_op", fun
      | [expr l, word label op, expr r] =>
        some (expr (.binary (operator label op.text) op.position l r))
      | _ => none),
    ("neg", fun
      | [word _ _, expr e] => some (expr (.neg e))
      | _ => none),
    ("deref", fun
      | [expr e] => some (expr (.deref e))
      | _ => none),
    ("apply", fun
      | [expr f, expr a] => some (expr (.apply f a))
      | _ => none),
    ("tagged", fun
      | [word _ t, expr e] => some (expr (.tagged t.text e))
      | _ => none),
    ("new_ref", fun
      | [expr e] => some (expr (.newRef e))
      | _ => none),
    ("field_access", fun
      | [expr e, word _ x] => some (expr (.field e x.text))
      | _ => none),
    ("number", fun
      | [word _ n] => some (expr (.number (floatOfLiteral n.text)))
      | _ => none),
    ("string", fun
      | [word _ s] => some (expr (.string s.text))
      | _ => none),
    ("true", fun _ => some (expr (.bool true))),
    ("false", fun _ => some (expr (.bool false))),
    ("var", fun
      | [word _ x] => some (expr (.var x.text x.position))
      | _ => none),
    ("record", fun parts => (fields? parts).map fun fs => expr (.record fs)),
    ("record_update", fun
      | expr b :: parts => (fields? parts).map fun fs => expr (.update b fs)
      | _ => none),
    ("field_def", fun
      | [word _ x, expr v] => some (field x.text v)
      | _ => none)]

def ofNode? (label : Text) (parts : List Built) : Option Built :=
  (rules.lookup label).bind (· parts)

/-- A string literal stands for the text that it denotes. -/
def ofToken? (label text : Text) (position : Position) : Option Built :=
  if label = "ESCAPED_STRING" then
    (Text.unescape? (text.drop 1).dropLast).map fun s => word label ⟨s, position⟩
  else some (word label ⟨text, position⟩)

end Built

mutual

def Outline.built? : Outline → Option Built
  | .token label text position => Built.ofToken? label text position
  | .node label _ children => (Outline.builtAll? children).bind (Built.ofNode? label)

def Outline.builtAll? : List Outline → Option (List Built)
  | [] => some []
  | o :: os => o.built?.bind fun b => (Outline.builtAll? os).map (b :: ·)

end

def Arms.built : Arms → List Built
  | .nil => []
  | .cons tag x b rest => .arm tag x b :: rest.built

def Fields.built : Fields → List Built
  | .nil => []
  | .cons x v rest => .field x v :: rest.built

/-- What the outline of a symbol with some meaning stands for. -/
def Meaning.built : (s : Symbol) → Meaning s → List Built
  | .terminal t => fun w => (t.label?.map fun label => Built.word label w).toList
  | .nonterminal .program => fun p => [.program p]
  | .nonterminal .statements | .nonterminal .moreStatements => List.map Built.statement
  | .nonterminal .statement => fun s => [.statement s]
  | .nonterminal .arms | .nonterminal .arm => Arms.built
  | .nonterminal .pattern => fun p => [.pattern p.1 p.2]
  | .nonterminal .moreFields | .nonterminal .field => Fields.built
  | .nonterminal .expr | .nonterminal .assign | .nonterminal .compare | .nonterminal .concat
  | .nonterminal .sum | .nonterminal .product | .nonterminal .unary | .nonterminal .call
  | .nonterminal .tagged | .nonterminal .simple | .nonterminal .atom => fun e => [.expr e]

def Parts.built : {ss : List Symbol} → Parts Meaning ss → List Built
  | [], () => []
  | s :: _, (m, ms) => Meaning.built s m ++ Parts.built ms

/-- What a rule makes of the parts of a phrase. -/
def Built.ofRule? (p : Production) (parts : List Built) : Option (List Built) :=
  match p.label? with
  | none => some parts
  | some label => (Built.ofNode? label parts).map ([·])

/-! #### Lists of parts -/

namespace Built

theorem statements?_map (ss : List Statement) : statements? (ss.map statement ++ []) = some ss := by
  rw [List.append_nil]
  induction ss with
  | nil => rfl
  | cons s ss ih => rw [List.map_cons, statements?, ih, Option.map_some]

theorem map_append_statement (ss : List Statement) (s : Statement) :
    ss.map statement ++ ([statement s] ++ []) = (List.append ss [s]).map statement := by
  rw [List.append_eq, List.map_append]
  rfl

end Built

namespace Arms

theorem arms?_built (as : Arms) : Built.arms? (as.built ++ []) = some as := by
  fun_induction built as with
  | case1 => rfl
  | case2 tag x b rest ih =>
    rw [List.cons_append, Built.arms?, ih]
    rfl

theorem built_append : ∀ as bs : Arms, as.built ++ (bs.built ++ []) = (as.append bs).built
  | .nil, bs => List.append_nil bs.built
  | .cons _ _ _ rest, bs => by rw [append, built, built, List.cons_append, rest.built_append]

end Arms

namespace Fields

theorem fields?_built (fs : Fields) : Built.fields? (fs.built ++ []) = some fs := by
  fun_induction built fs with
  | case1 => rfl
  | case2 x v rest ih =>
    rw [List.cons_append, Built.fields?, ih]
    rfl

theorem built_append : ∀ fs gs : Fields, fs.built ++ (gs.built ++ []) = (fs.append gs).built
  | .nil, gs => List.append_nil gs.built
  | .cons _ _ rest, gs => by rw [append, built, built, List.cons_append, rest.built_append]

theorem fields?_append (fs gs : Fields) :
    Built.fields? (fs.built ++ (gs.built ++ [])) = some (fs.append gs) := by
  rw [built_append, ← List.append_nil (fs.append gs).built, fields?_built]

end Fields

theorem BinaryOp.find_singleton (op : BinaryOp) (t : Text) : find [op] t op = op := by
  unfold find
  rw [List.find?_singleton]
  split <;> rfl

/-! #### Phrases -/

/-- One phrase is made of a list of parts. -/
theorem Built.map_singleton {α : Type} {r : Option α} {a : α} (h : r = some a) (f : α → Built) :
    (r.map f).map ([·]) = some [f a] := by
  rw [h]
  rfl

/-- The outline of a phrase stands for what the phrase means, if those of its parts do. -/
theorem Meaning.built_ofRule (p : Production) (parts : Parts Meaning p.rhs) :
    Built.ofRule? p parts.built = some (Meaning.built _ (Meaning.ofRule p parts)) := by
  -- Where a kind of token is one operator only, the text of the token is not asked.
  have hoperator : ∀ (o : BinaryOp) (op : Word) (l r : Expr),
      some [Built.expr (.binary o op.position l r)]
        = some [Built.expr (.binary (BinaryOp.find [o] op.text o) op.position l r)] := by
    intro o op l r
    rw [BinaryOp.find_singleton]
  cases p with
  | program => exact Built.map_singleton (Built.statements?_map parts.1) _
  | statementsMoreEnd | statementsMore =>
    exact congrArg (fun bs => some (Built.statement parts.1 :: bs)) (List.append_nil _)
  | moreStatementsNext =>
    exact congrArg some (Built.map_append_statement parts.1 parts.2.2.1)
  | matchWith =>
    obtain ⟨-, s, -, as, -⟩ := parts
    exact Built.map_singleton (Arms.arms?_built as) _
  | armsOne | moreFieldsOne => exact congrArg some (List.append_nil _)
  | armsNext => exact congrArg some (Arms.built_append parts.1 parts.2.1)
  | moreFieldsNext => exact congrArg some (Fields.built_append parts.1 parts.2.2.1)
  | concat => exact hoperator .concat parts.2.1 parts.1 parts.2.2.1
  | plus => exact hoperator .plus parts.2.1 parts.1 parts.2.2.1
  | minus => exact hoperator .minus parts.2.1 parts.1 parts.2.2.1
  | recordOne | recordOneEnd => exact Built.map_singleton (Fields.fields?_built parts.2.1) _
  | recordMore | recordMoreEnd =>
    obtain ⟨-, f, fs, -⟩ := parts
    exact Built.map_singleton (Fields.fields?_append f fs) _
  | updateOne | updateOneEnd =>
    obtain ⟨-, b, -, f, -⟩ := parts
    exact Built.map_singleton (Fields.fields?_built f) _
  | updateMore | updateMoreEnd =>
    obtain ⟨-, b, -, f, fs, -⟩ := parts
    exact Built.map_singleton (Fields.fields?_append f fs) _
  | _ => rfl

/-! #### Outlines of trees -/

theorem Outline.builtAll?_append (os os' : List Outline) {bs bs' : List Built}
    (h : builtAll? os = some bs) (h' : builtAll? os' = some bs') :
    builtAll? (os ++ os') = some (bs ++ bs') := by
  induction os generalizing bs with
  | nil =>
    cases h
    exact h'
  | cons o os ih =>
    rw [builtAll?] at h
    obtain ⟨b, hb, h⟩ := Option.bind_eq_some_iff.1 h
    obtain ⟨cs, hcs, rfl⟩ := Option.map_eq_some_iff.1 h
    rw [List.cons_append, builtAll?, hb, Option.bind_some, ih hcs]
    rfl

/-- What a rule shows stands for what the rule makes of the parts. -/
theorem Shown.built_ofRule (p : Production) {parts : List Shown} {bs : List Built}
    (h : Outline.builtAll? (parts.flatMap Shown.items) = some bs) :
    Outline.builtAll? (Shown.ofRule p parts).items = Built.ofRule? p bs := by
  rw [items_ofRule]
  unfold Built.ofRule?
  cases p.label? with
  | none => exact h
  | some label =>
    simp only [Outline.builtAll?, Outline.built?, h, Option.bind_some]
    cases Built.ofNode? label bs <;> rfl

theorem Shown.built_ofToken {token : Token} {w : Word} (h : Meaning.ofToken token = .ok w) :
    Outline.builtAll? (Shown.ofToken token).items
      = some (Meaning.built (.terminal token.kind) w) := by
  have hall : ∀ t ∈ Terminal.all, ∀ label ∈ t.label?,
      (label = ("ESCAPED_STRING" : Text) ↔ t = .string) := by decide
  rw [items_ofToken]
  change _ = some (token.kind.label?.map fun label => Built.word label w).toList
  cases hlabel : token.kind.label? with
  | none => rfl
  | some label =>
    have hstring := hall token.kind token.kind.mem_all label hlabel
    have htoken : Built.ofToken? label token.text token.position = some (.word label w) := by
      unfold Meaning.ofToken at h
      unfold Built.ofToken?
      simp only [hstring]
      split at h
      · rename_i hkind
        rw [if_pos hkind]
        split at h
        · rename_i s hs
          cases h
          rw [hs]
          rfl
        · cases h
      · rename_i hkind
        cases h
        rw [if_neg hkind]
    change (Built.ofToken? label token.text token.position).bind _ = _
    rw [htoken]
    rfl

theorem Tree.built_shown {s : Symbol} (tree : Tree s) {m : Meaning s}
    (h : tree.meaning? = .ok m) :
    Outline.builtAll? tree.shown.items = some (Meaning.built s m) := by
  refine meaning?_induction
    (P := fun s tree m => Outline.builtAll? tree.shown.items = some (Meaning.built s m))
    (Q := fun _ forest ms =>
      Outline.builtAll? (forest.shown.flatMap Shown.items) = some (Parts.built ms))
    ?leaf ?node ?nil ?cons h
  case leaf => exact fun token w hw => Shown.built_ofToken hw
  case node =>
    intro p children parts _ ih
    rw [Tree.shown_node, Shown.built_ofRule p ih, Meaning.built_ofRule]
  case nil => rfl
  case cons =>
    intro s ss tree rest m ms ihTree ihRest
    rw [Forest.shown, List.flatMap_cons]
    exact Outline.builtAll?_append _ _ ihTree ihRest

/-! ### Outlines and programs -/

/-- The lines that are written for a tree. -/
def Tree.lines (positions : Bool) {s : Symbol} (tree : Tree s) : List Text :=
  Outline.linesAll positions 0 tree.shown.items

theorem Tree.lines_unplaced {s : Symbol} (tree : Tree s) :
    tree.unplaced.lines false = tree.lines false := by
  rw [lines, shown_unplaced]
  exact Outline.linesAll_unplacedAll _ 0

theorem Tree.unplaced_eq_of_lines {tree tree' : Tree (.nonterminal .program)} {p q : Program}
    (hp : tree.meaning? = .ok p) (hq : tree'.meaning? = .ok q)
    (h : tree.lines false = tree'.lines false) : p.unplaced = q.unplaced := by
  -- The lines tell the outlines but for the places, and the program has its places from them; so
  -- it is the derivations without places that have the same outline.
  have hitems : tree.unplaced.shown.items = tree'.unplaced.shown.items := by
    have hnil : Outline.Outdented 0 [] := nofun
    rw [Tree.shown_unplaced, Tree.shown_unplaced]
    exact (Outline.unplacedAll_eq_of_lines _ _ 0 [] [] tree.labeled_shown tree'.labeled_shown
      hnil hnil (congrArg (· ++ []) h)).1
  have hp' := tree.meaning?_unplaced
  have hq' := tree'.meaning?_unplaced
  rw [hp] at hp'
  rw [hq] at hq'
  have hbuilt := tree.unplaced.built_shown hp'
  rw [hitems, tree'.unplaced.built_shown hq'] at hbuilt
  have hprogram : [Built.program q.unplaced] = [Built.program p.unplaced] := Option.some.inj hbuilt
  simpa using hprogram.symm

/-- An outline loses nothing. It is written with a line for each of its tokens and phrases, from the
first to the last and a phrase before its parts, and the lines are indented by their depth and not
broken. Sources whose outlines are alike without places are equal programs. -/
theorem outline_exact :
    (∀ (source : Text) (tree : Tree (.nonterminal .program)) (positions : Bool),
      Tree.ofSource source = .ok tree →
        outlineReport source positions
            = .success ((tree.lines positions).map fun line => Text.concat [line, "\n"]).flatten
          ∧ (∃ o, tree.shown.items = [o] ∧ o.IsListedBy positions (tree.lines positions))
          ∧ ∀ line ∈ tree.lines positions, line.OneLine)
      ∧ ∀ (source source' : Text) (tree tree' : Tree (.nonterminal .program)) (p q : Program),
        Tree.ofSource source = .ok tree → Tree.ofSource source' = .ok tree' →
        parse source = .ok p → parse source' = .ok q →
        tree.lines false = tree'.lines false → p.same q := by
  constructor
  · intro source tree positions h
    refine ⟨by rw [outlineReport, h]; rfl, ?_,
      Outline.oneLine_linesAll positions _ 0 tree.labeled_shown⟩
    obtain ⟨o, ho⟩ := tree.exists_shown_program
    refine ⟨o, ho, ?_⟩
    rw [Tree.lines, ho, Outline.linesAll, Outline.linesAll, List.append_nil]
    exact o.isListedBy_lines positions
  · intro source source' tree tree' p q hsource hsource' hp hq h
    obtain ⟨_, htree, hmeaning⟩ := exists_of_parse hp
    obtain ⟨_, htree', hmeaning'⟩ := exists_of_parse hq
    cases hsource.symm.trans htree
    cases hsource'.symm.trans htree'
    exact (Program.same_iff (parse_named hp) (parse_named hq)).2
      (Tree.unplaced_eq_of_lines hmeaning hmeaning' h)

/-- A unary phrase in parentheses. -/
def Tree.inParens (tree : Tree (.nonterminal .unary)) : Tree (.nonterminal .atom) :=
  .node .parens (.cons (.leaf ⟨.leftParen, ['('], 2, ⟨1, 3⟩⟩)
    (.cons (.node .exprAssign (.cons (.node .assignCompare (.cons (.node .compareConcat
        (.cons (.node .concatSum (.cons (.node .sumProduct (.cons (.node .productUnary
          (.cons tree .nil)) .nil)) .nil)) .nil)) .nil)) .nil))
      (.cons (.leaf ⟨.rightParen, [')'], 6, ⟨1, 7⟩⟩) .nil)))

/-- The program `- ( x )`. -/
def Tree.negatedInParens : Tree (.nonterminal .program) :=
  ofUnary (.node .neg (.cons (.leaf ⟨.minus, ['-'], 0, Position.start⟩)
    (.cons (ofAtom (inParens (ofAtom
      (.node .var (.cons (.leaf ⟨.name, ['x'], 4, ⟨1, 5⟩⟩) .nil))))) .nil)))

theorem Tree.ofSource_negatedInParens :
    ∃ tree, Tree.ofSource "- ( x )" = .ok tree ∧ tree.unplaced = negatedInParens.unplaced := by
  have htext : Text.setApart (negatedInParens.tokens.map (·.text)) = "- ( x )" := by decide
  rw [← htext]
  exact exists_ofSource_setApart (by decide)

/-- Parentheses that make no difference are not in the outline. -/
theorem outline_exact_parens : ∃ tree tree' p q,
    Tree.ofSource "- x" = .ok tree ∧ Tree.ofSource "- ( x )" = .ok tree'
      ∧ parse "- x" = .ok p ∧ parse "- ( x )" = .ok q
      ∧ outlineReport "- x" false
        = .success "start\n  neg\n    MINUS '-'\n    var\n      NAME 'x'\n"
      ∧ tree.lines false = tree'.lines false ∧ p.same q := by
  obtain ⟨tree, hsource, hplaces⟩ := Tree.ofSource_negated
  obtain ⟨tree', hsource', hplaces'⟩ := Tree.ofSource_negatedInParens
  have hmeaning : Tree.negated.meaning? = .ok ⟨[.expr (.neg (.var "x" ⟨1, 3⟩))]⟩ := rfl
  have hmeaning' : Tree.negatedInParens.meaning? = .ok ⟨[.expr (.neg (.var "x" ⟨1, 5⟩))]⟩ := rfl
  obtain ⟨p, hp, -⟩ := parse_of_unplaced hsource hplaces hmeaning
  obtain ⟨q, hq, -⟩ := parse_of_unplaced hsource' hplaces' hmeaning'
  have hlines : tree.lines false
      = ["start", "  neg", "    MINUS '-'", "    var", "      NAME 'x'"] := by
    rw [← Tree.lines_unplaced, hplaces]
    decide
  have hlines' : tree'.lines false = tree.lines false := by
    rw [hlines, ← Tree.lines_unplaced, hplaces']
    decide
  have hreport := (outline_exact.1 _ tree false hsource).1
  rw [hlines] at hreport
  exact ⟨tree, tree', p, q, hsource, hsource', hp, hq, hreport.trans (by decide), hlines'.symm,
    outline_exact.2 _ _ tree tree' p q hsource hsource' hp hq hlines'.symm⟩

end Toplevel
