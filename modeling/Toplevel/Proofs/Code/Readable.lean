import Toplevel.Proofs.Code.HostText
import Toplevel.Proofs.Interaction.Numbering
import Toplevel.Proofs.Number.Distinct
import Toplevel.Proofs.Syntax.Rendering

/-!
# Code is uniquely readable

A program is read with its names resolved (`Program.reading`): a local name as it is written in
code, and any other as the global that it refers to. Apart from places, that is all that can be
found out from the text of its code, and all of it can: what the host reads there is taken back to
the program (`HostExpr.program`). So two programs with the same text have the same reading
(`Program.reading_eq_of_text_eq`).
-/

namespace Toplevel

/-! ### Programs with their names resolved -/

/-- Strings are put together with the operator that adds numbers. -/
def BinaryOp.reading : BinaryOp → BinaryOp
  | .concat => .plus
  | op => op

section

variable (globals : Bindings)

/-- A name as what it refers to is written in code. -/
def resolvedText (scope : List Text) (x : Text) : Text :=
  if x ∈ scope then localText x
  else
    match globals.find? x with
    | some g => g.text
    | none => x

mutual

/-- An expression with its names resolved. A local definition is a function that is applied. What
binds a local name is written like the name, so that no global is taken for one. -/
def Expr.reading (scope : List Text) : Expr → Expr
  | .number x => .number x
  | .string s => .string s
  | .bool b => .bool b
  | .var x _ => .var (resolvedText globals scope x) .start
  | .func x b => .func (localText x) (b.reading (x :: scope))
  | .apply f a => .apply (f.reading scope) (a.reading scope)
  | .letIn x v b => .apply (.func (localText x) (b.reading (x :: scope))) (v.reading scope)
  | .ifElse c y n => .ifElse (c.reading scope) (y.reading scope) (n.reading scope)
  | .matchWith s as => .matchWith (s.reading scope) (as.reading scope)
  | .binary op _ l r => .binary op.reading .start (l.reading scope) (r.reading scope)
  | .neg a => .neg (a.reading scope)
  | .deref a => .deref (a.reading scope)
  | .assign t v => .assign (t.reading scope) (v.reading scope)
  | .record fs => .record (fs.reading scope)
  | .update b fs => .update (b.reading scope) (fs.reading scope)
  | .field b x => .field (b.reading scope) x
  | .tagged t p => .tagged t (p.reading scope)
  | .newRef a => .newRef (a.reading scope)

def Arms.reading (scope : List Text) : Arms → Arms
  | .nil => .nil
  | .cons tag x b rest =>
    .cons tag (localText x) (b.reading (x :: scope)) (rest.reading scope)

def Fields.reading (scope : List Text) : Fields → Fields
  | .nil => .nil
  | .cons x v rest => .cons x (v.reading scope) (rest.reading scope)

end

end

/-- A statement with its names resolved, after which it makes no difference whether the definition
is recursive. -/
def Statement.reading (d : Definitions) : Statement → Statement
  | .define x v recursive =>
    .define x (v.reading (if recursive then (d.define x).1.bindings else d.bindings) []) false
  | .expr e => .expr (e.reading d.bindings [])

def Statement.definitions (d : Definitions) : Statement → Definitions
  | .define x _ _ => (d.define x).1
  | .expr _ => d

def readAll (d : Definitions) : List Statement → List Statement
  | [] => []
  | s :: ss => s.reading d :: readAll (s.definitions d) ss

def Program.reading (p : Program) (d : Definitions) : Program := ⟨readAll d p.statements⟩

/-! ### Taking host expressions back -/

def Operator.source : Operator → BinaryOp
  | .less => .less
  | .lessEqual => .lessEqual
  | .greater => .greater
  | .greaterEqual => .greaterEqual
  | .equal => .equal
  | .notEqual => .notEqual
  | .plus => .plus
  | .minus => .minus
  | .times => .times
  | .divide => .divide

/-- The finite double that is written so. -/
noncomputable def Text.double (w : Text) : Float :=
  Classical.epsilon fun x => (∃ negative m q, Binary.ofFloat x = .finite negative m q)
    ∧ Text.ofFloat x = w

theorem Text.double_ofFloat {x : Float} {negative : Bool} {m : Nat} {q : Int}
    (h : Binary.ofFloat x = .finite negative m q) : (Text.ofFloat x).double = x := by
  obtain ⟨⟨_, _, _, hfinite⟩, htext⟩ := Classical.epsilon_spec
    (p := fun y => (∃ negative m q, Binary.ofFloat y = .finite negative m q)
      ∧ Text.ofFloat y = Text.ofFloat x) ⟨x, ⟨_, _, _, h⟩, rfl⟩
  exact Text.eq_of_ofFloat_eq hfinite h htext

/-- What the host provides for operations that it has no notation for. -/
inductive Helper where
  | matching
  | remainder
  | deref
  | assign
  | extend
  | field
  | record
  | tagged
  | newRef
deriving DecidableEq

def Helper.members : List (Text × Helper) :=
  [("match", matching), ("mod", remainder), ("deref", deref), ("assign", assign),
    ("extend", extend), ("field", field)]

def Helper.constructors : List (Text × Helper) :=
  [("Record", record), ("Tagged", tagged), ("Ref", newRef)]

namespace HostExpr

/-- The helper that is called, if it is not a function of the program. -/
def helper? : HostExpr → Option Helper
  | member _ x => Helper.members.lookup x
  | name x => Helper.constructors.lookup x
  | _ => none

mutual

/-- The expression that the code is read as. Anything that is not code is read as `false`. -/
noncomputable def expr : HostExpr → Expr
  | name x => if x = "_inf" then .number (Binary.infinity false) else .var x .start
  | number w => .number w.double
  | string s => .string s
  | truth b => .bool b
  | lambda x b => .func x b.expr
  | conditional y c n => .ifElse c.expr y.expr n.expr
  | binary op l r => .binary op.source .start l.expr r.expr
  | negate a => .neg a.expr
  | call f args =>
    match f.helper?, args with
    | none, [a] => .apply f.expr a.expr
    | some .matching, s :: dict es :: rest => .matchWith s.expr (arms (otherwise rest) es)
    | some .remainder, [l, r] => .binary .remainder .start l.expr r.expr
    | some .deref, [a] => .deref a.expr
    | some .assign, [t, v] => .assign t.expr v.expr
    | some .extend, [b, dict es] => .update b.expr (fields es)
    | some .field, [b, string x] => .field b.expr x
    | some .record, [dict es] => .record (fields es)
    | some .tagged, [string t, p] => .tagged t p.expr
    | some .newRef, [a] => .newRef a.expr
    | _, _ => .bool false
  | tuple _ | dict _ | member _ _ | last _ => .bool false

noncomputable def otherwise : List HostExpr → Arms
  | [lambda x b] => .cons none x b.expr .nil
  | _ => .nil

noncomputable def arms (rest : Arms) : List (Text × HostExpr) → Arms
  | (tag, lambda x b) :: es => .cons (some tag) x b.expr (arms rest es)
  | _ => rest

noncomputable def fields : List (Text × HostExpr) → Fields
  | [] => .nil
  | (x, v) :: es => .cons x v.expr (fields es)

end

end HostExpr

/-! ### Code and its source -/

theorem HostExpr.helper?_name {x : Text} (h : x ∉ runtimeNames) : (name x).helper? = none := by
  have hnames : ∀ e ∈ Helper.constructors, e.1 ∈ runtimeNames := by decide
  rw [helper?, List.lookup_eq_none_iff]
  intro e he
  rw [bne_iff_ne]
  rintro rfl
  exact h (hnames e he)

theorem HostExpr.expr_name {x : Text} (h : x ∉ runtimeNames) : (name x).expr = .var x .start := by
  refine if_neg ?_
  rintro rfl
  exact h (by decide)

theorem Code.host_number (x : Float) : (Code.number x).host = .name "_nan"
    ∨ (Code.number x).host = .name "_inf" ∨ (Code.number x).host = .negate (.name "_inf")
    ∨ (Code.number x).host = .number (Text.ofFloat x) := by
  rw [host]
  split
  · simp
  · split <;> simp
  · simp

theorem Code.helper?_host (c : Code) : c.host.helper? = none := by
  cases c with
  | number x => rcases host_number x with h | h | h | h <;> rw [h] <;> rfl
  | localVar x => exact HostExpr.helper?_name (localText_notMem_runtimeNames x)
  | globalVar g => exact HostExpr.helper?_name g.text_notMem_runtimeNames
  | _ => rfl

theorem Code.expr_number {x : Float} (h : (Binary.ofFloat x).Unsigned) :
    (Code.number x).host.expr = .number x := by
  rw [host]
  match hx : Binary.ofFloat x, h with
  | .infinite _, rfl => rw [Binary.eq_infinity hx]; rfl
  | .finite _ _ _, rfl => exact congrArg Expr.number (Text.double_ofFloat hx)

theorem Code.expr_call (f a : Code) :
    (Code.call f a).host.expr = .apply f.host.expr a.host.expr := by
  rw [host, HostExpr.expr]
  exact f.helper?_host

theorem BinaryOp.expr_compile (op : BinaryOp) (l r : Code) : (op.compile l r).host.expr
    = .binary op.reading .start l.host.expr r.host.expr := by
  cases op <;> rfl

section

variable {globals : Bindings}

mutual

/-- The code of an expression is read as the expression. -/
theorem Expr.HasCode.expr_host : ∀ {scope : List Text} {e : Expr} {c : Code},
    e.HasCode globals scope c → e.Named → c.host.expr = e.reading globals scope
  | _, _, _, .number x, hn => Code.expr_number hn
  | _, _, _, .string _, _ | _, _, _, .bool _, _ => rfl
  | scope, .var x _, _, .localVar hx _, _ => by
    rw [Expr.reading, resolvedText, if_pos hx]
    exact HostExpr.expr_name (localText_notMem_runtimeNames x)
  | scope, .var x _, .globalVar g, .globalVar hx hg _, _ => by
    rw [Expr.reading, resolvedText, if_neg hx, hg]
    exact HostExpr.expr_name g.text_notMem_runtimeNames
  | _, .func x _, _, .func hb, hn => congrArg (Expr.func (localText x)) (hb.expr_host hn.2)
  | _, _, _, .apply hf ha, hn => by
    rw [Code.expr_call, hf.expr_host hn.1, ha.expr_host hn.2, Expr.reading]
  | _, _, _, .letIn hv hb, hn => by
    rw [Code.expr_call, Code.host, HostExpr.expr, hv.expr_host hn.2.1, hb.expr_host hn.2.2,
      Expr.reading]
  | _, _, _, .ifElse he hy hno, hn => by
    rw [Code.host, HostExpr.expr, he.expr_host hn.1, hy.expr_host hn.2.1, hno.expr_host hn.2.2,
      Expr.reading]
  | _, _, _, .matchWith hs has, hn =>
    congrArg₂ Expr.matchWith (hs.expr_host hn.1) (has.arms_host hn.2)
  | _, _, _, .binary op _ hl hr, hn => by
    rw [BinaryOp.expr_compile, hl.expr_host hn.1, hr.expr_host hn.2, Expr.reading]
  | _, _, _, .neg ha, hn => congrArg Expr.neg (ha.expr_host hn)
  | _, _, _, .deref ha, hn => congrArg Expr.deref (ha.expr_host hn)
  | _, _, _, .newRef ha, hn => congrArg Expr.newRef (ha.expr_host hn)
  | _, _, _, .field ha x, hn => congrArg (Expr.field · x) (ha.expr_host hn)
  | _, _, _, .assign ht hv, hn => congrArg₂ Expr.assign (ht.expr_host hn.1) (hv.expr_host hn.2)
  | _, _, _, .record hfs, hn => congrArg Expr.record (hfs.fields_host hn)
  | _, _, _, .update hb hfs, hn =>
    congrArg₂ Expr.update (hb.expr_host hn.1) (hfs.fields_host hn.2)
  | _, _, _, .tagged t ha, hn => congrArg (Expr.tagged t) (ha.expr_host hn.2)

theorem Arms.HaveCode.arms_host : ∀ {scope tags : List Text} {as : Arms} {cs : Cases},
    as.HaveCode globals scope tags cs → as.Named →
      HostExpr.arms (HostExpr.otherwise cs.hostOtherwise) cs.hostEntries = as.reading globals scope
  | _, _, _, _, .nil, _ => rfl
  | _, _, .cons _ x _ _, _, .otherwise hb, hn =>
    congrArg (Arms.cons none (localText x) · .nil) (hb.expr_host hn.2.1)
  | _, _, .cons (some t) x _ _, _, .cons _ hb hrest, hn =>
    congrArg₂ (Arms.cons (some t) (localText x)) (hb.expr_host hn.2.1) (hrest.arms_host hn.2.2)

theorem Fields.HaveCode.fields_host : ∀ {scope names : List Text} {fs : Fields} {es : Entries},
    fs.HaveCode globals scope names es → fs.Named →
      HostExpr.fields es.host = fs.reading globals scope
  | _, _, _, _, .nil, _ => rfl
  | _, _, .cons x _ _, _, .cons _ hv hrest, hn =>
    congrArg₂ (Fields.cons x) (hv.expr_host hn.2.1) (hrest.fields_host hn.2.2)

end

end

/-! ### Programs and their text -/

/-- The source name of a global that is written so. -/
def sourceName (w : Text) : Text := ((Text.cut '_' w).2).getD []

theorem Global.sourceName_text (g : Global) : sourceName g.text = g.name := by
  have hprefix : CodePoint.ofChar '_' ∉ CodePoint.ofChar 'g' :: Text.ofNat g.index := by
    rw [List.mem_cons, not_or]
    exact ⟨by decide, Text.underscore_notMem_ofNat _⟩
  rw [sourceName, text_eq, ← List.cons_append, Text.cut_append hprefix]
  rfl

namespace HostExpr

noncomputable def statement : HostExpr → Statement
  | call (name f) [string w, v] =>
    if f = "_define" then .define (sourceName w) v.expr false
    else .expr (call (name f) [string w, v]).expr
  | e => .expr e.expr

/-- The program that the code is read as. -/
noncomputable def program : HostExpr → Program
  | last (tuple es) => ⟨es.map statement⟩
  | e => ⟨[e.statement]⟩

end HostExpr

theorem Code.statement_host (c : Code) : c.host.statement = .expr c.host.expr := by
  cases c with
  | call f a | newRef a =>
    -- With one argument the call is no definition.
    rw [host, HostExpr.statement]
    simp
  | number x => rcases host_number x with h | h | h | h <;> rw [h] <;> rfl
  | _ => rfl

theorem Step.program_host (s : Step) : s.host.program = ⟨[s.host.statement]⟩ := by
  cases s with
  | define g v => rfl
  | expr c =>
    cases c with
    | number x => rcases Code.host_number x with h | h | h | h <;> rw [host, h] <;> rfl
    | _ => rfl

theorem Statement.compile?_reading {d d' : Definitions} {s : Statement} {step : Step}
    (h : s.compile? d = .ok (step, d')) (hs : s.Named) :
    step.host.statement = s.reading d ∧ d' = s.definitions d := by
  cases Statement.compile?_eq_ok_iff.1 h with
  | @expr e c he => exact ⟨c.statement_host.trans (congrArg Statement.expr (he.expr_host hs)), rfl⟩
  | define x recursive hv =>
    have hname : sourceName (d.define x).2.text = x := (d.define x).2.sourceName_text
    refine ⟨?_, rfl⟩
    exact congrArg₂ (Statement.define · · false) hname (hv.expr_host hs.2)

theorem compileAll_reading {d d' : Definitions} {ss : List Statement} {steps : List Step}
    (h : compileAll d ss = .ok (steps, d')) (hs : ∀ s ∈ ss, s.Named) :
    steps.map (fun s => s.host.statement) = readAll d ss := by
  induction ss generalizing d steps with
  | nil =>
    cases h
    rfl
  | cons s ss ih =>
    obtain ⟨step, d₁, rest, rfl, hstep, hrest⟩ := compileAll_cons_eq_ok_iff.1 h
    obtain ⟨hhead, htail⟩ := List.forall_mem_cons.1 hs
    obtain ⟨hreading, rfl⟩ := s.compile?_reading hstep hhead
    rw [List.map_cons, readAll, hreading, ih hrest htail]

theorem Compiled.program_host (c : Compiled) :
    c.host.program = ⟨c.steps.map fun s => s.host.statement⟩ := by
  match c with
  | ⟨[s]⟩ => exact s.program_host
  | ⟨[]⟩ => rfl
  | ⟨s :: s' :: ss⟩ => exact congrArg Program.mk (List.map_map ..)

/-- The text of the code of a program is read as the program. -/
theorem Program.hostExpr?_text {scope : Scope} {p : Program} {c : Compiled} {d : Definitions}
    (hp : p.Named) (h : p.compile? scope.definitions = .ok (c, d)) :
    c.text.hostExpr?.map HostExpr.program = some (p.reading scope.definitions) := by
  have hall := Program.compile?_eq_ok_iff.1 h
  have hlength := (compileAll_named hall hp.statements).1
  have hne : c.steps ≠ [] := by
    rw [← List.length_pos_iff, hlength]
    exact List.length_pos_iff.2 hp.nonempty
  rw [Compiled.hostExpr?_text hne (compileAll_legible hall hp.statements), Option.map_some,
    Compiled.program_host, compileAll_reading hall hp.statements]
  rfl

open Session in
/-- Programs with the same code text are the same, up to places and with their names resolved. -/
theorem Program.reading_eq_of_text_eq (machine : Machine Code) (log : List LogRecord)
    (cs : List Call) {s t : Text} {p q : Program} (hp : parse s = .ok p) (hq : parse t = .ok q)
    {c c' : Compiled} {d d' : Definitions}
    (hc : p.compile? (EngineState.calls cs ⟨.empty, machine, log⟩).session.definitions
      = .ok (c, d))
    (hc' : q.compile? (EngineState.calls cs ⟨.empty, machine, log⟩).session.definitions
      = .ok (c', d')) (h : c.text = c'.text) :
    p.reading (EngineState.calls cs ⟨.empty, machine, log⟩).session.definitions
      = q.reading (EngineState.calls cs ⟨.empty, machine, log⟩).session.definitions := by
  rw [(tracks machine log cs).definitions] at hc hc' ⊢
  have hread := Program.hostExpr?_text (parse_named hp) hc
  rw [h, Program.hostExpr?_text (parse_named hq) hc'] at hread
  exact (Option.some.inj hread).symm

/-- A program that compiles still does when it has been written out and read. -/
theorem Program.compile?_render {p : Program} (hp : p.Writable) {d d' : Definitions} {c : Compiled}
    (h : p.compile? d = .ok (c, d')) :
    ∃ q, parse p.render = .ok q ∧ q.compile? d = .ok (c, d') := by
  obtain ⟨q, hq, hunplaced⟩ := (Program.render_laysOut hp).parse (Program.writes hp)
  exact ⟨q, hq, Program.compile?_of_unplaced (hunplaced.trans p.unplaced_unplaced) h⟩

/-- A local definition has the text of the function that stands for it. -/
theorem Program.reading_eq_of_text_eq_local : ∃ p q c d, parse "let x = true in x" = .ok p
    ∧ parse "( fun x -> x ) true" = .ok q ∧ p.compile? .empty = .ok (c, d)
    ∧ q.compile? .empty = .ok (c, d) ∧ p.reading .empty = q.reading .empty := by
  have hx : Terminal.name.Spells "x" := by decide
  let named : Program := ⟨[.expr (.letIn "x" (.bool true) (.var "x" .start))]⟩
  let given : Program := ⟨[.expr (.apply (.func "x" (.var "x" .start)) (.bool true))]⟩
  have hnamed : named.Writable :=
    ⟨List.cons_ne_nil _ _, List.forall_mem_singleton.2 ⟨hx, trivial, hx⟩⟩
  have hgiven : given.Writable :=
    ⟨List.cons_ne_nil _ _, List.forall_mem_singleton.2 ⟨⟨hx, hx⟩, trivial⟩⟩
  have hc : named.compile? .empty
      = .ok (⟨[.expr (.call (.lambda "x" (.localVar "x")) (.bool true))]⟩, .empty) := rfl
  have hc' : given.compile? .empty
      = .ok (⟨[.expr (.call (.lambda "x" (.localVar "x")) (.bool true))]⟩, .empty) := rfl
  obtain ⟨p, hp, hpc⟩ := Program.compile?_render hnamed hc
  obtain ⟨q, hq, hqc⟩ := Program.compile?_render hgiven hc'
  exact ⟨p, q, _, _, hp, hq, hpc, hqc,
    Program.reading_eq_of_text_eq .empty [] [] hp hq hpc hqc rfl⟩

end Toplevel
