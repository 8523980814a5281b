import Toplevel.Proofs.Code.Names
import Toplevel.Proofs.Eval.Interpretation

/-!
# Legible code

Code can be read off its text if its names are spelled like names and its numbers have no sign
(`Code.Legible`). Each statement of a source compiles to such code, with no operator that the
statement does not have (`Statement.compile?_legible`).
-/

namespace Toplevel

/-! ### The operators of a program -/

/-- The operations that are written with a sign. -/
inductive HostOperator where
  | negation
  | binary (op : Operator)
deriving DecidableEq

mutual

/-- The operators that are written for those of an expression. -/
def Expr.operators : Expr → List HostOperator
  | .number _ | .string _ | .bool _ | .var _ _ => []
  | .func _ b => b.operators
  | .apply f a => f.operators ++ a.operators
  | .letIn _ v b => v.operators ++ b.operators
  | .ifElse c y n => c.operators ++ (y.operators ++ n.operators)
  | .matchWith s as => s.operators ++ as.operators
  | .binary op _ l r => op.operator?.toList.map .binary ++ (l.operators ++ r.operators)
  | .neg a => .negation :: a.operators
  | .deref a => a.operators
  | .assign t v => t.operators ++ v.operators
  | .record fs => fs.operators
  | .update b fs => b.operators ++ fs.operators
  | .field b _ => b.operators
  | .tagged _ p => p.operators
  | .newRef a => a.operators

def Arms.operators : Arms → List HostOperator
  | .nil => []
  | .cons _ _ b rest => b.operators ++ rest.operators

def Fields.operators : Fields → List HostOperator
  | .nil => []
  | .cons _ v rest => v.operators ++ rest.operators

end

def Statement.operators : Statement → List HostOperator
  | .define _ v _ => v.operators
  | .expr e => e.operators

/-! ### Code -/

mutual

/-- Names are names, numbers have no sign, and operators are among `ops`. -/
def Code.Legible (ops : List HostOperator) : Code → Prop
  | .number x => (Binary.ofFloat x).Unsigned
  | .string _ | .bool _ => True
  | .localVar x => x.IsName
  | .globalVar g => g.name.IsName
  | .lambda x b => x.IsName ∧ b.Legible ops
  | .call f a => f.Legible ops ∧ a.Legible ops
  | .ifElse c y n => c.Legible ops ∧ y.Legible ops ∧ n.Legible ops
  | .matchOn s cs => s.Legible ops ∧ cs.Legible ops
  | .binary op l r => .binary op ∈ ops ∧ l.Legible ops ∧ r.Legible ops
  | .remainder l r => l.Legible ops ∧ r.Legible ops
  | .neg a => .negation ∈ ops ∧ a.Legible ops
  | .deref a => a.Legible ops
  | .assign t v => t.Legible ops ∧ v.Legible ops
  | .record es => es.Legible ops
  | .extend b es => b.Legible ops ∧ es.Legible ops
  | .field b _ => b.Legible ops
  | .tagged _ p => p.Legible ops
  | .newRef a => a.Legible ops

def Cases.Legible (ops : List HostOperator) : Cases → Prop
  | .nil => True
  | .otherwise x b => x.IsName ∧ b.Legible ops
  | .cons _ x b rest => x.IsName ∧ b.Legible ops ∧ rest.Legible ops

def Entries.Legible (ops : List HostOperator) : Entries → Prop
  | .nil => True
  | .cons _ c rest => c.Legible ops ∧ rest.Legible ops

end

theorem BinaryOp.compile_legible {ops : List HostOperator} {l r : Code} (hl : l.Legible ops)
    (hr : r.Legible ops) {op : BinaryOp} (hop : ∀ o ∈ op.operator?, .binary o ∈ ops) :
    (op.compile l r).Legible ops := by
  cases op with
  | remainder => exact ⟨hl, hr⟩
  | _ => exact ⟨hop _ rfl, hl, hr⟩

section

variable {ops : List HostOperator} {globals : Bindings}
  (hglobals : ∀ x g, globals.find? x = some g → g.name = x)

include hglobals

set_option linter.unusedSectionVars false in
mutual

theorem Expr.HasCode.legible : ∀ {scope : List Text} {e : Expr} {c : Code},
    e.HasCode globals scope c → e.Named → (∀ o ∈ e.operators, o ∈ ops) → c.Legible ops
  | _, _, _, .number _, hn, _ | _, _, _, .string _, hn, _ | _, _, _, .bool _, hn, _
  | _, _, _, .localVar _ _, hn, _ => hn
  | _, _, .globalVar g, .globalVar (x := x) _ hg _, hn, _ => by
    have hname : g.name.IsName := by
      rw [hglobals x g hg]
      exact hn
    exact hname
  | _, _, _, .func hb, hn, ho => ⟨hn.1, hb.legible hn.2 ho⟩
  | _, _, _, .apply hf ha, hn, ho => by
    obtain ⟨hof, hoa⟩ := List.forall_mem_append.1 ho
    exact ⟨hf.legible hn.1 hof, ha.legible hn.2 hoa⟩
  | _, _, _, .letIn hv hb, hn, ho => by
    obtain ⟨hov, hob⟩ := List.forall_mem_append.1 ho
    exact ⟨⟨hn.1, hb.legible hn.2.2 hob⟩, hv.legible hn.2.1 hov⟩
  | _, _, _, .ifElse he hy hno, hn, ho => by
    obtain ⟨hoe, ho⟩ := List.forall_mem_append.1 ho
    obtain ⟨hoy, hon⟩ := List.forall_mem_append.1 ho
    exact ⟨he.legible hn.1 hoe, hy.legible hn.2.1 hoy, hno.legible hn.2.2 hon⟩
  | _, _, _, .matchWith hs has, hn, ho => by
    obtain ⟨hos, hoa⟩ := List.forall_mem_append.1 ho
    exact ⟨hs.legible hn.1 hos, has.legible hn.2 hoa⟩
  | _, _, _, .binary op _ hl hr, hn, ho => by
    obtain ⟨hop, ho⟩ := List.forall_mem_append.1 ho
    obtain ⟨hol, hor⟩ := List.forall_mem_append.1 ho
    refine BinaryOp.compile_legible (hl.legible hn.1 hol) (hr.legible hn.2 hor)
      fun o hmem => hop _ ?_
    exact List.mem_map_of_mem (Option.mem_toList.2 hmem)
  | _, _, _, .neg ha, hn, ho => by
    obtain ⟨hneg, ho⟩ := List.forall_mem_cons.1 ho
    exact ⟨hneg, ha.legible hn ho⟩
  | _, _, .deref c, .deref ha, hn, ho | _, _, .newRef c, .newRef ha, hn, ho
  | _, _, .field c _, .field ha _, hn, ho => (ha.legible hn ho : c.Legible ops)
  | _, _, _, .assign ht hv, hn, ho => by
    obtain ⟨hot, hov⟩ := List.forall_mem_append.1 ho
    exact ⟨ht.legible hn.1 hot, hv.legible hn.2 hov⟩
  | _, _, .record es, .record hfs, hn, ho => (hfs.legible hn ho : es.Legible ops)
  | _, _, _, .update hb hfs, hn, ho => by
    obtain ⟨hob, hof⟩ := List.forall_mem_append.1 ho
    exact ⟨hb.legible hn.1 hob, hfs.legible hn.2 hof⟩
  | _, _, .tagged _ c, .tagged _ ha, hn, ho => (ha.legible hn.2 ho : c.Legible ops)

theorem Arms.HaveCode.legible : ∀ {scope tags : List Text} {as : Arms} {cs : Cases},
    as.HaveCode globals scope tags cs → as.Named → (∀ o ∈ as.operators, o ∈ ops) → cs.Legible ops
  | _, _, _, _, .nil, _, _ => trivial
  | _, _, _, _, .otherwise hb, hn, ho =>
    ⟨hn.1, hb.legible hn.2.1 fun o hmem => ho o (List.mem_append_left _ hmem)⟩
  | _, _, _, _, .cons _ hb hrest, hn, ho => by
    obtain ⟨hob, hor⟩ := List.forall_mem_append.1 ho
    exact ⟨hn.1, hb.legible hn.2.1 hob, hrest.legible hn.2.2 hor⟩

theorem Fields.HaveCode.legible : ∀ {scope names : List Text} {fs : Fields} {es : Entries},
    fs.HaveCode globals scope names es → fs.Named → (∀ o ∈ fs.operators, o ∈ ops) →
      es.Legible ops
  | _, _, _, _, .nil, _, _ => trivial
  | _, _, _, _, .cons _ hv hrest, hn, ho => by
    obtain ⟨hov, hor⟩ := List.forall_mem_append.1 ho
    exact ⟨hv.legible hn.2.1 hov, hrest.legible hn.2.2 hor⟩

end

end

def Step.code : Step → Code
  | .define _ v => v
  | .expr c => c

theorem Scope.name_of_find? {scope : Scope} {x : Text} {g : Global}
    (h : scope.bindings.find? x = some g) : g.name = x :=
  (mem_bindings (mem_of_lookup h)).2

theorem Statement.compile?_legible {scope : Scope} {s : Statement} {step : Step} {d : Definitions}
    (h : s.compile? scope.definitions = .ok (step, d)) (hs : s.Named) :
    step.code.Legible s.operators := by
  cases Statement.compile?_eq_ok_iff.1 h with
  | expr he => exact he.legible (fun x g => Scope.name_of_find?) hs fun _ ho => ho
  | define x recursive hv =>
    refine hv.legible (fun y g hg => ?_) hs.2 fun _ ho => ho
    cases recursive with
    | true =>
      have hpush : (scope.push x).bindings.find? y = some g := hg
      exact Scope.name_of_find? hpush
    | false => exact Scope.name_of_find? hg

theorem compileAll_legible {scope : Scope} {ss : List Statement} {steps : List Step}
    {d : Definitions} (h : compileAll scope.definitions ss = .ok (steps, d))
    (hs : ∀ s ∈ ss, s.Named) : ∀ step ∈ steps, ∃ ops, step.code.Legible ops := by
  induction ss generalizing scope steps with
  | nil =>
    cases h
    exact nofun
  | cons s ss ih =>
    obtain ⟨step, d₁, rest, rfl, hstep, hrest⟩ := compileAll_cons_eq_ok_iff.1 h
    obtain ⟨rfl, -⟩ := s.compile?_scope hstep
    obtain ⟨hhead, htail⟩ := List.forall_mem_cons.1 hs
    exact List.forall_mem_cons.2 ⟨⟨_, s.compile?_legible hstep hhead⟩, ih hrest htail⟩

end Toplevel
