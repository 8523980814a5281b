import Toplevel.Proofs.Code.Scope

/-!
# Closed code

Code is closed if each local name in it is bound by a function around it and each global is one of
those that it may refer to (`Code.Closed`). The code of an expression is closed: it can refer to
what its names are resolved to and to nothing else (`Expr.HasCode.closed`).
-/

namespace Toplevel

mutual

/-- The local names are bound or in `scope`, and the globals are among `P`. -/
def Code.Closed (P : Global → Prop) (scope : List Text) : Code → Prop
  | .number _ | .string _ | .bool _ => True
  | .localVar x => x ∈ scope
  | .globalVar g => P g
  | .lambda x b => b.Closed P (x :: scope)
  | .call f a => f.Closed P scope ∧ a.Closed P scope
  | .ifElse c y n => c.Closed P scope ∧ y.Closed P scope ∧ n.Closed P scope
  | .matchOn s cs => s.Closed P scope ∧ cs.Closed P scope
  | .binary _ l r => l.Closed P scope ∧ r.Closed P scope
  | .remainder l r => l.Closed P scope ∧ r.Closed P scope
  | .neg a => a.Closed P scope
  | .deref a => a.Closed P scope
  | .assign t v => t.Closed P scope ∧ v.Closed P scope
  | .record es => es.Closed P scope
  | .extend b es => b.Closed P scope ∧ es.Closed P scope
  | .field b _ => b.Closed P scope
  | .tagged _ p => p.Closed P scope
  | .newRef a => a.Closed P scope

def Cases.Closed (P : Global → Prop) (scope : List Text) : Cases → Prop
  | .nil => True
  | .otherwise x b => b.Closed P (x :: scope)
  | .cons _ x b rest => b.Closed P (x :: scope) ∧ rest.Closed P scope

def Entries.Closed (P : Global → Prop) (scope : List Text) : Entries → Prop
  | .nil => True
  | .cons _ c rest => c.Closed P scope ∧ rest.Closed P scope

end

section

variable {P Q : Global → Prop} (hPQ : ∀ g, P g → Q g)

include hPQ

set_option linter.unusedSectionVars false in
mutual

theorem Code.Closed.mono : ∀ {c : Code} {scope : List Text}, c.Closed P scope → c.Closed Q scope
  | .number _, _, _ | .string _, _, _ | .bool _, _, _ => trivial
  | .localVar _, _, h => h
  | .globalVar g, _, h => hPQ g h
  | .lambda _ b, _, h => Code.Closed.mono (c := b) h
  | .call _ _, _, h | .binary _ _ _, _, h | .remainder _ _, _, h | .assign _ _, _, h =>
    ⟨Code.Closed.mono h.1, Code.Closed.mono h.2⟩
  | .ifElse _ _ _, _, h => ⟨Code.Closed.mono h.1, Code.Closed.mono h.2.1, Code.Closed.mono h.2.2⟩
  | .matchOn _ _, _, h => ⟨Code.Closed.mono h.1, Cases.Closed.mono h.2⟩
  | .neg a, _, h | .deref a, _, h | .field a _, _, h | .tagged _ a, _, h | .newRef a, _, h =>
    Code.Closed.mono (c := a) h
  | .record es, scope, h => (Entries.Closed.mono h : es.Closed Q scope)
  | .extend _ _, _, h => ⟨Code.Closed.mono h.1, Entries.Closed.mono h.2⟩

theorem Cases.Closed.mono : ∀ {cs : Cases} {scope : List Text},
    cs.Closed P scope → cs.Closed Q scope
  | .nil, _, _ => trivial
  | .otherwise _ b, _, h => Code.Closed.mono (c := b) h
  | .cons _ _ _ _, _, h => ⟨Code.Closed.mono h.1, Cases.Closed.mono h.2⟩

theorem Entries.Closed.mono : ∀ {es : Entries} {scope : List Text},
    es.Closed P scope → es.Closed Q scope
  | .nil, _, _ => trivial
  | .cons _ _ _, _, h => ⟨Code.Closed.mono h.1, Entries.Closed.mono h.2⟩

end

end

/-! ### Compiled code is closed -/

theorem BinaryOp.compile_closed {P : Global → Prop} {scope : List Text} {l r : Code}
    (hl : l.Closed P scope) (hr : r.Closed P scope) (op : BinaryOp) :
    (op.compile l r).Closed P scope := by
  cases op <;> exact ⟨hl, hr⟩

section

variable {P : Global → Prop} {globals : Bindings} (hglobals : ∀ x g, globals.find? x = some g → P g)

include hglobals

set_option linter.unusedSectionVars false in
mutual

theorem Expr.HasCode.closed : ∀ {scope : List Text} {e : Expr} {c : Code},
    e.HasCode globals scope c → c.Closed P scope
  | _, _, _, .number _ | _, _, _, .string _ | _, _, _, .bool _ => trivial
  | _, _, _, .localVar hx _ => hx
  | _, _, _, .globalVar _ hg _ => hglobals _ _ hg
  | scope, _, .lambda x c, .func hb => (hb.closed : c.Closed P (x :: scope))
  | _, _, _, .apply hf ha => ⟨hf.closed, ha.closed⟩
  | scope, _, .call (.lambda x d) _, .letIn hv hb =>
    ⟨(hb.closed : d.Closed P (x :: scope)), hv.closed⟩
  | _, _, _, .ifElse he hy hn => ⟨he.closed, hy.closed, hn.closed⟩
  | _, _, _, .matchWith hs has => ⟨hs.closed, has.closed⟩
  | _, _, _, .binary op _ hl hr => op.compile_closed hl.closed hr.closed
  | scope, _, .neg c, .neg ha | scope, _, .deref c, .deref ha | scope, _, .newRef c, .newRef ha
  | scope, _, .field c _, .field ha _ | scope, _, .tagged _ c, .tagged _ ha =>
    (ha.closed : c.Closed P scope)
  | _, _, _, .assign ht hv => ⟨ht.closed, hv.closed⟩
  | scope, _, .record es, .record hfs => (hfs.closed : es.Closed P scope)
  | _, _, _, .update hb hfs => ⟨hb.closed, hfs.closed⟩

theorem Arms.HaveCode.closed : ∀ {scope tags : List Text} {as : Arms} {cs : Cases},
    as.HaveCode globals scope tags cs → cs.Closed P scope
  | _, _, _, _, .nil => trivial
  | scope, _, _, .otherwise x c, .otherwise hb => (hb.closed : c.Closed P (x :: scope))
  | _, _, _, _, .cons _ hb hrest => ⟨hb.closed, hrest.closed⟩

theorem Fields.HaveCode.closed : ∀ {scope names : List Text} {fs : Fields} {es : Entries},
    fs.HaveCode globals scope names es → es.Closed P scope
  | _, _, _, _, .nil => trivial
  | _, _, _, _, .cons _ hv hrest => ⟨hv.closed, hrest.closed⟩

end

end

end Toplevel
