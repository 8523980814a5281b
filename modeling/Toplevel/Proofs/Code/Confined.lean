import Toplevel.Proofs.Code.Closed
import Toplevel.Proofs.Code.HostText

/-!
# Confined code

For the host, compiled code is confined to what it is given (`HostExpr.Confined`): it names helpers
and definitions that it may use, takes nothing from them but more helpers, and has a parameter
around every local name. This holds of each statement of a program, and each definition has a name
that has not been taken before (`compileAll_confined`).
-/

namespace Toplevel

/-- What the host provides for code to name; only statements as a whole name `_define`. -/
def helperNames : List Text := ["Tagged", "Ref", "Record", "_rt", "_inf"]

/-- What code takes from `_rt`. -/
def helperMembers : List Text := ["mod", "deref", "assign", "extend", "field", "match"]

namespace HostExpr

/-- What a part of a confined expression may be. -/
def Tame (ops : List HostOperator) : HostExpr → Prop
  | name x => x ≠ "_define"
  | lambda x _ => ∃ y, x = localText y
  | member b x => b = name "_rt" ∧ x ∈ helperMembers
  | binary op _ _ => .binary op ∈ ops
  | negate _ => .negation ∈ ops
  | tuple _ | last _ => False
  | number _ | string _ | truth _ | conditional _ _ _ | dict _ | call _ _ => True

/-- The expression is confined to the definitions `known` and the operators `ops`. -/
structure Confined (known : List Text) (ops : List HostOperator) (e : HostExpr) : Prop where
  names : ∀ x ∈ e.freeNames, x ∈ helperNames ∨ x ∈ known
  locals : ∀ x, localText x ∉ e.freeNames
  parts : ∀ q ∈ e.parts, q.Tame ops

/-- The expressions are those of statements that may use the definitions `known`, and each
definition has a name that is not among those `taken` before. -/
inductive AllConfined : List Text → List Text → List Statement → List HostExpr → Prop
  | nil {known taken : List Text} : AllConfined known taken [] []
  | expr {known taken : List Text} {e : Expr} {ss : List Statement} {v : HostExpr}
      {es : List HostExpr} (value : v.Confined known e.operators)
      (rest : AllConfined known taken ss es) : AllConfined known taken (.expr e :: ss) (v :: es)
  | define {known taken : List Text} {g : Global} {e : Expr} {recursive : Bool}
      {ss : List Statement} {v : HostExpr} {es : List HostExpr} (fresh : g.text ∉ taken)
      (value : v.Confined (if recursive then g.text :: known else known) e.operators)
      (rest : AllConfined (g.text :: known) (g.text :: taken) ss es) :
      AllConfined known taken (.define g.name e recursive :: ss)
        (.call (.name "_define") [.string g.text, v] :: es)

/-- The statements of a program, if the expression is that of a program. -/
def statements : HostExpr → List HostExpr
  | last (tuple es) => es
  | e => [e]

end HostExpr

theorem Compiled.statements_host (c : Compiled) : c.host.statements = c.steps.map Step.host := by
  match c with
  | ⟨[]⟩ | ⟨_ :: _ :: _⟩ => rfl
  | ⟨[.define _ _]⟩ => rfl
  | ⟨[.expr c]⟩ =>
    change c.host.statements = [c.host]
    cases c <;> first
      | rfl
      | (rw [Code.host]; split <;> first | rfl | (split <;> rfl))

theorem localText_notMem_helperNames (x : Text) : localText x ∉ helperNames := by
  intro h
  have hhead : ∀ t ∈ helperNames, t.head? ≠ some (CodePoint.ofChar 'v') := by decide
  exact hhead _ h (by rw [localText_eq]; rfl)

/-! ### Free names -/

namespace HostExpr

/-- A helper is given in any scope. -/
theorem freeNames_helper {given : List Text} (hgiven : helperNames ⊆ given) {x : Text}
    (hx : x ∈ helperNames) (scope : List Text) :
    (name x).freeNames ⊆ scope.map localText ++ given :=
  List.cons_subset.2 ⟨List.mem_append_right _ (hgiven hx), List.nil_subset _⟩

theorem freeNames_lambda {x : Text} {e : HostExpr} {names : List Text}
    (h : e.freeNames ⊆ x :: names) : (lambda x e).freeNames ⊆ names := by
  intro y hy
  obtain ⟨hmem, hne⟩ := List.mem_filter.1 hy
  exact (List.mem_cons.1 (h hmem)).resolve_left (of_decide_eq_true hne)

theorem freeNames_call_one {f a : HostExpr} {names : List Text} (hf : f.freeNames ⊆ names)
    (ha : a.freeNames ⊆ names) : (call f [a]).freeNames ⊆ names :=
  List.append_subset.2 ⟨hf, List.append_subset.2 ⟨ha, List.nil_subset _⟩⟩

theorem freeNames_call_two {f a b : HostExpr} {names : List Text} (hf : f.freeNames ⊆ names)
    (ha : a.freeNames ⊆ names) (hb : b.freeNames ⊆ names) : (call f [a, b]).freeNames ⊆ names :=
  List.append_subset.2 ⟨hf, List.append_subset.2
    ⟨ha, List.append_subset.2 ⟨hb, List.nil_subset _⟩⟩⟩

end HostExpr

theorem freeNames_number {x : Float} (h : (Binary.ofFloat x).Unsigned) :
    (Code.number x).host.freeNames ⊆ helperNames := by
  rw [Code.host]
  match Binary.ofFloat x, h with
  | .infinite _, rfl => exact List.cons_subset.2 ⟨by decide, List.nil_subset _⟩
  | .finite _ _ _, _ => exact List.nil_subset _

section

open HostExpr

variable {ops : List HostOperator} {P : Global → Prop} {given : List Text}
  (hglobals : ∀ g, P g → g.text ∈ given) (hhelpers : helperNames ⊆ given)

include hglobals hhelpers

set_option linter.unusedSectionVars false in
mutual

/-- Code names the local names around it, the globals that it may refer to, and helpers. -/
theorem Code.freeNames_host : ∀ {c : Code} {scope : List Text}, c.Legible ops → c.Closed P scope →
    c.host.freeNames ⊆ scope.map localText ++ given
  | .number _, _, h, _ =>
    List.subset_append_of_subset_right _ (List.Subset.trans (freeNames_number h) hhelpers)
  | .string _, _, _, _ | .bool _, _, _, _ => List.nil_subset _
  | .localVar _, _, _, h =>
    List.cons_subset.2 ⟨List.mem_append_left _ (List.mem_map_of_mem h), List.nil_subset _⟩
  | .globalVar g, _, _, h =>
    List.cons_subset.2 ⟨List.mem_append_right _ (hglobals g h), List.nil_subset _⟩
  | .lambda _ _, _, h, hc => freeNames_lambda (Code.freeNames_host h.2 hc)
  | .call _ _, _, h, hc =>
    freeNames_call_one (Code.freeNames_host h.1 hc.1) (Code.freeNames_host h.2 hc.2)
  | .ifElse _ _ _, _, h, hc =>
    List.append_subset.2 ⟨Code.freeNames_host h.2.1 hc.2.1, List.append_subset.2
      ⟨Code.freeNames_host h.1 hc.1, Code.freeNames_host h.2.2 hc.2.2⟩⟩
  | .matchOn _ _, scope, h, hc =>
    List.append_subset.2 ⟨freeNames_helper hhelpers (by decide) scope, List.append_subset.2
      ⟨Code.freeNames_host h.1 hc.1, List.append_subset.2
        ⟨Cases.freeNames_hostEntries h.2 hc.2, Cases.freeNames_hostOtherwise h.2 hc.2⟩⟩⟩
  | .binary _ _ _, _, h, hc =>
    List.append_subset.2 ⟨Code.freeNames_host h.2.1 hc.1, Code.freeNames_host h.2.2 hc.2⟩
  | .neg a, scope, h, hc =>
    have ha : a.host.freeNames ⊆ scope.map localText ++ given := Code.freeNames_host h.2 hc
    ha
  | .remainder _ _, scope, h, hc | .assign _ _, scope, h, hc =>
    freeNames_call_two (freeNames_helper hhelpers (by decide) scope) (Code.freeNames_host h.1 hc.1)
      (Code.freeNames_host h.2 hc.2)
  | .deref a, scope, h, hc | .newRef a, scope, h, hc =>
    have ha : a.host.freeNames ⊆ scope.map localText ++ given := Code.freeNames_host h hc
    freeNames_call_one (freeNames_helper hhelpers (by decide) scope) ha
  | .record es, scope, h, hc =>
    have hes : (dict es.host).freeNames ⊆ scope.map localText ++ given :=
      Entries.freeNames_host h hc
    freeNames_call_one (freeNames_helper hhelpers (by decide) scope) hes
  | .extend _ es, scope, h, hc =>
    have hes : (dict es.host).freeNames ⊆ scope.map localText ++ given :=
      Entries.freeNames_host h.2 hc.2
    freeNames_call_two (freeNames_helper hhelpers (by decide) scope)
      (Code.freeNames_host h.1 hc.1) hes
  | .field b x, scope, h, hc =>
    have hb : b.host.freeNames ⊆ scope.map localText ++ given := Code.freeNames_host h hc
    freeNames_call_two (b := string x) (freeNames_helper hhelpers (by decide) scope) hb
      (List.nil_subset _)
  | .tagged t p, scope, h, hc =>
    have hp : p.host.freeNames ⊆ scope.map localText ++ given := Code.freeNames_host h hc
    freeNames_call_two (a := string t) (freeNames_helper hhelpers (by decide) scope)
      (List.nil_subset _) hp

theorem Cases.freeNames_hostEntries : ∀ {cs : Cases} {scope : List Text}, cs.Legible ops →
    cs.Closed P scope →
      freeNamesOfEntries cs.hostEntries ⊆ scope.map localText ++ given
  | .nil, _, _, _ | .otherwise _ _, _, _, _ => List.nil_subset _
  | .cons _ _ _ _, _, h, hc =>
    List.append_subset.2 ⟨freeNames_lambda (Code.freeNames_host h.2.1 hc.1),
      Cases.freeNames_hostEntries h.2.2 hc.2⟩

theorem Cases.freeNames_hostOtherwise : ∀ {cs : Cases} {scope : List Text}, cs.Legible ops →
    cs.Closed P scope →
      freeNamesOfItems cs.hostOtherwise ⊆ scope.map localText ++ given
  | .nil, _, _, _ => List.nil_subset _
  | .otherwise _ _, _, h, hc =>
    List.append_subset.2 ⟨freeNames_lambda (Code.freeNames_host h.2 hc), List.nil_subset _⟩
  | .cons _ _ _ rest, scope, h, hc =>
    have hrest : freeNamesOfItems rest.hostOtherwise ⊆ scope.map localText ++ given :=
      Cases.freeNames_hostOtherwise h.2.2 hc.2
    hrest

theorem Entries.freeNames_host : ∀ {es : Entries} {scope : List Text}, es.Legible ops →
    es.Closed P scope → freeNamesOfEntries es.host ⊆ scope.map localText ++ given
  | .nil, _, _, _ => List.nil_subset _
  | .cons _ _ _, _, h, hc =>
    List.append_subset.2 ⟨Code.freeNames_host h.1 hc.1, Entries.freeNames_host h.2 hc.2⟩

end

end

/-! ### Parts -/

namespace HostExpr

variable {ops : List HostOperator}

theorem tame_name {x : Text} (hx : x ≠ "_define") : ∀ q ∈ (name x).parts, q.Tame ops :=
  List.forall_mem_singleton.2 hx

theorem tame_runtime {x : Text} (hx : x ∈ helperMembers) :
    ∀ q ∈ (runtime x).parts, q.Tame ops :=
  List.forall_mem_cons.2 ⟨⟨rfl, hx⟩, tame_name (by decide)⟩

theorem tame_lambda (x : Text) {b : HostExpr} (hb : ∀ q ∈ b.parts, q.Tame ops) :
    ∀ q ∈ (lambda (localText x) b).parts, q.Tame ops :=
  List.forall_mem_cons.2 ⟨⟨x, rfl⟩, hb⟩

theorem tame_call {f : HostExpr} {args : List HostExpr} (hf : ∀ q ∈ f.parts, q.Tame ops)
    (hargs : ∀ q ∈ partsOfItems args, q.Tame ops) : ∀ q ∈ (call f args).parts, q.Tame ops :=
  List.forall_mem_cons.2 ⟨trivial, List.forall_mem_append.2 ⟨hf, hargs⟩⟩

theorem tame_items_one {e : HostExpr} (he : ∀ q ∈ e.parts, q.Tame ops) :
    ∀ q ∈ partsOfItems [e], q.Tame ops :=
  List.forall_mem_append.2 ⟨he, List.forall_mem_nil _⟩

theorem tame_items_two {e e' : HostExpr} (he : ∀ q ∈ e.parts, q.Tame ops)
    (he' : ∀ q ∈ e'.parts, q.Tame ops) : ∀ q ∈ partsOfItems [e, e'], q.Tame ops :=
  List.forall_mem_append.2 ⟨he, tame_items_one he'⟩

theorem tame_string (s : Text) : ∀ q ∈ (string s).parts, q.Tame ops :=
  List.forall_mem_singleton.2 trivial

theorem tame_dict {es : List (Text × HostExpr)} (hes : ∀ q ∈ partsOfEntries es, q.Tame ops) :
    ∀ q ∈ (dict es).parts, q.Tame ops :=
  List.forall_mem_cons.2 ⟨trivial, hes⟩

end HostExpr

theorem tame_number {ops : List HostOperator} {x : Float} (h : (Binary.ofFloat x).Unsigned) :
    ∀ q ∈ (Code.number x).host.parts, q.Tame ops := by
  rw [Code.host]
  match Binary.ofFloat x, h with
  | .infinite _, rfl => exact HostExpr.tame_name (by decide)
  | .finite _ _ _, _ => exact List.forall_mem_singleton.2 trivial

theorem Global.text_ne_define (g : Global) : g.text ≠ "_define" := by
  intro h
  exact g.text_notMem_runtimeNames (h ▸ List.mem_cons_self)

theorem localText_ne_define (x : Text) : localText x ≠ "_define" := by
  intro h
  exact localText_notMem_runtimeNames x (h ▸ List.mem_cons_self)

section

open HostExpr

variable {ops : List HostOperator}

mutual

/-- Every part of code is what a part may be. -/
theorem Code.tame_host : ∀ {c : Code}, c.Legible ops → ∀ q ∈ c.host.parts, q.Tame ops
  | .number _, h => tame_number h
  | .string s, _ => tame_string s
  | .bool _, _ => List.forall_mem_singleton.2 trivial
  | .localVar x, _ => tame_name (localText_ne_define x)
  | .globalVar g, _ => tame_name g.text_ne_define
  | .lambda x _, h => tame_lambda x (Code.tame_host h.2)
  | .call _ _, h => tame_call (Code.tame_host h.1) (tame_items_one (Code.tame_host h.2))
  | .ifElse _ _ _, h =>
    List.forall_mem_cons.2 ⟨trivial, List.forall_mem_append.2 ⟨Code.tame_host h.2.1,
      List.forall_mem_append.2 ⟨Code.tame_host h.1, Code.tame_host h.2.2⟩⟩⟩
  | .matchOn _ _, h =>
    tame_call (tame_runtime (by decide)) (List.forall_mem_append.2 ⟨Code.tame_host h.1,
      List.forall_mem_append.2 ⟨tame_dict (Cases.tame_hostEntries h.2),
        Cases.tame_hostOtherwise h.2⟩⟩)
  | .binary _ _ _, h =>
    List.forall_mem_cons.2 ⟨h.1, List.forall_mem_append.2
      ⟨Code.tame_host h.2.1, Code.tame_host h.2.2⟩⟩
  | .neg _, h => List.forall_mem_cons.2 ⟨h.1, Code.tame_host h.2⟩
  | .remainder _ _, h | .assign _ _, h =>
    tame_call (tame_runtime (by decide)) (tame_items_two (Code.tame_host h.1) (Code.tame_host h.2))
  | .deref a, h =>
    have ha : ∀ q ∈ a.host.parts, q.Tame ops := Code.tame_host h
    tame_call (tame_runtime (by decide)) (tame_items_one ha)
  | .newRef a, h =>
    have ha : ∀ q ∈ a.host.parts, q.Tame ops := Code.tame_host h
    tame_call (tame_name (by decide)) (tame_items_one ha)
  | .record _, h =>
    tame_call (tame_name (by decide)) (tame_items_one (tame_dict (Entries.tame_host h)))
  | .extend _ _, h =>
    tame_call (tame_runtime (by decide))
      (tame_items_two (Code.tame_host h.1) (tame_dict (Entries.tame_host h.2)))
  | .field b x, h =>
    have hb : ∀ q ∈ b.host.parts, q.Tame ops := Code.tame_host h
    tame_call (tame_runtime (by decide)) (tame_items_two hb (tame_string x))
  | .tagged t p, h =>
    have hp : ∀ q ∈ p.host.parts, q.Tame ops := Code.tame_host h
    tame_call (tame_name (by decide)) (tame_items_two (tame_string t) hp)

theorem Cases.tame_hostEntries : ∀ {cs : Cases}, cs.Legible ops →
    ∀ q ∈ partsOfEntries cs.hostEntries, q.Tame ops
  | .nil, _ | .otherwise _ _, _ => List.forall_mem_nil _
  | .cons _ x _ _, h =>
    List.forall_mem_append.2 ⟨tame_lambda x (Code.tame_host h.2.1), Cases.tame_hostEntries h.2.2⟩

theorem Cases.tame_hostOtherwise : ∀ {cs : Cases}, cs.Legible ops →
    ∀ q ∈ partsOfItems cs.hostOtherwise, q.Tame ops
  | .nil, _ => List.forall_mem_nil _
  | .otherwise x _, h => tame_items_one (tame_lambda x (Code.tame_host h.2))
  | .cons _ _ _ rest, h =>
    have hrest : ∀ q ∈ partsOfItems rest.hostOtherwise, q.Tame ops :=
      Cases.tame_hostOtherwise h.2.2
    hrest

theorem Entries.tame_host : ∀ {es : Entries}, es.Legible ops →
    ∀ q ∈ partsOfEntries es.host, q.Tame ops
  | .nil, _ => List.forall_mem_nil _
  | .cons _ _ _, h => List.forall_mem_append.2 ⟨Code.tame_host h.1, Entries.tame_host h.2⟩

end

end

/-! ### Programs -/

/-- The code of an expression is confined to the definitions that can be named. -/
theorem Expr.HasCode.confined {e : Expr} {scope : Scope} {c : Code} {known : List Text}
    (h : e.HasCode scope.bindings [] c) (hlegible : c.Legible e.operators)
    (hbindings : ∀ b ∈ scope.bindings, b.2.text ∈ known)
    (hknown : ∀ x ∈ known, ∃ g : Global, x = g.text) : c.host.Confined known e.operators := by
  have hclosed : c.Closed (fun g => g.text ∈ known) [] :=
    h.closed fun x g hg => hbindings (x, g) (mem_of_lookup hg)
  have hfree : c.host.freeNames ⊆ helperNames ++ known :=
    Code.freeNames_host (fun g hg => List.mem_append_right _ hg)
      (List.subset_append_left _ _) hlegible hclosed
  refine ⟨fun x hx => List.mem_append.1 (hfree hx), fun x hx => ?_, Code.tame_host hlegible⟩
  rcases List.mem_append.1 (hfree hx) with hhelper | hx
  · exact localText_notMem_helperNames x hhelper
  · obtain ⟨g, hg⟩ := hknown _ hx
    exact g.text_ne_localText x hg.symm

/-- The number of the next definition has not been given before. -/
theorem Scope.Numbered.text_ne {scope : Scope} (h : scope.Numbered) (x : Text) {g : Global}
    (hg : g ∈ scope) : Global.text ⟨scope.length + 1, x⟩ ≠ g.text := by
  intro heq
  have hle := h.index_le hg
  rw [← Global.text_injective heq] at hle
  exact Nat.not_succ_le_self _ hle

theorem compileAll_confined {scope : Scope} {ss : List Statement} {steps : List Step}
    {d : Definitions} {known taken : List Text}
    (h : compileAll scope.definitions ss = .ok (steps, d)) (hn : scope.Numbered)
    (hs : ∀ s ∈ ss, s.Named) (hbindings : ∀ b ∈ scope.bindings, b.2.text ∈ known)
    (hknown : ∀ x ∈ known, ∃ g : Global, x = g.text)
    (htaken : ∀ x ∈ taken, ∃ g ∈ scope, x = g.text) :
    HostExpr.AllConfined known taken ss (steps.map Step.host) := by
  induction ss generalizing scope steps known taken with
  | nil =>
    cases h
    exact .nil
  | cons s ss ih =>
    obtain ⟨step, d₁, rest, rfl, hstep, hrest⟩ := compileAll_cons_eq_ok_iff.1 h
    obtain ⟨hhead, htail⟩ := List.forall_mem_cons.1 hs
    have hlegible := s.compile?_legible hstep hhead
    cases Statement.compile?_eq_ok_iff.1 hstep with
    | expr he =>
      exact .expr (he.confined hlegible hbindings hknown)
        (ih hrest hn htail hbindings hknown htaken)
    | @define x v recursive c hv =>
      let g : Global := ⟨scope.length + 1, x⟩
      have hpush : ∀ b ∈ (scope.push x).bindings, b.2.text ∈ g.text :: known := by
        intro b hb
        rcases Bindings.mem_set hb with rfl | hb
        · exact List.mem_cons_self
        · exact List.mem_cons_of_mem _ (hbindings b hb)
      have hglobal : ∀ y ∈ g.text :: known, ∃ g : Global, y = g.text :=
        List.forall_mem_cons.2 ⟨⟨g, rfl⟩, hknown⟩
      have hfresh : g.text ∉ taken := by
        intro hg
        obtain ⟨g', hg', heq⟩ := htaken _ hg
        exact hn.text_ne x hg' heq
      have hrest : compileAll (scope.push x).definitions ss = .ok (rest, d) := hrest
      refine .define (g := g) hfresh ?_ (ih hrest (hn.push x) htail hpush hglobal ?_)
      · cases recursive with
        | true =>
          have hv : v.HasCode (scope.push x).bindings [] c := hv
          exact hv.confined hlegible hpush hglobal
        | false =>
          have hv : v.HasCode scope.bindings [] c := hv
          exact hv.confined hlegible hbindings hknown
      · refine List.forall_mem_cons.2 ⟨⟨g, List.mem_cons_self, rfl⟩, fun y hy => ?_⟩
        obtain ⟨g', hg', heq⟩ := htaken y hy
        exact ⟨g', List.mem_cons_of_mem _ hg', heq⟩

end Toplevel
