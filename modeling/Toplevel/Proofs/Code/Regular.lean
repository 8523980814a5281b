import Toplevel.Proofs.Code.Violations
import Toplevel.Proofs.Syntax.Occurrences
import Toplevel.Proofs.Syntax.Relaid
import Toplevel.Proofs.Syntax.Rendering

/-!
# Which programs compile

A program compiles just if every variable that is not bound in it names a definition of the session,
no record in it has a field twice, and no match has an arm behind one for all else or two arms for
one tag; and otherwise the error is the first of what is wrong (`Program.compile?_exact`). So where
only variables are unbound, the error is about the one that stands leftmost.
-/

namespace Toplevel

/-! ### Variables that are not bound -/

mutual

/-- The variables of an expression that are not bound in it, from left to right. -/
def Expr.free : Expr → List (Text × Position)
  | .number _ | .string _ | .bool _ => []
  | .var x p => [(x, p)]
  | .func x b => b.free.filter (·.1 ≠ x)
  | .apply a b | .binary _ _ a b | .assign a b => a.free ++ b.free
  | .letIn x v b => v.free ++ b.free.filter (·.1 ≠ x)
  | .ifElse c y n => c.free ++ (y.free ++ n.free)
  | .matchWith s as => s.free ++ as.free
  | .neg a | .deref a | .newRef a | .field a _ | .tagged _ a => a.free
  | .record fs => fs.free
  | .update b fs => b.free ++ fs.free

def Arms.free : Arms → List (Text × Position)
  | .nil => []
  | .cons _ x b rest => b.free.filter (·.1 ≠ x) ++ rest.free

def Fields.free : Fields → List (Text × Position)
  | .nil => []
  | .cons _ v rest => v.free ++ rest.free

end

def Statement.free : Statement → List (Text × Position)
  | .expr e => e.free
  | .define x v recursive => if recursive then v.free.filter (·.1 ≠ x) else v.free

/-- The variables of some statements that name neither what is bound around them nor an earlier
statement. -/
def freeAll : List Statement → List (Text × Position)
  | [] => []
  | s :: ss => s.free ++ (freeAll ss).filter fun o => s.name? ≠ some o.1

def Program.free (p : Program) : List (Text × Position) := freeAll p.statements

mutual

theorem Expr.free_sublist : ∀ e : Expr, e.free.Sublist e.vars
  | .number _ | .string _ | .bool _ => .refl _
  | .var _ _ => .refl _
  | .func _ b => List.filter_sublist.trans b.free_sublist
  | .apply a b | .binary _ _ a b | .assign a b => a.free_sublist.append b.free_sublist
  | .letIn _ v b => v.free_sublist.append (List.filter_sublist.trans b.free_sublist)
  | .ifElse c y n => c.free_sublist.append (y.free_sublist.append n.free_sublist)
  | .matchWith s as => s.free_sublist.append as.free_sublist
  | .neg a | .deref a | .newRef a | .field a _ | .tagged _ a => a.free_sublist
  | .record fs => fs.free_sublist
  | .update b fs => b.free_sublist.append fs.free_sublist

theorem Arms.free_sublist : ∀ as : Arms, as.free.Sublist as.vars
  | .nil => .refl _
  | .cons _ _ b rest => (List.filter_sublist.trans b.free_sublist).append rest.free_sublist

theorem Fields.free_sublist : ∀ fs : Fields, fs.free.Sublist fs.vars
  | .nil => .refl _
  | .cons _ v rest => v.free_sublist.append rest.free_sublist

end

theorem Statement.free_sublist (s : Statement) : s.free.Sublist s.vars := by
  cases s with
  | expr e => exact e.free_sublist
  | define x v recursive =>
    rw [free]
    split
    · exact List.filter_sublist.trans v.free_sublist
    · exact v.free_sublist

theorem Program.free_sublist (p : Program) : p.free.Sublist p.vars := by
  rw [free, vars]
  induction p.statements with
  | nil => exact .refl _
  | cons s ss ih =>
    rw [freeAll, List.flatMap_cons]
    exact s.free_sublist.append (List.filter_sublist.trans ih)

/-! ### Which variables are unbound -/

def CompileError.unbound? : CompileError → Option (Text × Position)
  | unbound x p => some (x, p)
  | _ => none

/-- Those variables whose names are not known. -/
def unknown (known : Text → Bool) (os : List (Text × Position)) : List (Text × Position) :=
  os.filter fun o => !known o.1

theorem unknown_append (known : Text → Bool) (os os' : List (Text × Position)) :
    unknown known (os ++ os') = unknown known os ++ unknown known os' :=
  List.filter_append ..

theorem unknown_filter (known : Text → Bool) (x : Text) (os : List (Text × Position)) :
    unknown known (os.filter (·.1 ≠ x)) = unknown (x.bind known) os := by
  rw [unknown, List.filter_filter, unknown]
  refine List.filter_congr fun o _ => ?_
  rw [Text.bind, Bool.not_or, Bool.and_comm, decide_not]

mutual

theorem Expr.unbound_violations (known : Text → Bool) :
    ∀ e : Expr, (e.violations known).filterMap CompileError.unbound? = unknown known e.free
  | .number _ | .string _ | .bool _ => rfl
  | .var x p => by
    rw [Expr.violations, Expr.free, unknown, List.filter_cons]
    cases known x <;> rfl
  | .func x b => by
    rw [Expr.violations, Expr.free, unknown_filter, b.unbound_violations]
  | .apply a b | .binary _ _ a b | .assign a b => by
    rw [Expr.violations, Expr.free, unknown_append, List.filterMap_append, a.unbound_violations,
      b.unbound_violations]
  | .letIn x v b => by
    rw [Expr.violations, Expr.free, unknown_append, unknown_filter, List.filterMap_append,
      v.unbound_violations, b.unbound_violations]
  | .ifElse c y n => by
    rw [Expr.violations, Expr.free, unknown_append, unknown_append, List.filterMap_append,
      List.filterMap_append, c.unbound_violations, y.unbound_violations, n.unbound_violations]
  | .matchWith s as => by
    rw [Expr.violations, Expr.free, unknown_append, List.filterMap_append, s.unbound_violations,
      as.unbound_violations]
  | .neg a | .deref a | .newRef a | .field a _ | .tagged _ a => a.unbound_violations known
  | .record fs => fs.unbound_violations known []
  | .update b fs => by
    rw [Expr.violations, Expr.free, unknown_append, List.filterMap_append, b.unbound_violations,
      fs.unbound_violations]

theorem Arms.unbound_violations (known : Text → Bool) (before : List (Option Text)) :
    ∀ as : Arms,
      (as.violations known before).filterMap CompileError.unbound? = unknown known as.free
  | .nil => rfl
  | .cons tag x b rest => by
    rw [Arms.violations, Arms.free, unknown_append, unknown_filter, List.filterMap_append,
      List.filterMap_append, List.filterMap_append, b.unbound_violations, rest.unbound_violations,
      List.filterMap_map, show CompileError.unbound? ∘ CompileError.repeatedTag = fun _ => none from
        rfl, List.filterMap_none]
    split <;> rfl

theorem Fields.unbound_violations (known : Text → Bool) (before : List Text) :
    ∀ fs : Fields,
      (fs.violations known before).filterMap CompileError.unbound? = unknown known fs.free
  | .nil => rfl
  | .cons x v rest => by
    rw [Fields.violations, Fields.free, unknown_append, List.filterMap_append,
      List.filterMap_append, v.unbound_violations, rest.unbound_violations]
    split <;> rfl

end

theorem Statement.unbound_violations (known : Text → Bool) (s : Statement) :
    (s.violations known).filterMap CompileError.unbound? = unknown known s.free := by
  cases s with
  | expr e => exact e.unbound_violations known
  | define x v recursive =>
    rw [violations, free, v.unbound_violations]
    cases recursive
    · rfl
    · exact (unknown_filter known x v.free).symm

theorem Statement.unknown_filter (known : Text → Bool) (s : Statement)
    (os : List (Text × Position)) :
    unknown known (os.filter fun o => s.name? ≠ some o.1) = unknown (s.extend known) os := by
  cases s with
  | expr e => exact congrArg _ (List.filter_eq_self.2 fun _ _ => rfl)
  | define x v recursive =>
    rw [extend, ← Toplevel.unknown_filter]
    refine congrArg _ (List.filter_congr fun o _ => ?_)
    rw [decide_eq_decide, name?, ne_comm, Ne, Option.some.injEq]

theorem Program.unbound_violations (p : Program) (d : Definitions) :
    (p.violations d).filterMap CompileError.unbound? = unknown d.knows p.free := by
  rw [violations, free]
  generalize d.knows = known
  induction p.statements generalizing known with
  | nil => rfl
  | cons s ss ih =>
    rw [violationsAll, freeAll, unknown_append, List.filterMap_append, s.unbound_violations, ih,
      s.unknown_filter]

/-! ### Records and matches -/

def Fields.names : Fields → List Text
  | .nil => []
  | .cons x _ rest => x :: rest.names

def Arms.tags : Arms → List (Option Text)
  | .nil => []
  | .cons tag _ _ rest => tag :: rest.tags

/-- The tags of the arms of a match, where no arm stands behind one for all else and no two are for
one tag. -/
def Orderly (tags : List (Option Text)) : Prop := tags.Pairwise fun t u => t ≠ none ∧ t ≠ u

theorem orderly_cons {tag : Option Text} {tags : List (Option Text)} :
    Orderly (tag :: tags) ↔ (∀ u ∈ tags, tag ≠ none ∧ tag ≠ u) ∧ Orderly tags :=
  List.pairwise_cons

mutual

/-- No record literal and no update in an expression has a field twice, and no match in it has an
arm behind one for all else or two arms for one tag. -/
def Expr.Regular : Expr → Prop
  | .number _ | .string _ | .bool _ | .var .. => True
  | .func _ a | .neg a | .deref a | .newRef a | .field a _ | .tagged _ a => a.Regular
  | .apply a b | .letIn _ a b | .binary _ _ a b | .assign a b => a.Regular ∧ b.Regular
  | .ifElse c y n => c.Regular ∧ y.Regular ∧ n.Regular
  | .matchWith s as => s.Regular ∧ Orderly as.tags ∧ as.Regular
  | .record fs => fs.names.Nodup ∧ fs.Regular
  | .update b fs => b.Regular ∧ fs.names.Nodup ∧ fs.Regular

def Arms.Regular : Arms → Prop
  | .nil => True
  | .cons _ _ b rest => b.Regular ∧ rest.Regular

def Fields.Regular : Fields → Prop
  | .nil => True
  | .cons _ v rest => v.Regular ∧ rest.Regular

end

def Statement.Regular : Statement → Prop
  | .expr e => e.Regular
  | .define _ v _ => v.Regular

def Program.Regular (p : Program) : Prop := ∀ s ∈ p.statements, s.Regular

def CompileError.IsUnbound (e : CompileError) : Prop := e.unbound?.isSome = true

/-- Nothing is wrong with the place of an arm if the arms before it are for other tags. -/
theorem CompileError.arm_isUnbound_iff (tag : Option Text) (before : List (Option Text)) :
    (∀ v ∈ if none ∈ before then [unreachableArm] else [], v.IsUnbound)
        ∧ (∀ v ∈ (tag.toList.filter fun t => some t ∈ before).map repeatedTag, v.IsUnbound)
      ↔ ∀ t ∈ before, t ≠ none ∧ t ≠ tag := by
  constructor
  · rintro ⟨hunreachable, hrepeated⟩ t ht
    have hnone : none ∉ before := by
      intro hnone
      rw [if_pos hnone] at hunreachable
      exact nomatch hunreachable _ List.mem_cons_self
    refine ⟨fun h => hnone (h ▸ ht), ?_⟩
    rintro rfl
    cases t with
    | none => exact hnone ht
    | some t =>
      refine nomatch hrepeated (repeatedTag t) (List.mem_map_of_mem (List.mem_filter.2 ?_))
      exact ⟨List.mem_singleton_self t, decide_eq_true ht⟩
  · intro h
    constructor
    · rw [if_neg fun hnone => (h none hnone).1 rfl]
      exact nofun
    · intro v hv
      obtain ⟨t, ht, -⟩ := List.mem_map.1 hv
      obtain ⟨htag, hbefore⟩ := List.mem_filter.1 ht
      exact absurd (Option.mem_toList.1 htag).symm (h _ (of_decide_eq_true hbefore)).2

theorem CompileError.field_isUnbound_iff (x : Text) (before : List Text) :
    (∀ v ∈ if x ∈ before then [repeatedField x] else [], v.IsUnbound) ↔ x ∉ before := by
  split <;> rename_i hx
  · exact iff_of_false (fun h => nomatch h _ List.mem_cons_self) fun h => h hx
  · exact iff_of_true nofun hx

mutual

/-- Unbound variables are all that is wrong just if records and matches are regular. -/
theorem Expr.regular_iff (known : Text → Bool) :
    ∀ e : Expr, (∀ v ∈ e.violations known, v.IsUnbound) ↔ e.Regular
  | .number _ | .string _ | .bool _ => iff_of_true nofun trivial
  | .var x p => by
    refine iff_of_true ?_ trivial
    rw [Expr.violations]
    split
    · exact nofun
    · exact List.forall_mem_singleton.2 rfl
  | .func x b => b.regular_iff (x.bind known)
  | .apply a b | .binary _ _ a b | .assign a b => by
    rw [Expr.violations, Expr.Regular, List.forall_mem_append, a.regular_iff, b.regular_iff]
  | .letIn x v b => by
    rw [Expr.violations, Expr.Regular, List.forall_mem_append, v.regular_iff, b.regular_iff]
  | .ifElse c y n => by
    rw [Expr.violations, Expr.Regular, List.forall_mem_append, List.forall_mem_append,
      c.regular_iff, y.regular_iff, n.regular_iff]
  | .matchWith s as => by
    rw [Expr.violations, Expr.Regular, List.forall_mem_append, s.regular_iff, as.regular_iff]
    simp only [List.not_mem_nil, false_implies, implies_true, true_and]
  | .neg a | .deref a | .newRef a | .field a _ | .tagged _ a => a.regular_iff known
  | .record fs => by
    rw [Expr.violations, Expr.Regular, fs.regular_iff]
    simp only [List.not_mem_nil, not_false_iff, implies_true, true_and]
  | .update b fs => by
    rw [Expr.violations, Expr.Regular, List.forall_mem_append, b.regular_iff, fs.regular_iff]
    simp only [List.not_mem_nil, not_false_iff, implies_true, true_and]

theorem Arms.regular_iff (known : Text → Bool) (before : List (Option Text)) :
    ∀ as : Arms, (∀ v ∈ as.violations known before, v.IsUnbound)
      ↔ (∀ t ∈ before, ∀ u ∈ as.tags, t ≠ none ∧ t ≠ u) ∧ Orderly as.tags ∧ as.Regular
  | .nil => iff_of_true nofun ⟨fun _ _ => nofun, .nil, trivial⟩
  | .cons tag x b rest => by
    rw [Arms.violations, Arms.Regular, List.forall_mem_append, List.forall_mem_append,
      List.forall_mem_append, b.regular_iff, rest.regular_iff, Arms.tags,
      orderly_cons]
    have hplace := CompileError.arm_isUnbound_iff tag before
    constructor
    · rintro ⟨hunreachable, hb, hrepeated, hbefore, hrest⟩
      obtain ⟨htag, hbefore⟩ := List.forall_mem_cons.1 hbefore
      exact ⟨fun t ht => List.forall_mem_cons.2
        ⟨hplace.1 ⟨hunreachable, hrepeated⟩ t ht, hbefore t ht⟩, ⟨htag, hrest.1⟩, hb, hrest.2⟩
    · rintro ⟨hbefore, ⟨htag, horderly⟩, hb, hrest⟩
      have hfirst := hplace.2 fun t ht => (List.forall_mem_cons.1 (hbefore t ht)).1
      exact ⟨hfirst.1, hb, hfirst.2, List.forall_mem_cons.2
        ⟨htag, fun t ht => (List.forall_mem_cons.1 (hbefore t ht)).2⟩, horderly, hrest⟩

theorem Fields.regular_iff (known : Text → Bool) (before : List Text) :
    ∀ fs : Fields, (∀ v ∈ fs.violations known before, v.IsUnbound)
      ↔ (∀ x ∈ fs.names, x ∉ before) ∧ fs.names.Nodup ∧ fs.Regular
  | .nil => iff_of_true nofun ⟨nofun, .nil, trivial⟩
  | .cons x v rest => by
    rw [Fields.violations, Fields.Regular, List.forall_mem_append, List.forall_mem_append,
      v.regular_iff, rest.regular_iff, CompileError.field_isUnbound_iff, Fields.names,
      List.forall_mem_cons, List.nodup_cons]
    constructor
    · rintro ⟨hx, hv, hnames, hnodup, hrest⟩
      refine ⟨⟨hx, fun y hy hmem => hnames y hy (List.mem_cons_of_mem x hmem)⟩,
        ⟨fun hmem => hnames x hmem List.mem_cons_self, hnodup⟩, hv, hrest⟩
    · rintro ⟨⟨hx, hbefore⟩, ⟨hnotMem, hnodup⟩, hv, hrest⟩
      refine ⟨hx, hv, fun y hy hmem => ?_, hnodup, hrest⟩
      rcases List.mem_cons.1 hmem with rfl | hmem
      · exact hnotMem hy
      · exact hbefore y hy hmem

end

theorem Program.regular_iff (p : Program) (d : Definitions) :
    (∀ v ∈ p.violations d, v.IsUnbound) ↔ p.Regular := by
  rw [violations, Regular]
  generalize d.knows = known
  induction p.statements generalizing known with
  | nil => exact iff_of_true nofun nofun
  | cons s ss ih =>
    rw [violationsAll, List.forall_mem_append, List.forall_mem_cons, ih]
    cases s with
    | expr e => exact and_congr_left' (e.regular_iff known)
    | define x v recursive => exact and_congr_left' (v.regular_iff _)

/-! ### What the error is -/

/-- An error of the compiler itself, not of reading the source. -/
def CompileError.IsOwn (e : CompileError) : Prop := ∀ e', e ≠ .parse e'

mutual

theorem Expr.violations_own (known : Text → Bool) :
    ∀ e : Expr, ∀ v ∈ e.violations known, v.IsOwn
  | .number _ | .string _ | .bool _ => nofun
  | .var x p => by
    rw [Expr.violations]
    split
    · exact nofun
    · exact List.forall_mem_singleton.2 nofun
  | .func x b => b.violations_own (x.bind known)
  | .apply a b | .binary _ _ a b | .assign a b =>
    List.forall_mem_append.2 ⟨a.violations_own known, b.violations_own known⟩
  | .letIn x v b =>
    List.forall_mem_append.2 ⟨v.violations_own known, b.violations_own (x.bind known)⟩
  | .ifElse c y n =>
    List.forall_mem_append.2 ⟨c.violations_own known,
      List.forall_mem_append.2 ⟨y.violations_own known, n.violations_own known⟩⟩
  | .matchWith s as =>
    List.forall_mem_append.2 ⟨s.violations_own known, as.violations_own known []⟩
  | .neg a | .deref a | .newRef a | .field a _ | .tagged _ a => a.violations_own known
  | .record fs => fs.violations_own known []
  | .update b fs => List.forall_mem_append.2 ⟨b.violations_own known, fs.violations_own known []⟩

theorem Arms.violations_own (known : Text → Bool) (before : List (Option Text)) :
    ∀ as : Arms, ∀ v ∈ as.violations known before, v.IsOwn
  | .nil => nofun
  | .cons tag x b rest => by
    have hunreachable : ∀ v ∈ if none ∈ before then [CompileError.unreachableArm] else [],
        v.IsOwn := by
      split
      · exact List.forall_mem_singleton.2 nofun
      · exact nofun
    have hrepeated : ∀ ts : List Text, ∀ v ∈ ts.map CompileError.repeatedTag, v.IsOwn :=
      fun ts => List.forall_mem_map.2 fun _ _ => nofun
    exact List.forall_mem_append.2 ⟨hunreachable,
      List.forall_mem_append.2 ⟨b.violations_own (x.bind known),
        List.forall_mem_append.2 ⟨hrepeated _, rest.violations_own known (tag :: before)⟩⟩⟩

theorem Fields.violations_own (known : Text → Bool) (before : List Text) :
    ∀ fs : Fields, ∀ v ∈ fs.violations known before, v.IsOwn
  | .nil => nofun
  | .cons x v rest => by
    have hrepeated : ∀ v ∈ if x ∈ before then [CompileError.repeatedField x] else [],
        v.IsOwn := by
      split
      · exact List.forall_mem_singleton.2 nofun
      · exact nofun
    exact List.forall_mem_append.2 ⟨hrepeated,
      List.forall_mem_append.2 ⟨v.violations_own known, rest.violations_own known (x :: before)⟩⟩

end

theorem Program.violations_own (p : Program) (d : Definitions) : ∀ v ∈ p.violations d, v.IsOwn := by
  rw [violations]
  generalize d.knows = known
  induction p.statements generalizing known with
  | nil => exact nofun
  | cons s ss ih =>
    refine List.forall_mem_append.2 ⟨?_, ih _⟩
    cases s with
    | expr e => exact e.violations_own known
    | define x v recursive => exact v.violations_own _

theorem eq_nil_iff_of_unbound {vs : List CompileError} :
    vs = [] ↔ vs.filterMap CompileError.unbound? = [] ∧ ∀ v ∈ vs, v.IsUnbound := by
  constructor
  · rintro rfl
    exact ⟨rfl, nofun⟩
  · rintro ⟨hnone, hunbound⟩
    rw [List.eq_nil_iff_forall_not_mem]
    intro v hv
    have hv' := hunbound v hv
    rw [CompileError.IsUnbound, List.filterMap_eq_nil_iff.1 hnone v hv] at hv'
    cases hv'

/-- Where unbound variables are all that is wrong, the first of them is wrong first. -/
theorem head?_of_unbound {vs : List CompileError} (h : ∀ v ∈ vs, v.IsUnbound) {e : CompileError}
    (he : vs.head? = some e) :
    ∃ x q, e = .unbound x q ∧ (vs.filterMap CompileError.unbound?).head? = some (x, q) := by
  cases vs with
  | nil => cases he
  | cons v vs =>
    cases he
    have hv := h e List.mem_cons_self
    cases e with
    | unbound x q => exact ⟨x, q, rfl, rfl⟩
    | _ => cases hv

theorem Definitions.not_knows_iff {d : Definitions} {x : Text} :
    (!d.knows x) = true ↔ d.bindings.find? x = none := by
  rw [knows, Bool.not_eq_true', Option.isSome_eq_false_iff, Option.isNone_iff_eq_none]

theorem unknown_eq_nil_iff {d : Definitions} {os : List (Text × Position)} :
    unknown d.knows os = [] ↔ ∀ o ∈ os, (d.bindings.find? o.1).isSome = true := by
  rw [unknown, List.filter_eq_nil_iff]
  refine forall₂_congr fun o _ => ?_
  rw [Bool.not_eq_true', Bool.not_eq_false, Definitions.knows]

/-- Each kind of operator token with the operators that it may stand for. -/
def BinaryOp.tables : List (Terminal × List BinaryOp) :=
  [(.compareOp, comparisons), (.caret, [.concat]), (.plus, [.plus]), (.minus, [.minus]),
    (.productOp, products)]

theorem Token.IsRead.operator {token : Token} (h : token.IsRead) {ops : List BinaryOp}
    (hops : (token.kind, ops) ∈ BinaryOp.tables) : ∃ op ∈ ops, op.text = token.text := by
  obtain ⟨y, hy⟩ := h
  have hall : ∀ r ∈ BinaryOp.tables,
      r.1.marks ≠ [] ∧ ∀ w ∈ r.1.marks, ∃ op ∈ r.2, op.text = w := by decide
  obtain ⟨hmarks, htexts⟩ := hall _ hops
  rw [Terminal.lexeme?_of_marks hmarks] at hy
  exact htexts _ (Lexeme.oneOf?_eq_some hy).1

/-- Exactly which programs compile, and which error wins. -/
theorem Program.compile?_exact {source : Text} {p : Program} (h : parse source = .ok p)
    (d : Definitions) :
    ((∃ r, p.compile? d = .ok r)
        ↔ (∀ o ∈ p.free, (d.bindings.find? o.1).isSome = true) ∧ p.Regular)
      ∧ (∀ e, p.compile? d = .error e ↔ (p.violations d).head? = some e)
      ∧ (p.Regular → ∀ e, p.compile? d = .error e →
        ∃ x q, e = .unbound x q ∧ (x, q) ∈ p.free ∧ d.bindings.find? x = none
          ∧ ∀ o ∈ p.free, d.bindings.find? o.1 = none → o = (x, q) ∨ q.Before o.2)
      ∧ (∀ e, p.compile? d ≠ .error (.parse e))
      ∧ ∃ tree, Tree.ofSource source = .ok tree ∧ ∀ token ∈ tree.tokens, ∀ ops,
        (token.kind, ops) ∈ BinaryOp.tables → ∃ op ∈ ops, op.text = token.text := by
  have hfollows := p.compile?_follows d
  refine ⟨?_, hfollows.error_iff, fun hregular e he => ?_, fun e he => ?_, ?_⟩
  · rw [hfollows.ok_iff, eq_nil_iff_of_unbound, p.unbound_violations, p.regular_iff,
      unknown_eq_nil_iff]
  · rw [hfollows.error_iff] at he
    obtain ⟨x, q, rfl, hhead⟩ := head?_of_unbound ((p.regular_iff d).2 hregular) he
    rw [p.unbound_violations] at hhead
    have hordered : (unknown d.knows p.free).Pairwise fun o o' => o.2.Before o'.2 :=
      ((parse_vars h).sublist p.free_sublist).filter _
    have hmem : (x, q) ∈ unknown d.knows p.free := List.mem_of_mem_head? hhead
    obtain ⟨os, hos⟩ := List.head?_eq_some_iff.1 hhead
    obtain ⟨hfree, hunknown⟩ := List.mem_filter.1 hmem
    refine ⟨x, q, rfl, hfree, Definitions.not_knows_iff.1 hunknown, fun o ho hnone => ?_⟩
    have hmem' : o ∈ unknown d.knows p.free :=
      List.mem_filter.2 ⟨ho, Definitions.not_knows_iff.2 hnone⟩
    rw [hos] at hordered hmem'
    exact (List.mem_cons.1 hmem').imp_right ((List.pairwise_cons.1 hordered).1 o)
  · rw [hfollows.error_iff] at he
    exact p.violations_own d _ (List.mem_of_mem_head? he) e rfl
  · obtain ⟨tree, hsource, -⟩ := exists_of_parse h
    obtain ⟨c, q, hreads, -⟩ := Tree.ofSource_eq_ok_iff.1 hsource
    exact ⟨tree, hsource, fun token htoken ops hops => (hreads.isRead token htoken).operator hops⟩

theorem Program.compile?_exact_recursive : ∃ p, parse "let rec x = x" = .ok p
    ∧ (∀ e, p.compile? .empty ≠ .error e) ∧ ∃ r, p.compile? .empty = .ok r := by
  obtain ⟨q, hq⟩ := eq_of_isDefinitionAsItself parse_definitions_of_x.2
  obtain ⟨hok, herror, -⟩ := compile?_exact hq .empty
  refine ⟨_, hq, fun e he => ?_, hok.2 ⟨nofun, List.forall_mem_singleton.2 trivial⟩⟩
  cases (herror e).1 he

end Toplevel
