import Toplevel.Proofs.Code.Scope

/-!
# What is wrong with a program

What is wrong with a program is listed in full, in the order in which it is met from left to right
(`Program.violations`): variables that are not known where they stand, fields that a record has
already, and arms that cannot be reached or whose tag had an arm before. Compiling gives code if
nothing is wrong, and otherwise stops at what is wrong first (`Program.compile?_follows`).
-/

namespace Toplevel

/-! ### What is wrong -/

/-- The names that are known where one more is bound. -/
def Text.bind (x : Text) (known : Text → Bool) (y : Text) : Bool := y = x || known y

mutual

/-- What is wrong with an expression where some names are known, in the order in which it is met. -/
def Expr.violations (known : Text → Bool) : Expr → List CompileError
  | .number _ | .string _ | .bool _ => []
  | .var x p => if known x then [] else [.unbound x p]
  | .func x b => b.violations (x.bind known)
  | .apply a b | .binary _ _ a b | .assign a b => a.violations known ++ b.violations known
  | .letIn x v b => v.violations known ++ b.violations (x.bind known)
  | .ifElse c y n => c.violations known ++ (y.violations known ++ n.violations known)
  | .matchWith s as => s.violations known ++ as.violations known []
  | .neg a | .deref a | .newRef a | .field a _ | .tagged _ a => a.violations known
  | .record fs => fs.violations known []
  | .update b fs => b.violations known ++ fs.violations known []

/-- An arm behind one for all else is met before its body, and a repeated tag after it. The tags of
the arms before are given, `none` for one for all else. -/
def Arms.violations (known : Text → Bool) (before : List (Option Text)) : Arms → List CompileError
  | .nil => []
  | .cons tag x b rest =>
    (if none ∈ before then [.unreachableArm] else []) ++ (b.violations (x.bind known)
      ++ ((tag.toList.filter fun t => some t ∈ before).map .repeatedTag
        ++ rest.violations known (tag :: before)))

/-- A repeated field is met before its value. The fields before are given. -/
def Fields.violations (known : Text → Bool) (before : List Text) : Fields → List CompileError
  | .nil => []
  | .cons x v rest =>
    (if x ∈ before then [.repeatedField x] else []) ++ (v.violations known
      ++ rest.violations known (x :: before))

end

/-- A recursive definition is known in its own value. -/
def Statement.violations (known : Text → Bool) : Statement → List CompileError
  | .expr e => e.violations known
  | .define x v recursive => v.violations (if recursive then x.bind known else known)

/-- What is known behind a statement. -/
def Statement.extend (known : Text → Bool) : Statement → Text → Bool
  | .expr _ => known
  | .define x _ _ => x.bind known

def violationsAll (known : Text → Bool) : List Statement → List CompileError
  | [] => []
  | s :: ss => s.violations known ++ violationsAll (s.extend known) ss

def Definitions.knows (d : Definitions) (x : Text) : Bool := (d.bindings.find? x).isSome

def Program.violations (p : Program) (d : Definitions) : List CompileError :=
  violationsAll d.knows p.statements

/-! ### Compiling stops at the first -/

/-- A result is there if nothing is wrong, and otherwise what is wrong first is the error. -/
def Follows {α : Type} (r : Except CompileError α) : List CompileError → Prop
  | [] => ∃ a, r = .ok a
  | e :: _ => r = .error e

namespace Follows

variable {α β : Type} {r : Except CompileError α} {es es' : List CompileError}

theorem ok (a : α) : Follows (.ok a) [] := ⟨a, rfl⟩

theorem bind {f : α → Except CompileError β} (h : Follows r es)
    (hf : ∀ a, r = .ok a → Follows (f a) es') : Follows (r >>= f) (es ++ es') := by
  cases es with
  | nil =>
    obtain ⟨a, rfl⟩ := h
    exact hf a rfl
  | cons e es =>
    rw [show r = .error e from h]
    rfl

theorem map (h : Follows r es) (f : α → β) : Follows (r >>= fun a => pure (f a)) es := by
  rw [← List.append_nil es]
  exact h.bind fun a _ => ok (f a)

theorem error_iff (h : Follows r es) (e : CompileError) : r = .error e ↔ es.head? = some e := by
  cases es with
  | nil =>
    obtain ⟨a, rfl⟩ := h
    exact ⟨nofun, nofun⟩
  | cons e' es =>
    rw [show r = .error e' from h, List.head?_cons, Option.some.injEq, Except.error.injEq]

theorem ok_iff (h : Follows r es) : (∃ a, r = .ok a) ↔ es = [] := by
  cases es with
  | nil => exact ⟨fun _ => rfl, fun _ => h⟩
  | cons e es =>
    rw [show r = .error e from h]
    exact ⟨nofun, nofun⟩

end Follows

section

variable (globals : Bindings)

/-- What can be named where the names of `scope` are bound. -/
def visible (scope : List Text) (y : Text) : Bool := y ∈ scope || (globals.find? y).isSome

theorem visible_cons (x : Text) (scope : List Text) :
    visible globals (x :: scope) = x.bind (visible globals scope) := by
  funext y
  rw [visible, Text.bind, visible, ← Bool.or_assoc]
  simp only [List.mem_cons, Bool.decide_or]

theorem resolve_follows (scope : List Text) (x : Text) (p : Position) :
    Follows (resolve globals scope x p)
      (if visible globals scope x then [] else [.unbound x p]) := by
  rw [resolve, visible]
  by_cases hx : x ∈ scope
  · rw [if_pos hx, decide_eq_true hx, Bool.true_or, if_pos rfl]
    exact .ok _
  · rw [if_neg hx, decide_eq_false hx, Bool.false_or]
    cases globals.find? x with
    | none => exact rfl
    | some g => exact .ok _

mutual

theorem Expr.compile_follows (scope : List Text) :
    ∀ e : Expr, Follows (e.compile globals scope) (e.violations (visible globals scope))
  | .number _ | .string _ | .bool _ => .ok _
  | .var x p => resolve_follows globals scope x p
  | .func x b => by
    rw [Expr.violations, ← visible_cons]
    exact (b.compile_follows (x :: scope)).map _
  | .apply a b | .binary _ _ a b | .assign a b =>
    (a.compile_follows scope).bind fun _ _ => (b.compile_follows scope).map _
  | .letIn x v b => by
    rw [Expr.violations, ← visible_cons]
    exact (v.compile_follows scope).bind fun _ _ => (b.compile_follows (x :: scope)).map _
  | .ifElse c y n =>
    (c.compile_follows scope).bind fun _ _ =>
      (y.compile_follows scope).bind fun _ _ => (n.compile_follows scope).map _
  | .matchWith s as =>
    (s.compile_follows scope).bind fun _ _ =>
      (as.compile_follows scope (by simp) rfl).map _
  | .neg a | .deref a | .newRef a | .field a _ | .tagged _ a => (a.compile_follows scope).map _
  | .record fs => (fs.compile_follows scope []).map _
  | .update b fs =>
    (b.compile_follows scope).bind fun _ _ => (fs.compile_follows scope []).map _

theorem Arms.compile_follows (scope : List Text) {tags : List Text} {closed : Bool}
    {before : List (Option Text)} (htags : ∀ t, t ∈ tags ↔ some t ∈ before)
    (hclosed : closed = decide (none ∈ before)) :
    ∀ as : Arms, Follows (as.compile globals scope tags closed)
      (as.violations (visible globals scope) before)
  | .nil => .ok _
  | .cons tag x b rest => by
    rw [Arms.compile, Arms.violations, hclosed, ← visible_cons]
    by_cases hnone : none ∈ before
    · rw [if_pos hnone, if_pos (decide_eq_true hnone)]
      exact rfl
    · rw [if_neg hnone, if_neg (by rwa [decide_eq_true_eq])]
      refine (b.compile_follows (x :: scope)).bind fun b' _ => ?_
      cases tag with
      | none =>
        refine (rest.compile_follows scope (fun t => ?_) ?_).map _
        · rw [htags, List.mem_cons, or_iff_right (by exact nofun)]
        · exact (decide_eq_true List.mem_cons_self).symm
      | some t =>
        change Follows (if t ∈ tags then _ else _) _
        by_cases ht : t ∈ tags
        · rw [if_pos ht, Option.toList_some, List.filter_cons,
            if_pos (decide_eq_true ((htags t).1 ht))]
          exact rfl
        · rw [if_neg ht, Option.toList_some, List.filter_cons,
            if_neg (by rwa [decide_eq_true_eq, ← htags])]
          refine (rest.compile_follows scope (fun t' => ?_) ?_).map _
          · rw [List.mem_cons, List.mem_cons, htags, Option.some.injEq]
          · refine (decide_eq_false fun hmem => ?_).symm
            exact hnone ((List.mem_cons.1 hmem).resolve_left nofun)

theorem Fields.compile_follows (scope : List Text) (names : List Text) :
    ∀ fs : Fields, Follows (fs.compile globals scope names)
      (fs.violations (visible globals scope) names)
  | .nil => .ok _
  | .cons x v rest => by
    rw [Fields.compile, Fields.violations]
    by_cases hx : x ∈ names
    · rw [if_pos hx, if_pos hx]
      exact rfl
    · rw [if_neg hx, if_neg hx]
      exact (v.compile_follows scope).bind fun v' _ =>
        (rest.compile_follows scope (x :: names)).map _

end

end

namespace Definitions

variable (d : Definitions)

theorem visible_bindings : visible d.bindings [] = d.knows := by
  funext y
  rw [visible, knows, decide_eq_false List.not_mem_nil, Bool.false_or]

theorem knows_define (x : Text) : (d.define x).1.knows = x.bind d.knows := by
  funext y
  rw [knows, Text.bind, knows, define, Bindings.find?_set]
  by_cases hx : x = y
  · rw [if_pos hx, decide_eq_true hx.symm, Bool.true_or]
    rfl
  · rw [if_neg hx, decide_eq_false (Ne.symm hx), Bool.false_or]

end Definitions

namespace Statement

theorem compile?_follows (d : Definitions) (s : Statement) :
    Follows (s.compile? d) (s.violations d.knows) := by
  cases s with
  | expr e =>
    rw [violations, ← d.visible_bindings]
    exact (e.compile_follows d.bindings []).map _
  | define x v recursive =>
    have hknown : (if recursive then x.bind d.knows else d.knows)
        = visible (if recursive then (d.define x).1.bindings else d.bindings) [] := by
      cases recursive
      · exact d.visible_bindings.symm
      · rw [if_pos rfl, if_pos rfl, Definitions.visible_bindings, d.knows_define]
    rw [violations, hknown]
    exact (v.compile_follows _ []).map _

theorem knows_of_compile? {d d' : Definitions} {s : Statement} {step : Step}
    (h : s.compile? d = .ok (step, d')) : d'.knows = s.extend d.knows := by
  cases Statement.compile?_eq_ok_iff.1 h with
  | expr => rfl
  | define x => exact d.knows_define x

end Statement

theorem compileAll_follows (d : Definitions) (ss : List Statement) :
    Follows (compileAll d ss) (violationsAll d.knows ss) := by
  induction ss generalizing d with
  | nil => exact .ok _
  | cons s ss ih =>
    refine (s.compile?_follows d).bind fun r hr => ?_
    rw [← Statement.knows_of_compile? hr]
    exact (ih r.2).map _

/-- Compiling stops at the first thing that is wrong. -/
theorem Program.compile?_follows (p : Program) (d : Definitions) :
    Follows (p.compile? d) (p.violations d) :=
  (compileAll_follows d p.statements).map _

end Toplevel
