import Toplevel.Proofs.Eval.Interpretation
import Toplevel.Proofs.Eval.Simulation
import Toplevel.Proofs.Value.Display

/-!
# Compiled code does what the program means

A machine on which code is evaluated presents one on which programs are interpreted if both hold
the same, apart from the bodies of functions: instead of an expression in a scope there is its code
(`Link.compiled`). Names are resolved when an expression is compiled, and when it is interpreted;
`Expr.interpret_sim` says that this makes no difference, case by case along the tree. A program goes
on from scope to scope (`interpretAll_sim`).
-/

namespace Toplevel

/-- Whether code stands for a body, given the local names around it. -/
def Body.Compiles (locals : List Text) (c : Code) : Body → Prop
  | .source b scope => b.compile scope.bindings locals = .ok c
  | .host c' => c = c'

/-- Machines that differ in the form of functions only. -/
def Link.compiled : Link Body Code where
  place := id
  injective := Function.injective_id
  functions x b env y c env' :=
    y = x ∧ env' = env.rename id ∧ b.Compiles (x :: env.map Prod.fst) c
  globals gs gs' := gs' = gs
  excused _ := False
  lookup_globals h g := by
    rw [h, Value.rename_id_eq, Option.map_id_fun, id]
    exact Or.inl rfl
  cons_globals h g v := by
    rw [h, Value.rename_id]

open Link

/-! ### What compiles -/

theorem BinaryOp.compile_ne_lambda (op : BinaryOp) (l r : Code) (x : Text) (b : Code) :
    op.compile l r ≠ .lambda x b := by
  cases op <;> exact Code.noConfusion

/-- Only a function has the code of a function. -/
theorem Expr.HasCode.ne_lambda {globals : Bindings} {locals : List Text} {e : Expr} {c : Code}
    (h : e.HasCode globals locals c) (he : ∀ x b, e ≠ .func x b) (x : Text) (b : Code) :
    c ≠ .lambda x b := by
  cases h with
  | func => exact absurd rfl (he _ _)
  | binary op => exact op.compile_ne_lambda _ _ x b
  | _ => exact Code.noConfusion

/-! ### Operators and names -/

theorem BinaryOp.eval_compile {β : Type} (close : Code → β) (apply : Value → Value → Run β Value)
    (op : BinaryOp) (l r : Code) (env : Env) :
    (op.compile l r).eval close apply env = (do
      let v ← l.eval close apply env
      let w ← r.eval close apply env
      Run.ask fun h => h.binary op v w) := by
  cases op <;> simp only [BinaryOp.compile, Code.eval] <;> rfl

theorem Heap.binary_computed {β : Type} (h : Heap β) (op : BinaryOp) (v w : Value) :
    Computed (h.binary op v w) := by
  unfold Heap.binary
  split
  · exact h.operate_computed _ v w
  · exact h.remainder_computed v w

theorem Link.Heaps.binary {β γ : Type} {L : Link β γ} {h : Heap β} {h' : Heap γ}
    (H : L.Heaps h h') (op : BinaryOp) (v w : Value) :
    h'.binary op (v.rename L.place) (w.rename L.place) = h.binary op v w := by
  unfold Heap.binary
  split
  · exact H.operate _ v w
  · exact H.remainder v w

theorem lookup_eq_none_of_notMem {env : Env} {x : Text} (h : x ∉ env.map Prod.fst) :
    env.lookup x = none := by
  rw [List.lookup_eq_none_iff]
  intro e he
  rw [bne_iff_ne]
  rintro rfl
  exact h (List.mem_map_of_mem he)

theorem exists_lookup_of_mem {env : Env} {x : Text} (h : x ∈ env.map Prod.fst) :
    ∃ v, env.lookup x = some v := by
  rw [← Option.isSome_iff_exists, List.lookup_isSome_iff]
  obtain ⟨e, he, rfl⟩ := List.mem_map.1 h
  exact ⟨e, he, beq_self_eq_true _⟩

/-- A local name means what it means when it is met. -/
theorem Link.Sim.resolve_local {close : Code → Code} {apply : Value → Value → Run Code Value}
    {scope : Scope} {env : Env} {x : Text} (hx : x ∈ env.map Prod.fst) :
    Link.compiled.Sim Link.compiled.values (Run.resolve scope env x)
      ((Code.localVar x).eval close apply (env.rename Link.compiled.place)) := by
  obtain ⟨v, hv⟩ := exists_lookup_of_mem hx
  have hlocal : (Run.resolve scope env x : Run Body Value) = .lookup env x := by
    rw [Run.resolve, Run.lookup, hv]
  rw [hlocal]
  exact Sim.lookup env x

/-- So does a name that is not bound around it. -/
theorem Link.Sim.resolve_global {close : Code → Code} {apply : Value → Value → Run Code Value}
    {scope : Scope} {env : Env} {x : Text} {g : Global} (hx : x ∉ env.map Prod.fst)
    (hg : scope.bindings.find? x = some g) :
    Link.compiled.Sim Link.compiled.values (Run.resolve scope env x)
      ((Code.globalVar g).eval close apply (env.rename Link.compiled.place)) := by
  rw [Scope.find?_bindings] at hg
  rw [Run.resolve, lookup_eq_none_of_notMem hx, hg]
  exact Sim.global g

section Eval

variable {scope : Scope} {apply : Value → Value → Run Body Value}
  {apply' : Value → Value → Run Code Value}

variable (happly : ∀ f v, Link.compiled.Sim Link.compiled.values (apply f v)
  (apply' (f.rename Link.compiled.place) (v.rename Link.compiled.place)))

include happly

set_option linter.unusedSectionVars false in
mutual

/-- The code of an expression has its meaning. -/
theorem Expr.interpret_sim : ∀ (e : Expr) (env : Env) {c : Code},
    e.HasCode scope.bindings (env.map Prod.fst) c →
      Link.compiled.Sim Link.compiled.values (e.interpret scope apply env)
        (c.eval id apply' (env.rename Link.compiled.place))
  | _, _, _, .number _ | _, _, _, .string _ | _, _, _, .bool _ => Sim.pure rfl
  | _, _, _, .localVar hx _ => Sim.resolve_local hx
  | _, _, _, .globalVar hx hg _ => Sim.resolve_global hx hg
  | .func _ _, _, _, .func hb => Sim.alloc (.closure ⟨rfl, rfl, hb.compile⟩)
  | .apply f a, env, _, .apply hf ha => by
    by_cases hfunc : ∃ x b, f = .func x b
    · obtain ⟨x, b, rfl⟩ := hfunc
      cases hf with
      | func hb =>
        simp only [Expr.interpret, Code.eval]
        refine (Expr.interpret_sim a env ha).bind ?_
        rintro v _ rfl
        exact Expr.interpret_sim b ((x, v) :: env) hb
    · have hne : ∀ x b, f ≠ .func x b := fun x b he => hfunc ⟨x, b, he⟩
      rw [Expr.interpret_apply hne, Code.eval_call (hf.ne_lambda hne)]
      refine (Expr.interpret_sim f env hf).bind ?_
      rintro g _ rfl
      refine (Expr.interpret_sim a env ha).bind ?_
      rintro v _ rfl
      exact happly g v
  | .letIn x v b, env, _, .letIn hv hb => by
    simp only [Expr.interpret, Code.eval]
    refine (Expr.interpret_sim v env hv).bind ?_
    rintro w _ rfl
    exact Expr.interpret_sim b ((x, w) :: env) hb
  | .ifElse e y n, env, _, .ifElse he hy hn => by
    simp only [Expr.interpret, Code.eval]
    refine (Expr.interpret_sim e env he).bind ?_
    rintro v _ rfl
    refine (Sim.truth v).bind ?_
    rintro b _ rfl
    cases b
    · exact Expr.interpret_sim n env hn
    · exact Expr.interpret_sim y env hy
  | .matchWith s as, env, _, .matchWith hs has => by
    simp only [Expr.interpret, Code.eval]
    refine (Expr.interpret_sim s env hs).bind ?_
    rintro v _ rfl
    refine (Sim.variant? v).bind ?_
    rintro r _ rfl
    exact Arms.interpret_sim as env has v r
  | .binary op p l r, env, _, .binary _ _ hl hr => by
    rw [BinaryOp.eval_compile]
    simp only [Expr.interpret]
    refine (Expr.interpret_sim l env hl).bind ?_
    rintro v _ rfl
    refine (Expr.interpret_sim r env hr).bind ?_
    rintro w _ rfl
    exact Sim.ask (fun _ _ H => H.binary op v w) fun h => h.binary_computed op v w
  | .neg a, env, _, .neg ha => by
    simp only [Expr.interpret, Code.eval]
    refine (Expr.interpret_sim a env ha).bind ?_
    rintro v _ rfl
    exact Sim.ask (fun _ _ H => H.negate v) fun h => h.negate_computed v
  | .deref a, env, _, .deref ha => by
    simp only [Expr.interpret, Code.eval]
    refine (Expr.interpret_sim a env ha).bind ?_
    rintro v _ rfl
    exact Sim.deref v
  | .assign t v, env, _, .assign ht hv => by
    simp only [Expr.interpret, Code.eval]
    refine (Expr.interpret_sim t env ht).bind ?_
    rintro target _ rfl
    refine (Expr.interpret_sim v env hv).bind ?_
    rintro value _ rfl
    exact Sim.assign target value
  | .record fs, env, _, .record hfs => by
    simp only [Expr.interpret, Code.eval]
    refine (Fields.interpret_sim fs env hfs).bind ?_
    rintro fields _ rfl
    exact Sim.alloc (.record fields)
  | .update b fs, env, _, .update hb hfs => by
    simp only [Expr.interpret, Code.eval]
    refine (Expr.interpret_sim b env hb).bind ?_
    rintro v _ rfl
    refine (Fields.interpret_sim fs env hfs).bind ?_
    rintro fields _ rfl
    exact Sim.extend v fields
  | .field b x, env, _, .field hb _ => by
    simp only [Expr.interpret, Code.eval]
    refine (Expr.interpret_sim b env hb).bind ?_
    rintro v _ rfl
    exact Sim.field v x
  | .tagged tag p, env, _, .tagged _ hp => by
    simp only [Expr.interpret, Code.eval]
    refine (Expr.interpret_sim p env hp).bind ?_
    rintro v _ rfl
    exact Sim.alloc (.tagged tag v)
  | .newRef a, env, _, .newRef ha => by
    simp only [Expr.interpret, Code.eval]
    refine (Expr.interpret_sim a env ha).bind ?_
    rintro v _ rfl
    exact Sim.alloc (.ref v)

theorem Arms.interpret_sim : ∀ (as : Arms) (env : Env) {tags : List Text} {cs : Cases},
    as.HaveCode scope.bindings (env.map Prod.fst) tags cs →
      ∀ (v : Value) (variant : Option (Text × Value)),
        Link.compiled.Sim Link.compiled.values (as.interpret scope apply env v variant)
          (cs.eval id apply' (env.rename Link.compiled.place) (v.rename Link.compiled.place)
            (variant.map (Prod.map id (Value.rename Link.compiled.place))))
  | .nil, _, _, _, .nil, v, variant => by
    rcases variant with _ | ⟨tag, payload⟩ <;> exact Sim.fail
  | .cons none x b .nil, env, _, _, .otherwise hb, v, variant => by
    simp only [Arms.interpret, Cases.eval]
    exact Expr.interpret_sim b ((x, v) :: env) hb
  | .cons (some t) x b rest, env, _, _, .cons _ hb hrest, v, variant => by
    have hrest := Arms.interpret_sim rest env hrest v
    rcases variant with _ | ⟨tag, payload⟩
    · exact hrest none
    · simp only [Arms.interpret, Cases.eval, Option.map_some, Prod.map, id]
      split
      · exact Expr.interpret_sim b ((x, payload) :: env) hb
      · exact hrest (some (tag, payload))

theorem Fields.interpret_sim : ∀ (fs : Fields) (env : Env) {names : List Text} {es : Entries},
    fs.HaveCode scope.bindings (env.map Prod.fst) names es →
      Link.compiled.Sim Link.compiled.members (fs.interpret scope apply env)
        (es.eval id apply' (env.rename Link.compiled.place))
  | .nil, _, _, _, .nil => Sim.pure rfl
  | .cons x e rest, env, _, _, .cons _ hv hrest => by
    simp only [Fields.interpret, Entries.eval]
    refine (Expr.interpret_sim e env hv).bind ?_
    rintro v _ rfl
    refine (Fields.interpret_sim rest env hrest).bind ?_
    rintro fields _ rfl
    exact Sim.pure rfl

end

end Eval

/-! ### Programs -/

theorem Body.apply_sim (budget : Nat) (f v : Value) :
    Link.compiled.Sim Link.compiled.values (Body.apply budget f v)
      (Code.apply budget (f.rename Link.compiled.place) (v.rename Link.compiled.place)) := by
  refine Run.apply_sim (fun apply apply' happly x b env y c env' hfun w => ?_) budget f v
  obtain ⟨rfl, rfl, hb⟩ := hfun
  cases b with
  | source b scope => exact Expr.interpret_sim happly b ((y, w) :: env) (b.hasCode_of_compile hb)
  | host c' =>
    cases hb
    have hhost : ∀ x c env, Link.compiled.functions x (.host c) env x (id c)
        (env.rename Link.compiled.place) := fun x c env => ⟨rfl, rfl, rfl⟩
    exact Code.eval_sim hhost happly c ((y, w) :: env)

theorem Statement.interpret_sim (calls : Nat) {scope : Scope} {s : Statement} {step : Step}
    {d : Definitions} (h : s.compile? scope.definitions = .ok (step, d)) :
    Link.compiled.Sim Link.compiled.values (s.interpret calls scope) (step.eval calls) := by
  cases Statement.compile?_eq_ok_iff.1 h with
  | @expr e _ he => exact Expr.interpret_sim (Body.apply_sim calls) e [] he
  | @define x v recursive c hv =>
    have hv : v.HasCode (Scope.bindings (if recursive then scope.push x else scope)) [] c := by
      cases recursive <;> exact hv
    refine (Expr.interpret_sim (Body.apply_sim calls) v [] hv).bind ?_
    rintro w _ rfl
    refine (Sim.define ⟨scope.length + 1, x⟩ w).bind ?_
    rintro _ _ rfl
    exact Sim.pure rfl

theorem interpretAll_sim (calls : Nat) : ∀ (ss : List Statement) {scope : Scope}
    {steps : List Step} {d : Definitions}, compileAll scope.definitions ss = .ok (steps, d) →
      Link.compiled.Sim Link.compiled.values (interpretAll calls scope ss) (evalSteps calls steps)
  | [], scope, steps, d, h => by
    cases h
    exact Sim.pure rfl
  | [s], scope, steps, d, h => by
    obtain ⟨step, d₁, rest, rfl, hs, hnil⟩ := compileAll_cons_eq_ok_iff.1 h
    cases hnil
    exact Statement.interpret_sim calls hs
  | s :: s' :: ss, scope, steps, d, h => by
    obtain ⟨step, d₁, rest, rfl, hs, hrest⟩ := compileAll_cons_eq_ok_iff.1 h
    obtain ⟨rfl, -⟩ := s.compile?_scope hs
    have ih := interpretAll_sim calls (s' :: ss) hrest
    obtain ⟨step', d₂, rest', rfl, -⟩ := compileAll_cons_eq_ok_iff.1 hrest
    exact (Statement.interpret_sim calls hs).bind fun _ _ _ => ih

end Toplevel
