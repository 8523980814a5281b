import Toplevel.Eval.Evaluate
import Toplevel.Proofs.Eval.Frame

/-!
# The deeds of a run

`Code.trace` evaluates code like `Code.eval` and tells, in order, what it has done that is of
consequence: the operators that have given a value, the references that have been pointed at
something else, and the records that have been updated. Without what it tells it is the evaluation
itself (`Compiled.untold_trace`).
-/

namespace Toplevel

/-- Something that the evaluation of code has done. -/
inductive Deed where
  | operated (op : Operator) (left right value : Value)
  | negated (operand value : Value)
  | assigned (reference target : Value)
  /-- A record has been made of another and of new values for `entries`, in a heap with `size`
  objects. -/
  | extended (size : Nat) (base : Value) (entries : Entries) (news : Members) (record : Value)

/-- A run that tells its deeds. -/
def Traced (α : Type) : Type := Machine Code → List Deed × Except Fault α × Machine Code

namespace Traced

variable {α α' : Type}

@[inline] protected def pure (a : α) : Traced α := fun m => ([], .ok a, m)

@[inline] protected def bind (x : Traced α) (f : α → Traced α') : Traced α' := fun m =>
  match x m with
  | (deeds, .ok a, m) => (deeds ++ (f a m).1, (f a m).2)
  | (deeds, .error e, m) => (deeds, .error e, m)

instance : Monad Traced where
  pure := Traced.pure
  bind := Traced.bind

/-- A run of which there is nothing to tell. -/
@[inline] def quietly (x : Run Code α) : Traced α := fun m => ([], x m)

/-- A run of which there is something to tell once it has a value. -/
@[inline] def telling (x : Run Code α) (deed : Machine Code → α → Deed) : Traced α := fun m =>
  match x m with
  | (.ok a, m') => ([deed m a], .ok a, m')
  | (.error e, m') => ([], .error e, m')

/-- The run without what it tells. -/
def untold (x : Traced α) : Run Code α := fun m => (x m).2

theorem bind_ok {x : Traced α} {f : α → Traced α'} {m m' : Machine Code} {deeds : List Deed}
    {a : α} (h : x m = (deeds, .ok a, m')) :
    (x >>= f) m = (deeds ++ (f a m').1, (f a m').2) := by
  change Traced.bind x f m = _
  simp [Traced.bind, h]

theorem bind_error {x : Traced α} {f : α → Traced α'} {m m' : Machine Code} {deeds : List Deed}
    {e : Fault} (h : x m = (deeds, .error e, m')) : (x >>= f) m = (deeds, .error e, m') := by
  change Traced.bind x f m = _
  simp [Traced.bind, h]

theorem telling_ok {x : Run Code α} {deed : Machine Code → α → Deed} {m m' : Machine Code} {a : α}
    (h : x m = (.ok a, m')) : telling x deed m = ([deed m a], .ok a, m') := by
  simp [telling, h]

theorem telling_error {x : Run Code α} {deed : Machine Code → α → Deed} {m m' : Machine Code}
    {e : Fault} (h : x m = (.error e, m')) : telling x deed m = ([], .error e, m') := by
  simp [telling, h]

@[simp]
theorem untold_pure (a : α) : (pure a : Traced α).untold = pure a := rfl

@[simp]
theorem untold_quietly (x : Run Code α) : (quietly x).untold = x := rfl

@[simp]
theorem untold_telling (x : Run Code α) (deed : Machine Code → α → Deed) :
    (telling x deed).untold = x := by
  funext m
  rcases h : x m with ⟨e | a, m'⟩
  · rw [untold, telling_error h]
  · rw [untold, telling_ok h]

@[simp]
theorem untold_bind (x : Traced α) (f : α → Traced α') :
    (x >>= f).untold = x.untold >>= fun a => (f a).untold := by
  funext m
  rcases h : x m with ⟨deeds, e | a, m'⟩
  · have hx : x.untold m = (.error e, m') := congrArg Prod.snd h
    rw [untold, bind_error h, Run.bind_error hx]
  · have hx : x.untold m = (.ok a, m') := congrArg Prod.snd h
    rw [untold, bind_ok h, Run.bind_ok hx]
    rfl

/-- Calls a value with an argument, like `Run.apply`. -/
def apply (enter : (Value → Value → Traced Value) → Env → Code → Traced Value) (budget : Nat)
    (f v : Value) : Traced Value := do
  match ← quietly (Run.object? f) with
  | some (.closure x b env) =>
    match budget with
    | 0 => quietly (Run.fail .tooDeep)
    | budget + 1 => enter (apply enter budget) ((x, v) :: env) b
  | _ => quietly fun m => (.error (.notCallable (m.heap.typeName f)), m)

theorem untold_apply {enter : (Value → Value → Traced Value) → Env → Code → Traced Value}
    {enter' : (Value → Value → Run Code Value) → Env → Code → Run Code Value}
    (henter : ∀ apply apply', (∀ f v, (apply f v).untold = apply' f v) →
      ∀ env c, (enter apply env c).untold = enter' apply' env c) :
    ∀ (budget : Nat) (f v : Value), (apply enter budget f v).untold = Run.apply enter' budget f v
  | budget, f, v => by
    rw [apply.eq_def, Run.apply.eq_def, untold_bind, untold_quietly]
    congr 1
    funext o
    rcases o with _ | o
    · rfl
    · cases o with
      | closure x b env =>
        cases budget with
        | zero => rfl
        | succ budget => exact henter _ _ (untold_apply henter budget) _ _
      | _ => rfl

end Traced

open Traced

section
variable (apply : Value → Value → Traced Value)

mutual

/-- The evaluation of code with its deeds. -/
def Code.trace (env : Env) : Code → Traced Value
  | .number x => pure (.float x)
  | .string s => pure (.string s)
  | .bool b => pure (.bool b)
  | .localVar x => quietly (.lookup env x)
  | .globalVar g => quietly (.global g)
  | .lambda x b => quietly (.alloc (.closure x b env))
  | .call (.lambda x b) a => do
    let v ← a.trace env
    b.trace ((x, v) :: env)
  | .call f a => do
    let f ← f.trace env
    let v ← a.trace env
    apply f v
  | .ifElse c y n => do
    let c ← c.trace env
    if ← quietly (Run.ask fun h => .ok (h.truth c)) then y.trace env else n.trace env
  | .matchOn s cs => do
    let v ← s.trace env
    cs.trace env v (← quietly (Run.variant? v))
  | .binary op l r => do
    let l ← l.trace env
    let r ← r.trace env
    telling (Run.ask fun h => h.operate op l r) fun _ v => .operated op l r v
  | .remainder l r => do
    let l ← l.trace env
    let r ← r.trace env
    quietly (Run.ask fun h => h.remainder l r)
  | .neg a => do
    let a ← a.trace env
    telling (Run.ask fun h => h.negate a) fun _ v => .negated a v
  | .deref a => do
    quietly (Run.deref (← a.trace env))
  | .assign t v => do
    let t ← t.trace env
    let v ← v.trace env
    telling (Run.assign t v) fun _ _ => .assigned t v
  | .record es => do
    let fields ← es.trace env
    quietly (Run.alloc (.record fields))
  | .extend b es => do
    let b ← b.trace env
    let fields ← es.trace env
    telling (Run.extend b fields) fun m v => .extended m.heap.size b es fields v
  | .field b x => do
    quietly (Run.field (← b.trace env) x)
  | .tagged tag p => do
    let p ← p.trace env
    quietly (Run.alloc (.tagged tag p))
  | .newRef a => do
    let a ← a.trace env
    quietly (Run.alloc (.ref a))

def Cases.trace (env : Env) (v : Value) (variant : Option (Text × Value)) : Cases → Traced Value
  | .nil =>
    match variant with
    | some (tag, _) => quietly (.fail (.noArm tag))
    | none => quietly (.fail .matchOfOther)
  | .otherwise x b => b.trace ((x, v) :: env)
  | .cons t x b rest =>
    match variant with
    | some (tag, payload) =>
      if tag = t then b.trace ((x, payload) :: env) else rest.trace env v variant
    | none => rest.trace env v variant

def Entries.trace (env : Env) : Entries → Traced Members
  | .nil => pure []
  | .cons x c rest => do
    let v ← c.trace env
    let fields ← rest.trace env
    pure ((x, v) :: fields)

end

end

theorem Code.trace_call {apply : Value → Value → Traced Value} {f : Code}
    (hf : ∀ x b, f ≠ .lambda x b) (a : Code) (env : Env) :
    (Code.call f a).trace apply env = (do
      let f ← f.trace apply env
      let v ← a.trace apply env
      apply f v) := by
  cases f <;> first | exact absurd rfl (hf _ _) | simp only [Code.trace]

section

variable {apply : Value → Value → Traced Value} {apply' : Value → Value → Run Code Value}
  (happly : ∀ f v, (apply f v).untold = apply' f v)

include happly

set_option linter.unusedSectionVars false in
mutual

theorem Code.untold_trace : ∀ (c : Code) (env : Env),
    (c.trace apply env).untold = c.eval id apply' env
  | .number _, _ | .string _, _ | .bool _, _ | .localVar _, _ | .globalVar _, _
  | .lambda _ _, _ => rfl
  | .call f a, env => by
    by_cases hf : ∃ x b, f = .lambda x b
    · obtain ⟨x, b, rfl⟩ := hf
      simp only [Code.trace, Code.eval, untold_bind, a.untold_trace, b.untold_trace]
    · rw [Code.trace_call fun x b he => hf ⟨x, b, he⟩, Code.eval_call fun x b he => hf ⟨x, b, he⟩]
      simp only [untold_bind, f.untold_trace, a.untold_trace, happly]
  | .ifElse c y n, env => by
    simp only [Code.trace, Code.eval, untold_bind, untold_quietly, c.untold_trace]
    congr 1
    funext v
    congr 1
    funext b
    cases b
    · exact n.untold_trace env
    · exact y.untold_trace env
  | .matchOn s cs, env => by
    simp only [Code.trace, Code.eval, untold_bind, untold_quietly, s.untold_trace,
      cs.untold_trace]
  | .binary op l r, env => by
    simp only [Code.trace, Code.eval, untold_bind, untold_telling, l.untold_trace, r.untold_trace]
  | .remainder l r, env => by
    simp only [Code.trace, Code.eval, untold_bind, untold_quietly, l.untold_trace, r.untold_trace]
  | .neg a, env => by
    simp only [Code.trace, Code.eval, untold_bind, untold_telling, a.untold_trace]
  | .deref a, env => by
    simp only [Code.trace, Code.eval, untold_bind, untold_quietly, a.untold_trace]
  | .assign t v, env => by
    simp only [Code.trace, Code.eval, untold_bind, untold_telling, t.untold_trace, v.untold_trace]
  | .record es, env => by
    simp only [Code.trace, Code.eval, untold_bind, untold_quietly, es.untold_trace]
  | .extend b es, env => by
    simp only [Code.trace, Code.eval, untold_bind, untold_telling, b.untold_trace,
      es.untold_trace]
  | .field b x, env => by
    simp only [Code.trace, Code.eval, untold_bind, untold_quietly, b.untold_trace]
  | .tagged tag p, env => by
    simp only [Code.trace, Code.eval, untold_bind, untold_quietly, p.untold_trace]
  | .newRef a, env => by
    simp only [Code.trace, Code.eval, untold_bind, untold_quietly, a.untold_trace]

theorem Cases.untold_trace : ∀ (cs : Cases) (env : Env) (v : Value)
    (variant : Option (Text × Value)),
    (cs.trace apply env v variant).untold = cs.eval id apply' env v variant
  | .nil, _, _, none => rfl
  | .nil, _, _, some _ => rfl
  | .otherwise x b, env, v, _ => b.untold_trace ((x, v) :: env)
  | .cons _ _ _ rest, env, v, none => rest.untold_trace env v none
  | .cons t x b rest, env, v, some (tag, payload) => by
    simp only [Cases.trace, Cases.eval]
    split
    · exact b.untold_trace ((x, payload) :: env)
    · exact rest.untold_trace env v (some (tag, payload))

theorem Entries.untold_trace : ∀ (es : Entries) (env : Env),
    (es.trace apply env).untold = es.eval id apply' env
  | .nil, _ => rfl
  | .cons x c rest, env => by
    simp only [Entries.trace, Entries.eval, untold_bind, untold_pure, c.untold_trace,
      rest.untold_trace]

end

end

/-! ### Programs -/

section
variable (calls : Nat)

def Code.tracedApply : Value → Value → Traced Value := Traced.apply Code.trace calls

def Step.trace : Step → Traced Value
  | .expr c => c.trace (Code.tracedApply calls) []
  | .define g c => do
    let v ← c.trace (Code.tracedApply calls) []
    quietly (Run.define g v)
    pure v

def traceSteps : List Step → Traced Value
  | [] => pure .null
  | [s] => s.trace calls
  | s :: ss => do
    let _ ← s.trace calls
    traceSteps ss

theorem Code.untold_tracedApply (f v : Value) :
    (Code.tracedApply calls f v).untold = Code.apply calls f v :=
  untold_apply (fun _ _ happly env c => c.untold_trace happly env) calls f v

theorem Step.untold_trace (s : Step) : (s.trace calls).untold = s.eval calls := by
  cases s with
  | expr c => exact c.untold_trace (Code.untold_tracedApply calls) []
  | define g c =>
    simp only [trace, eval, untold_bind, untold_quietly, untold_pure,
      c.untold_trace (Code.untold_tracedApply calls)]

theorem untold_traceSteps : ∀ steps : List Step,
    (traceSteps calls steps).untold = evalSteps calls steps
  | [] => rfl
  | [s] => s.untold_trace calls
  | s :: s' :: ss => by
    simp only [traceSteps, evalSteps, untold_bind, s.untold_trace, untold_traceSteps (s' :: ss)]

end

/-- The evaluation of a program with its deeds. -/
def Compiled.trace (c : Compiled) : Traced Value :=
  if maxBrackets < c.nesting + 1 then quietly (.fail .tooManyBrackets)
  else traceSteps maxCalls c.steps

/-- Telling its deeds, a program is evaluated as without. -/
theorem Compiled.untold_trace (c : Compiled) : c.trace.untold = c.evaluate := by
  unfold trace evaluate
  split
  · rfl
  · exact untold_traceSteps maxCalls c.steps

end Toplevel
