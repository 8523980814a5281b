import Toplevel.Proofs.Eval.Link

/-!
# Runs that correspond

`Link.Sim` says that two runs, started on machines that correspond, end alike and leave machines
that correspond. All operations on a machine do (`Sim.alloc`, `Sim.assign`, `Sim.global`), and runs
that follow one another do if each of them does (`Sim.bind`). So the same code runs alike on
machines that correspond (`Code.eval_sim`), as long as calls do; and calls do if the bodies of
functions that correspond run alike (`Run.apply_sim`).
-/

namespace Toplevel

namespace Link

variable {β γ α α' δ δ' : Type} (L : Link β γ)

/-- Values that correspond. -/
abbrev values (v v' : Value) : Prop := v' = v.rename L.place

abbrev members (ms ms' : Members) : Prop := ms' = ms.rename L.place

/-- Ends of runs that correspond, given how their values do. -/
inductive Results (V : α → α' → Prop) :
    Except Fault α × Machine β → Except Fault α' × Machine γ → Prop
  | done {a : α} {a' : α'} {m : Machine β} {m' : Machine γ} (h : V a a')
    (hm : L.Machines m m') : Results V (.ok a, m) (.ok a', m')
  | failed {e : Fault} {m : Machine β} {m' : Machine γ} (hm : L.Machines m m') :
    Results V (.error e, m) (.error e, m')
  | excused {e : Fault} {m : Machine β} {r : Except Fault α' × Machine γ} (he : L.excused e) :
    Results V (.error e, m) r

/-- Runs that correspond. -/
def Sim (V : α → α' → Prop) (x : Run β α) (y : Run γ α') : Prop :=
  ∀ m m', L.Machines m m' → L.Results V (x m) (y m')

variable {L}

namespace Sim

variable {V : α → α' → Prop} {W : δ → δ' → Prop}

theorem pure {a : α} {a' : α'} (h : V a a') : L.Sim V (pure a) (pure a') :=
  fun _ _ hm => .done h hm

theorem fail {e : Fault} : L.Sim V (Run.fail e) (Run.fail e) := fun _ _ hm => .failed hm

theorem bind {x : Run β α} {y : Run γ α'} {f : α → Run β δ} {g : α' → Run γ δ'}
    (hx : L.Sim V x y) (hf : ∀ a a', V a a' → L.Sim W (f a) (g a')) :
    L.Sim W (x >>= f) (y >>= g) := by
  intro m m' hm
  have hr := hx m m' hm
  rcases hxm : x m with ⟨r, m1⟩
  rcases hym : y m' with ⟨r', m1'⟩
  rw [hxm, hym] at hr
  cases hr with
  | done h hm1 =>
    rw [Run.bind_ok hxm, Run.bind_ok hym]
    exact hf _ _ h _ _ hm1
  | failed hm1 =>
    rw [Run.bind_error hxm, Run.bind_error hym]
    exact .failed hm1
  | excused he =>
    rw [Run.bind_error hxm]
    exact .excused he

theorem ask {f : Heap β → Except Fault Value} {g : Heap γ → Except Fault Value}
    (hg : ∀ h h', L.Heaps h h' → g h' = f h) (hf : ∀ h, Computed (f h)) :
    L.Sim L.values (Run.ask f) (Run.ask g) := by
  intro m m' hm
  have hc := hf m.heap
  unfold Run.ask
  rw [hg _ _ hm.heaps]
  rcases hfm : f m.heap with e | v
  · exact .failed hm
  · rw [hfm] at hc
    cases hc with
    | value hv => exact .done (Value.rename_of_isAtom L.place hv).symm hm

theorem truth (v : Value) :
    L.Sim Eq (Run.ask fun h => .ok (h.truth v))
      (Run.ask fun h => .ok (h.truth (v.rename L.place))) :=
  fun _ _ hm => .done (hm.heaps.truth v).symm hm

theorem alloc {o : Object β} {o' : Object γ} (ho : L.Objects o o') :
    L.Sim L.values (Run.alloc o) (Run.alloc o') := by
  intro m m' hm
  refine .done ?_ ⟨hm.heaps.alloc ho, hm.globals⟩
  exact congrArg Value.object (hm.heaps.place_size 0).symm

theorem object? (v : Value) :
    L.Sim (Option.Rel L.Objects) (Run.object? v) (Run.object? (v.rename L.place)) := by
  intro m m' hm
  refine .done ?_ hm
  rcases hm.heaps.object?_cases v with ⟨h1, h2⟩ | ⟨o, o', h1, h2, ho⟩
  · rw [h1, h2]
    exact .none
  · rw [h1, h2]
    exact .some ho

theorem lookup (env : Members) (x : Text) :
    L.Sim L.values (Run.lookup env x) (Run.lookup (env.rename L.place) x) := by
  simp only [Run.lookup, Members.lookup_rename]
  rcases env.lookup x with _ | v
  · exact fail
  · exact pure rfl

theorem global (g : Global) : L.Sim L.values (Run.global g) (Run.global g) := by
  intro m m' hm
  simp only [Run.global, Machine.find?]
  rcases L.lookup_globals hm.globals g with h | ⟨h, he⟩
  · rw [h]
    rcases m.globals.lookup g with _ | v
    · exact .failed hm
    · exact .done rfl hm
  · rw [h]
    exact .excused he

theorem define (g : Global) (v : Value) :
    L.Sim Eq (Run.define g v) (Run.define g (v.rename L.place)) :=
  fun _ _ hm => .done rfl ⟨hm.heaps, L.cons_globals hm.globals g v⟩

theorem field (v : Value) (x : Text) :
    L.Sim L.values (Run.field v x) (Run.field (v.rename L.place) x) := by
  refine (object? v).bind fun o o' ho => ?_
  cases ho with
  | none => exact fail
  | some ho =>
    cases ho with
    | record fields =>
      simp only [Members.lookup_rename]
      rcases fields.lookup x with _ | w
      · exact fail
      · exact pure rfl
    | _ => exact fail

theorem extend (v : Value) (news : Members) :
    L.Sim L.values (Run.extend v news) (Run.extend (v.rename L.place) (news.rename L.place)) := by
  refine (object? v).bind fun o o' ho => ?_
  cases ho with
  | none => exact fail
  | some ho =>
    cases ho with
    | record fields =>
      simp only [Members.putAll_rename]
      exact alloc (.record _)
    | _ => exact fail

theorem deref (v : Value) : L.Sim L.values (Run.deref v) (Run.deref (v.rename L.place)) := by
  refine (object? v).bind fun o o' ho => ?_
  cases ho with
  | none => exact fail
  | some ho =>
    cases ho with
    | ref target => exact pure rfl
    | _ => exact fail

theorem assign (v w : Value) :
    L.Sim L.values (Run.assign v w) (Run.assign (v.rename L.place) (w.rename L.place)) := by
  cases v with
  | object a =>
    intro m m' hm
    rcases hm.heaps.get?_cases a with ⟨h1, h2⟩ | ⟨o, o', h1, h2, ho⟩
    · have h3 : (Run.object? (.object a) : Run β _) m = (.ok none, m) := by
        simp [Run.object?, Heap.object?, h1]
      have h4 : (Run.object? (.object (L.place a)) : Run γ _) m' = (.ok none, m') := by
        simp [Run.object?, Heap.object?, h2]
      simp only [Run.assign, Value.rename_object, Run.bind_ok h3, Run.bind_ok h4]
      exact .failed hm
    · have h3 : (Run.object? (.object a) : Run β _) m = (.ok (some o), m) := by
        simp [Run.object?, Heap.object?, h1]
      have h4 : (Run.object? (.object (L.place a)) : Run γ _) m' = (.ok (some o'), m') := by
        simp [Run.object?, Heap.object?, h2]
      simp only [Run.assign, Value.rename_object, Run.bind_ok h3, Run.bind_ok h4]
      cases ho with
      | ref target =>
        exact .done rfl ⟨hm.heaps.set (Heap.lt_of_get? h1) (.ref w), hm.globals⟩
      | _ => exact .failed hm
  | _ =>
    refine (object? _).bind fun o o' _ => ?_
    exact fail

theorem variant? (v : Value) :
    L.Sim (fun r r' => r' = r.map (Prod.map id (Value.rename L.place))) (Run.variant? v)
      (Run.variant? (v.rename L.place)) := by
  refine (object? v).bind fun o o' ho => ?_
  cases ho with
  | none => exact pure rfl
  | some ho => cases ho <;> exact pure rfl

end Sim

end Link

open Link

variable {β γ : Type} {L : Link β γ}

/-- Calls correspond if the bodies of functions that correspond run alike. -/
theorem Run.apply_sim {enter : (Value → Value → Run β Value) → Env → β → Run β Value}
    {enter' : (Value → Value → Run γ Value) → Env → γ → Run γ Value}
    (henter : ∀ apply apply',
      (∀ f v, L.Sim L.values (apply f v) (apply' (f.rename L.place) (v.rename L.place))) →
      ∀ x b env y c env', L.functions x b env y c env' → ∀ v,
        L.Sim L.values (enter apply ((x, v) :: env) b)
          (enter' apply' ((y, v.rename L.place) :: env') c)) :
    ∀ (budget : Nat) (f v : Value),
      L.Sim L.values (Run.apply enter budget f v)
        (Run.apply enter' budget (f.rename L.place) (v.rename L.place))
  | budget, f, v => by
    unfold Run.apply
    refine (Sim.object? f).bind fun o o' ho => ?_
    have hother : L.Sim L.values
        (fun m => (.error (.notCallable (m.heap.typeName f)), m) : Run β Value)
        (fun m => (.error (.notCallable (m.heap.typeName (f.rename L.place))), m)) := by
      intro m m' hm
      simp only [hm.heaps.typeName]
      exact .failed hm
    cases ho with
    | none => exact hother
    | some ho =>
      cases ho with
      | closure h =>
        cases budget with
        | zero => exact Sim.fail
        | succ budget => exact henter _ _ (Run.apply_sim henter budget) _ _ _ _ _ _ h v
      | _ => exact hother

section Eval

variable {close : Code → β} {close' : Code → γ} {apply : Value → Value → Run β Value}
  {apply' : Value → Value → Run γ Value}

variable (hclose : ∀ x c env, L.functions x (close c) env x (close' c) (env.rename L.place))
  (happly : ∀ f v, L.Sim L.values (apply f v) (apply' (f.rename L.place) (v.rename L.place)))

include hclose happly

set_option linter.unusedSectionVars false in
mutual

theorem Code.eval_sim : ∀ (c : Code) (env : Env),
    L.Sim L.values (c.eval close apply env) (c.eval close' apply' (env.rename L.place))
  | .number x, env => Sim.pure rfl
  | .string s, env => Sim.pure rfl
  | .bool b, env => Sim.pure rfl
  | .localVar x, env => Sim.lookup env x
  | .globalVar g, env => Sim.global g
  | .lambda x b, env => Sim.alloc (.closure (hclose x b env))
  | .call f a, env => by
    by_cases hf : ∃ x b, f = .lambda x b
    · obtain ⟨x, b, rfl⟩ := hf
      simp only [Code.eval]
      refine (Code.eval_sim a env).bind ?_
      rintro v _ rfl
      exact Code.eval_sim b ((x, v) :: env)
    · have hne : ∀ x b, f ≠ .lambda x b := fun x b he => hf ⟨x, b, he⟩
      rw [Code.eval_call hne, Code.eval_call hne]
      refine (Code.eval_sim f env).bind ?_
      rintro g _ rfl
      refine (Code.eval_sim a env).bind ?_
      rintro v _ rfl
      exact happly g v
  | .ifElse c y n, env => by
    simp only [Code.eval]
    refine (Code.eval_sim c env).bind ?_
    rintro v _ rfl
    refine (Sim.truth v).bind ?_
    rintro b _ rfl
    cases b
    · exact Code.eval_sim n env
    · exact Code.eval_sim y env
  | .matchOn s cs, env => by
    simp only [Code.eval]
    refine (Code.eval_sim s env).bind ?_
    rintro v _ rfl
    refine (Sim.variant? v).bind ?_
    rintro r _ rfl
    exact Cases.eval_sim cs env v r
  | .binary op l r, env => by
    simp only [Code.eval]
    refine (Code.eval_sim l env).bind ?_
    rintro v _ rfl
    refine (Code.eval_sim r env).bind ?_
    rintro w _ rfl
    exact Sim.ask (fun _ _ H => H.operate op v w) fun h => h.operate_computed op v w
  | .remainder l r, env => by
    simp only [Code.eval]
    refine (Code.eval_sim l env).bind ?_
    rintro v _ rfl
    refine (Code.eval_sim r env).bind ?_
    rintro w _ rfl
    exact Sim.ask (fun _ _ H => H.remainder v w) fun h => h.remainder_computed v w
  | .neg a, env => by
    simp only [Code.eval]
    refine (Code.eval_sim a env).bind ?_
    rintro v _ rfl
    exact Sim.ask (fun _ _ H => H.negate v) fun h => h.negate_computed v
  | .deref a, env => by
    simp only [Code.eval]
    refine (Code.eval_sim a env).bind ?_
    rintro v _ rfl
    exact Sim.deref v
  | .assign t v, env => by
    simp only [Code.eval]
    refine (Code.eval_sim t env).bind ?_
    rintro target _ rfl
    refine (Code.eval_sim v env).bind ?_
    rintro value _ rfl
    exact Sim.assign target value
  | .record es, env => by
    simp only [Code.eval]
    refine (Entries.eval_sim es env).bind ?_
    rintro fields _ rfl
    exact Sim.alloc (.record fields)
  | .extend b es, env => by
    simp only [Code.eval]
    refine (Code.eval_sim b env).bind ?_
    rintro v _ rfl
    refine (Entries.eval_sim es env).bind ?_
    rintro fields _ rfl
    exact Sim.extend v fields
  | .field b x, env => by
    simp only [Code.eval]
    refine (Code.eval_sim b env).bind ?_
    rintro v _ rfl
    exact Sim.field v x
  | .tagged tag p, env => by
    simp only [Code.eval]
    refine (Code.eval_sim p env).bind ?_
    rintro v _ rfl
    exact Sim.alloc (.tagged tag v)
  | .newRef a, env => by
    simp only [Code.eval]
    refine (Code.eval_sim a env).bind ?_
    rintro v _ rfl
    exact Sim.alloc (.ref v)

theorem Cases.eval_sim : ∀ (cs : Cases) (env : Env) (v : Value) (variant : Option (Text × Value)),
    L.Sim L.values (cs.eval close apply env v variant)
      (cs.eval close' apply' (env.rename L.place) (v.rename L.place)
        (variant.map (Prod.map id (Value.rename L.place))))
  | .nil, env, v, none => Sim.fail
  | .nil, env, v, some (tag, payload) => Sim.fail
  | .otherwise x b, env, v, variant => Code.eval_sim b ((x, v) :: env)
  | .cons t x b rest, env, v, none => Cases.eval_sim rest env v none
  | .cons t x b rest, env, v, some (tag, payload) => by
    simp only [Cases.eval, Option.map_some, Prod.map, id]
    split
    · exact Code.eval_sim b ((x, payload) :: env)
    · exact Cases.eval_sim rest env v (some (tag, payload))

theorem Entries.eval_sim : ∀ (es : Entries) (env : Env),
    L.Sim L.members (es.eval close apply env) (es.eval close' apply' (env.rename L.place))
  | .nil, env => Sim.pure rfl
  | .cons x c rest, env => by
    simp only [Entries.eval]
    refine (Code.eval_sim c env).bind ?_
    rintro v _ rfl
    refine (Entries.eval_sim rest env).bind ?_
    rintro fields _ rfl
    exact Sim.pure rfl

end

end Eval

/-! ### The same functions -/

/-- The functions that correspond have the same code, and remember corresponding values. -/
def Link.SameCode (L : Link Code Code) : Prop :=
  ∀ x b env y c env', L.functions x b env y c env' ↔ y = x ∧ c = b ∧ env' = env.rename L.place

section SameCode

variable {L : Link Code Code} (hL : L.SameCode)

include hL

theorem Code.apply_sim (budget : Nat) (f v : Value) :
    L.Sim L.values (Code.apply budget f v)
      (Code.apply budget (f.rename L.place) (v.rename L.place)) := by
  refine Run.apply_sim (fun apply apply' happly x b env y c env' hfun w => ?_) budget f v
  obtain ⟨rfl, rfl, rfl⟩ := (hL ..).1 hfun
  exact Code.eval_sim (fun x c env => (hL ..).2 ⟨rfl, rfl, rfl⟩) happly c ((y, w) :: env)

theorem Step.eval_sim (calls : Nat) (s : Step) : L.Sim L.values (s.eval calls) (s.eval calls) := by
  have hcode : ∀ c : Code, L.Sim L.values (c.eval id (Code.apply calls) [])
      (c.eval id (Code.apply calls) []) := fun c =>
    Code.eval_sim (fun x c env => (hL ..).2 ⟨rfl, rfl, rfl⟩) (Code.apply_sim hL calls) c []
  cases s with
  | expr c => exact hcode c
  | define g c =>
    refine (hcode c).bind ?_
    rintro v _ rfl
    refine (Sim.define g v).bind ?_
    rintro _ _ rfl
    exact Sim.pure rfl

theorem evalSteps_sim (calls : Nat) : ∀ steps : List Step,
    L.Sim L.values (evalSteps calls steps) (evalSteps calls steps)
  | [] => Sim.pure rfl
  | [s] => Step.eval_sim hL calls s
  | s :: s' :: ss => (Step.eval_sim hL calls s).bind fun _ _ _ => evalSteps_sim calls (s' :: ss)

/-- A program runs alike on machines that correspond. -/
theorem Compiled.evaluate_sim (c : Compiled) : L.Sim L.values c.evaluate c.evaluate := by
  unfold Compiled.evaluate
  split
  · exact Sim.fail
  · exact evalSteps_sim hL maxCalls c.steps

end SameCode

end Toplevel
