import Toplevel.Eval.Evaluate
import Toplevel.Proofs.Code.Naming
import Toplevel.Proofs.Code.Scope
import Toplevel.Proofs.Eval.Operation

/-!
# What a run leaves alone

The evaluation of code sets no global and changes no object but the targets of references
(`Code.eval_steady`): that is for the steps of a program, which set their globals one after another
and no others (`evalSteps_advances`). A run that asks for a name it does not find asks for a local
name or for a global that the machine does not have.
-/

namespace Toplevel

variable {β α α' : Type}

/-! ### Heaps -/

/-- Each object of `h` is still there in `h'`, and is the same unless it is a reference. -/
def Heap.Keeps (h h' : Heap β) : Prop :=
  ∀ a o, h.get? a = some o →
    h'.get? a = some o ∨ ∃ t t', o = .ref t ∧ h'.get? a = some (.ref t')

namespace Heap.Keeps

variable {h h' h'' : Heap β}

theorem refl (h : Heap β) : h.Keeps h := fun _ _ ho => Or.inl ho

theorem trans (h1 : h.Keeps h') (h2 : h'.Keeps h'') : h.Keeps h'' := by
  intro a o ho
  rcases h1 a o ho with ho' | ⟨t, t', rfl, ho'⟩
  · exact h2 a o ho'
  · rcases h2 a _ ho' with ho'' | ⟨s, s', -, ho''⟩
    · exact Or.inr ⟨t, t', rfl, ho''⟩
    · exact Or.inr ⟨t, s', rfl, ho''⟩

theorem alloc (h : Heap β) (o : Object β) : h.Keeps (h.alloc o).2 := by
  intro a p hp
  exact Or.inl (by rw [Heap.get?_alloc_of_lt (Heap.lt_of_get? hp), hp])

/-- Only a reference is replaced, and by a reference. -/
theorem set {a : Nat} {t : Value} (ha : h.get? a = some (.ref t)) (t' : Value) :
    h.Keeps (h.set a (.ref t')) := by
  intro b p hp
  by_cases hab : a = b
  · subst hab
    rw [ha] at hp
    cases hp
    exact Or.inr ⟨t, t', rfl, Heap.get?_set_self (Heap.lt_of_get? ha) _⟩
  · exact Or.inl (by rw [Heap.get?_set_of_ne hab, hp])

end Heap.Keeps

/-- Objects have been added to a heap. -/
structure Heap.Extends (h h' : Heap β) : Prop where
  size : h.size ≤ h'.size
  get? : ∀ a < h.size, h'.get? a = h.get? a

namespace Heap.Extends

variable {h h' h'' : Heap β}

theorem refl (h : Heap β) : h.Extends h := ⟨Nat.le_refl _, fun _ _ => rfl⟩

theorem trans (h1 : h.Extends h') (h2 : h'.Extends h'') : h.Extends h'' where
  size := Nat.le_trans h1.size h2.size
  get? a ha := (h2.get? a (Nat.lt_of_lt_of_le ha h1.size)).trans (h1.get? a ha)

theorem alloc (h : Heap β) (o : Object β) : h.Extends (h.alloc o).2 where
  size := by rw [Heap.size_alloc]; exact Nat.le_succ _
  get? _ ha := Heap.get?_alloc_of_lt ha o

theorem of_get? (hget : ∀ a o, h.get? a = some o → h'.get? a = some o) : h.Extends h' where
  size := by
    refine Nat.le_of_not_lt fun hlt => ?_
    obtain ⟨o, ho⟩ : ∃ o, h.get? h'.size = some o := by
      rw [← Option.ne_none_iff_exists', ne_eq, Heap.get?_eq_none]
      exact Nat.not_le.2 hlt
    cases (Heap.get?_eq_none.2 (Nat.le_refl h'.size)).symm.trans (hget _ o ho)
  get? a ha := by
    obtain ⟨o, ho⟩ : ∃ o, h.get? a = some o := by
      rw [← Option.ne_none_iff_exists', ne_eq, Heap.get?_eq_none]
      exact Nat.not_le.2 ha
    rw [ho, hget a o ho]

theorem get?_eq (hext : h.Extends h') {a : Nat} {o : Object β} (ha : h.get? a = some o) :
    h'.get? a = some o := by
  rw [hext.get? a (Heap.lt_of_get? ha), ha]

end Heap.Extends

/-! ### Globals -/

theorem Machine.find?_isSome_of_append {m m' : Machine β} {news : List (Global × Value)}
    (h : m'.globals = news ++ m.globals) {g : Global} (hg : (m.find? g).isSome) :
    (m'.find? g).isSome := by
  rw [find?, h, List.lookup_append, Option.isSome_or]
  rw [find?] at hg
  rw [hg, Bool.or_true]

/-! ### Faults -/

/-- What a machine may answer to a run that fails: only a global that it does not have is missing
there. -/
inductive Fault.Of (m : Machine β) : Fault → Prop
  | ordinary {e : Fault} (h : e.isOrdinary) : Of m e
  | localName (x : Text) : Of m (.undefined (localText x))
  | globalName {g : Global} (h : m.find? g = none) : Of m (.undefined g.text)

theorem Fault.Of.find?_eq_none {m : Machine β} {g : Global} (h : Fault.Of m (.undefined g.text)) :
    m.find? g = none := by
  generalize he : Fault.undefined g.text = e at h
  cases h with
  | ordinary h =>
    subst he
    cases h
  | localName x =>
    rw [Fault.undefined.injEq] at he
    exact absurd he (g.text_ne_localText x)
  | globalName h =>
    rw [Fault.undefined.injEq] at he
    rw [Global.text_injective he]
    exact h

theorem Fault.Of.of_globals {m m' : Machine β} (hg : m'.globals = m.globals) {e : Fault}
    (h : Fault.Of m' e) : Fault.Of m e := by
  cases h with
  | ordinary h => exact .ordinary h
  | localName x => exact .localName x
  | globalName h =>
    refine .globalName ?_
    rw [← h, Machine.find?, Machine.find?, hg]

/-! ### Runs -/

namespace Run

theorem object?_bind (v : Value) (f : Option (Object β) → Run β α) (m : Machine β) :
    (object? v >>= f) m = f (m.heap.object? v) m := rfl

/-- An assignment fails, or points a reference at another value. -/
theorem assign_cases (v w : Value) (m : Machine β) :
    assign v w m = (.error .assignToOther, m)
      ∨ ∃ a t, v = .object a ∧ m.heap.get? a = some (.ref t)
        ∧ assign v w m = (.ok w, { m with heap := m.heap.set a (.ref w) }) := by
  rw [assign, object?_bind]
  cases v with
  | object a =>
    simp only [Heap.object?]
    rcases hget : m.heap.get? a with _ | o
    · exact .inl rfl
    · cases o with
      | ref t => exact .inr ⟨a, t, rfl, hget, rfl⟩
      | _ => exact .inl rfl
  | _ => exact .inl rfl

end Run

/-- What a steady run makes of a machine. -/
structure Run.Leaves (m : Machine β) (r : Except Fault α × Machine β) : Prop where
  globals : r.2.globals = m.globals
  heap : m.heap.Keeps r.2.heap
  fault : ∀ e, r.1 = .error e → Fault.Of m e

/-- A run that sets no global and changes no object but the targets of references. -/
def Run.Steady (x : Run β α) : Prop := ∀ m, Run.Leaves m (x m)

namespace Run.Steady

theorem pure (a : α) : Steady (pure a : Run β α) :=
  fun m => ⟨rfl, .refl m.heap, fun _ h => by cases h⟩

theorem fail {e : Fault} (he : ∀ m : Machine β, Fault.Of m e) : Steady (.fail e : Run β α) :=
  fun m => ⟨rfl, .refl m.heap, fun _ h => by cases h; exact he m⟩

theorem bind {x : Run β α} {f : α → Run β α'} (hx : Steady x) (hf : ∀ a, Steady (f a)) :
    Steady (x >>= f) := by
  intro m
  have h := hx m
  rcases hxm : x m with ⟨e | a, m1⟩
  · rw [hxm] at h
    rw [Run.bind_error hxm]
    exact ⟨h.globals, h.heap, fun e' he' => by cases he'; exact h.fault e rfl⟩
  · rw [hxm] at h
    rw [Run.bind_ok hxm]
    have h1 := hf a m1
    exact ⟨h1.globals.trans h.globals, h.heap.trans h1.heap,
      fun e he => (h1.fault e he).of_globals h.globals⟩

theorem ask {f : Heap β → Except Fault α} (hf : ∀ h e, f h = .error e → e.isOrdinary) :
    Steady (.ask f : Run β α) :=
  fun m => ⟨rfl, .refl m.heap, fun e h => .ordinary (hf m.heap e h)⟩

theorem ask_computed {f : Heap β → Except Fault Value} (hf : ∀ h, Computed (f h)) :
    Steady (.ask f : Run β Value) := by
  refine ask fun h e he => ?_
  have hc := hf h
  rw [he] at hc
  cases hc with
  | fault h => exact h

theorem object? (v : Value) : Steady (.object? v : Run β _) :=
  fun m => ⟨rfl, .refl m.heap, fun _ h => by cases h⟩

theorem alloc (o : Object β) : Steady (.alloc o : Run β Value) :=
  fun m => ⟨rfl, .alloc m.heap o, fun _ h => by cases h⟩

theorem global (g : Global) : Steady (.global g : Run β Value) := by
  intro m
  unfold Run.global
  split
  · exact ⟨rfl, .refl m.heap, fun _ h => by cases h⟩
  · rename_i hnone
    exact ⟨rfl, .refl m.heap, fun _ h => by cases h; exact .globalName hnone⟩

theorem lookup (env : Env) (x : Text) : Steady (.lookup env x : Run β Value) := by
  unfold Run.lookup
  split
  · exact pure _
  · exact fail fun _ => .localName x

theorem field (v : Value) (x : Text) : Steady (.field v x : Run β Value) := by
  refine (object? v).bind fun o => ?_
  split
  · split
    · exact pure _
    · exact fail fun _ => .ordinary rfl
  · exact fail fun _ => .ordinary rfl

theorem extend (v : Value) (news : Members) : Steady (.extend v news : Run β Value) := by
  refine (object? v).bind fun o => ?_
  split
  · exact alloc _
  · exact fail fun _ => .ordinary rfl

theorem deref (v : Value) : Steady (.deref v : Run β Value) := by
  refine (object? v).bind fun o => ?_
  split
  · exact pure _
  · exact fail fun _ => .ordinary rfl

theorem variant? (v : Value) : Steady (.variant? v : Run β _) := by
  refine (object? v).bind fun o => ?_
  split <;> exact pure _

theorem assign (v w : Value) : Steady (.assign v w : Run β Value) := by
  intro m
  rcases Run.assign_cases v w m with h | ⟨a, t, -, ha, h⟩
  · rw [h]
    exact ⟨rfl, .refl m.heap, fun _ h => by cases h; exact .ordinary rfl⟩
  · rw [h]
    exact ⟨rfl, .set ha w, fun _ h => by cases h⟩

theorem apply {enter : (Value → Value → Run β Value) → Env → β → Run β Value}
    (henter : ∀ apply, (∀ f v, Steady (apply f v)) → ∀ env b, Steady (enter apply env b)) :
    ∀ (budget : Nat) (f v : Value), Steady (Run.apply enter budget f v)
  | budget, f, v => by
    unfold Run.apply
    refine (object? f).bind fun o => ?_
    have hother : Steady (fun m => (.error (.notCallable (m.heap.typeName f)), m) : Run β Value) :=
      fun m => ⟨rfl, .refl m.heap, fun _ h => by cases h; exact .ordinary rfl⟩
    rcases o with _ | o
    · exact hother
    · cases o with
      | closure x b env =>
        cases budget with
        | zero => exact fail fun _ => .ordinary rfl
        | succ budget => exact henter _ (apply henter budget) _ _
      | _ => exact hother

end Run.Steady

open Run

section Eval

variable {close : Code → β} {apply : Value → Value → Run β Value}
  (happly : ∀ f v, Steady (apply f v))

include happly

set_option linter.unusedSectionVars false in
mutual

theorem Code.eval_steady : ∀ (c : Code) (env : Env), Steady (c.eval close apply env)
  | .number x, env => Steady.pure _
  | .string s, env => Steady.pure _
  | .bool b, env => Steady.pure _
  | .localVar x, env => Steady.lookup env x
  | .globalVar g, env => Steady.global g
  | .lambda x b, env => Steady.alloc _
  | .call f a, env => by
    by_cases hf : ∃ x b, f = .lambda x b
    · obtain ⟨x, b, rfl⟩ := hf
      simp only [Code.eval]
      exact (Code.eval_steady a env).bind fun v => Code.eval_steady b ((x, v) :: env)
    · rw [Code.eval_call fun x b he => hf ⟨x, b, he⟩]
      exact (Code.eval_steady f env).bind fun g =>
        (Code.eval_steady a env).bind fun v => happly g v
  | .ifElse c y n, env => by
    simp only [Code.eval]
    refine (Code.eval_steady c env).bind fun v => (Steady.ask fun h e he => by cases he).bind ?_
    intro b
    cases b
    · exact Code.eval_steady n env
    · exact Code.eval_steady y env
  | .matchOn s cs, env => by
    simp only [Code.eval]
    exact (Code.eval_steady s env).bind fun v =>
      (Steady.variant? v).bind fun r => Cases.eval_steady cs env v r
  | .binary op l r, env => by
    simp only [Code.eval]
    exact (Code.eval_steady l env).bind fun v => (Code.eval_steady r env).bind fun w =>
      Steady.ask_computed fun h => h.operate_computed op v w
  | .remainder l r, env => by
    simp only [Code.eval]
    exact (Code.eval_steady l env).bind fun v => (Code.eval_steady r env).bind fun w =>
      Steady.ask_computed fun h => h.remainder_computed v w
  | .neg a, env => by
    simp only [Code.eval]
    exact (Code.eval_steady a env).bind fun v =>
      Steady.ask_computed fun h => h.negate_computed v
  | .deref a, env => by
    simp only [Code.eval]
    exact (Code.eval_steady a env).bind fun v => Steady.deref v
  | .assign t v, env => by
    simp only [Code.eval]
    exact (Code.eval_steady t env).bind fun target => (Code.eval_steady v env).bind fun value =>
      Steady.assign target value
  | .record es, env => by
    simp only [Code.eval]
    exact (Entries.eval_steady es env).bind fun fields => Steady.alloc _
  | .extend b es, env => by
    simp only [Code.eval]
    exact (Code.eval_steady b env).bind fun v => (Entries.eval_steady es env).bind fun fields =>
      Steady.extend v fields
  | .field b x, env => by
    simp only [Code.eval]
    exact (Code.eval_steady b env).bind fun v => Steady.field v x
  | .tagged tag p, env => by
    simp only [Code.eval]
    exact (Code.eval_steady p env).bind fun v => Steady.alloc _
  | .newRef a, env => by
    simp only [Code.eval]
    exact (Code.eval_steady a env).bind fun v => Steady.alloc _

theorem Cases.eval_steady : ∀ (cs : Cases) (env : Env) (v : Value)
    (variant : Option (Text × Value)), Steady (cs.eval close apply env v variant)
  | .nil, env, v, none => Steady.fail fun _ => .ordinary rfl
  | .nil, env, v, some (tag, payload) => Steady.fail fun _ => .ordinary rfl
  | .otherwise x b, env, v, variant => Code.eval_steady b ((x, v) :: env)
  | .cons t x b rest, env, v, none => Cases.eval_steady rest env v none
  | .cons t x b rest, env, v, some (tag, payload) => by
    simp only [Cases.eval]
    split
    · exact Code.eval_steady b ((x, payload) :: env)
    · exact Cases.eval_steady rest env v (some (tag, payload))

theorem Entries.eval_steady : ∀ (es : Entries) (env : Env),
    Steady (es.eval close apply env)
  | .nil, env => Steady.pure _
  | .cons x c rest, env => by
    simp only [Entries.eval]
    exact (Code.eval_steady c env).bind fun v => (Entries.eval_steady rest env).bind fun fields =>
      Steady.pure _

end

end Eval

theorem Code.apply_steady (budget : Nat) (f v : Value) : Steady (Code.apply budget f v) :=
  Steady.apply (fun _ happly env c => Code.eval_steady happly c env) budget f v

/-! ### Programs -/

theorem evalSteps_cons (calls : Nat) (s s' : Step) (steps : List Step) :
    evalSteps calls (s :: s' :: steps) = (do
      let _ ← s.eval calls
      evalSteps calls (s' :: steps)) :=
  rfl

/-- Steps are evaluated where the steps in front of them end. -/
theorem evalSteps_append {calls : Nat} {steps rest : List Step} {m m' : Machine Code} {v : Value}
    (h : evalSteps calls steps m = (.ok v, m')) (hrest : rest ≠ []) :
    evalSteps calls (steps ++ rest) m = evalSteps calls rest m' := by
  induction steps generalizing m with
  | nil =>
    cases h
    rfl
  | cons s steps ih =>
    cases steps with
    | nil =>
      obtain ⟨s', rest, rfl⟩ := List.exists_cons_of_ne_nil hrest
      exact Run.bind_ok h
    | cons s' steps =>
      rcases hs : s.eval calls m with ⟨e | w, m₁⟩
      · rw [evalSteps_cons, Run.bind_error hs] at h
        cases h
      · rw [evalSteps_cons, Run.bind_ok hs] at h
        exact (Run.bind_ok hs).trans (ih h)

/-- Steps fail where the steps in front of them fail. -/
theorem evalSteps_append_error {calls : Nat} {steps : List Step} {m m' : Machine Code} {e : Fault}
    (h : evalSteps calls steps m = (.error e, m')) (rest : List Step) :
    evalSteps calls (steps ++ rest) m = (.error e, m') := by
  induction steps generalizing m with
  | nil => cases h
  | cons s steps ih =>
    cases steps with
    | nil =>
      cases rest with
      | nil => exact h
      | cons s' rest => exact Run.bind_error h
    | cons s' steps =>
      rcases hs : s.eval calls m with ⟨e' | w, m₁⟩
      · rw [evalSteps_cons, Run.bind_error hs] at h
        cases h
        exact Run.bind_error hs
      · rw [evalSteps_cons, Run.bind_ok hs] at h
        exact (Run.bind_ok hs).trans (ih h)

/-- What steps that define `targets`, one after another, make of a machine: they set the first
of them, and all if they do not fail. -/
structure Run.Advances (targets : List Global) (m : Machine β)
    (r : Except Fault α × Machine β) : Prop where
  globals : ∃ news : List (Global × Value), r.2.globals = news.reverse ++ m.globals
    ∧ news.map Prod.fst <+: targets ∧ ∀ a, r.1 = .ok a → news.map Prod.fst = targets
  heap : m.heap.Keeps r.2.heap
  fault : ∀ e, r.1 = .error e → Fault.Of r.2 e

theorem Run.Steady.advances {x : Run β α} (hx : Steady x) (m : Machine β) :
    Advances [] m (x m) where
  globals := ⟨[], (hx m).globals, List.nil_prefix, fun _ _ => rfl⟩
  heap := (hx m).heap
  fault e he := ((hx m).fault e he).of_globals (hx m).globals.symm

theorem Run.Advances.bind {x : Run β α} {f : α → Run β α'} {S T : List Global}
    {m : Machine β} (hx : Advances S m (x m)) (hf : ∀ a m1, Advances T m1 (f a m1)) :
    Advances (S ++ T) m ((x >>= f) m) := by
  obtain ⟨news, hg, hpre, hall⟩ := hx.globals
  rcases hxm : x m with ⟨e | a, m1⟩
  · rw [hxm] at hg
    rw [Run.bind_error hxm]
    refine ⟨⟨news, hg, hpre.trans (List.prefix_append S T), fun _ h => by cases h⟩, ?_, ?_⟩
    · have := hx.heap
      rwa [hxm] at this
    · intro e' he'
      cases he'
      have := hx.fault e (by rw [hxm])
      rwa [hxm] at this
  · rw [hxm] at hg
    rw [Run.bind_ok hxm]
    obtain ⟨news', hg', hpre', hall'⟩ := (hf a m1).globals
    have hnews := hall a (by rw [hxm])
    refine ⟨⟨news ++ news', ?_, ?_, fun b hb => ?_⟩, ?_, (hf a m1).fault⟩
    · rw [hg', hg, List.reverse_append, List.append_assoc]
    · rw [List.map_append, hnews]
      exact (List.prefix_append_right_inj S).2 hpre'
    · rw [List.map_append, hnews, hall' b hb]
    · have := hx.heap
      rw [hxm] at this
      exact this.trans (hf a m1).heap

theorem Run.define_advances (g : Global) (v : Value) (m : Machine β) :
    Advances [g] m (Run.define g v m) where
  globals := ⟨[(g, v)], rfl, List.prefix_rfl, fun _ _ => rfl⟩
  heap := .refl m.heap
  fault _ h := by cases h

theorem Step.eval_advances (calls : Nat) (s : Step) (m : Machine Code) :
    Advances s.target?.toList m (s.eval calls m) := by
  cases s with
  | expr c => exact (Code.eval_steady (Code.apply_steady calls) c []).advances m
  | define g c =>
    refine ((Code.eval_steady (Code.apply_steady calls) c []).advances m).bind (T := [g])
      fun v m1 => ?_
    exact (Run.define_advances g v m1).bind (T := []) fun _ m2 => (Steady.pure v).advances m2

theorem evalSteps_advances (calls : Nat) : ∀ (steps : List Step) (m : Machine Code),
    Advances (steps.filterMap Step.target?) m (evalSteps calls steps m)
  | [], m => (Steady.pure _).advances m
  | [s], m => by
    have h := s.eval_advances calls m
    rcases hs : s.target? with _ | g <;> rw [hs] at h <;> simpa [hs, evalSteps] using h
  | s :: s' :: ss, m => by
    have h := (s.eval_advances calls m).bind (f := fun _ => evalSteps calls (s' :: ss))
      fun _ => evalSteps_advances calls (s' :: ss)
    rcases hs : s.target? with _ | g <;> rw [hs] at h
    · rwa [List.filterMap_cons_none hs]
    · rwa [List.filterMap_cons_some hs]

theorem Compiled.evaluate_advances (c : Compiled) (m : Machine Code) :
    Advances c.targets m (c.evaluate m) := by
  unfold Compiled.evaluate
  split
  · exact ⟨⟨[], rfl, List.nil_prefix, fun _ h => by cases h⟩, .refl m.heap,
      fun _ h => by cases h; exact .ordinary rfl⟩
  · exact evalSteps_advances maxCalls c.steps m

end Toplevel
