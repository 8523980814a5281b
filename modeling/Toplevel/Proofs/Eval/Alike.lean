import Toplevel.Proofs.Code.Alike
import Toplevel.Proofs.Eval.Closed
import Toplevel.Proofs.Eval.Native
import Toplevel.Proofs.Eval.Simulation

/-!
# Code that is alike runs alike

The globals of the right machine may have other numbers (`Renumbering`). To compare it with the
left one they are given their former numbers (`Machine.formerly`), and then the machines are to
correspond by a link in which functions have code that is alike (`Link.alike`). What does not read
globals runs as on machines that correspond (`Link.AlikeRuns.of_sim`), and so code that is alike
runs alike (`Code.eval_alike`), in all of a program (`Compiled.evaluate_alike`).
-/

namespace Toplevel

/-! ### Renumbering -/

/-- New numbers for globals, from which the former ones can be told. -/
structure Renumbering where
  number : Global → Global
  former? : Global → Option Global
  former?_eq_some : ∀ g g', former? g' = some g ↔ g' = number g

namespace Renumbering

/-- The numbers as they are. -/
def same : Renumbering := ⟨id, some, fun _ _ => ⟨Option.some.inj, congrArg some⟩⟩

variable (r : Renumbering)

/-- Globals with their former numbers; one that had none is left out. -/
def formerly (gs : List (Global × Value)) : List (Global × Value) :=
  gs.filterMap fun e => (r.former? e.1).map fun g => (g, e.2)

theorem lookup_formerly (gs : List (Global × Value)) (g : Global) :
    (r.formerly gs).lookup g = gs.lookup (r.number g) := by
  induction gs with
  | nil => rfl
  | cons e gs ih =>
    obtain ⟨g', v⟩ := e
    rw [formerly] at ih ⊢
    cases hformer : r.former? g' with
    | none =>
      have hne : (r.number g == g') = false := by
        rw [beq_eq_false_iff_ne]
        rintro rfl
        rw [(r.former?_eq_some g _).2 rfl] at hformer
        cases hformer
      rw [List.filterMap_cons_none (by rw [hformer]; rfl), ih, List.lookup_cons, hne]
    | some k =>
      obtain rfl := (r.former?_eq_some k g').1 hformer
      have hbeq : (r.number g == r.number k) = (g == k) := by
        rw [Bool.eq_iff_iff, beq_iff_eq, beq_iff_eq]
        refine ⟨fun h => ?_, fun h => by rw [h]⟩
        have hk := (r.former?_eq_some g (r.number k)).2 h.symm
        rw [hformer] at hk
        exact (Option.some.inj hk).symm
      rw [List.filterMap_cons_some (by rw [hformer]; rfl), List.lookup_cons, List.lookup_cons, hbeq,
        ih]

theorem formerly_cons (gs : List (Global × Value)) (g : Global) (v : Value) :
    r.formerly ((r.number g, v) :: gs) = (g, v) :: r.formerly gs := by
  rw [formerly, List.filterMap_cons_some (by rw [(r.former?_eq_some g _).2 rfl]; rfl)]
  rfl

end Renumbering

/-- A machine as it would be with the former numbers. -/
def Machine.formerly (r : Renumbering) (m : Machine Code) : Machine Code :=
  ⟨m.heap, r.formerly m.globals⟩

/-! ### Runs that read no globals -/

/-- A run for which it does not matter what globals there are. -/
def Run.IgnoresGlobals {β α : Type} (x : Run β α) : Prop :=
  ∀ (h : Heap β) (gs gs' : List (Global × Value)),
    x ⟨h, gs'⟩ = ((x ⟨h, gs⟩).1, ⟨(x ⟨h, gs⟩).2.heap, gs'⟩)

namespace Run.IgnoresGlobals

variable {β α α' : Type}

theorem pure (a : α) : IgnoresGlobals (pure a : Run β α) := fun _ _ _ => rfl

theorem fail (e : Fault) : IgnoresGlobals (.fail e : Run β α) := fun _ _ _ => rfl

theorem ask (f : Heap β → Except Fault α) : IgnoresGlobals (.ask f : Run β α) := fun _ _ _ => rfl

theorem object? (v : Value) : IgnoresGlobals (.object? v : Run β _) := fun _ _ _ => rfl

theorem alloc (o : Object β) : IgnoresGlobals (.alloc o : Run β Value) := fun _ _ _ => rfl

theorem bind {x : Run β α} {f : α → Run β α'} (hx : IgnoresGlobals x)
    (hf : ∀ a, IgnoresGlobals (f a)) : IgnoresGlobals (x >>= f) := by
  intro h gs gs'
  have hxgs := hx h gs gs
  have hxgs' := hx h gs gs'
  rcases hrun : x ⟨h, gs⟩ with ⟨e | a, h1, gs1⟩
  · rw [hrun] at hxgs'
    rw [Run.bind_error hrun, Run.bind_error hxgs']
  · rw [hrun] at hxgs hxgs'
    obtain rfl : gs1 = gs := congrArg (fun r => r.2.globals) hxgs
    rw [Run.bind_ok hrun, Run.bind_ok hxgs']
    exact hf a h1 gs1 gs'

theorem field (v : Value) (x : Text) : IgnoresGlobals (.field v x : Run β Value) := by
  refine (object? v).bind fun o => ?_
  split
  · split
    · exact pure _
    · exact fail _
  · exact fail _

theorem extend (v : Value) (news : Members) : IgnoresGlobals (.extend v news : Run β Value) := by
  refine (object? v).bind fun o => ?_
  split
  · exact alloc _
  · exact fail _

theorem deref (v : Value) : IgnoresGlobals (.deref v : Run β Value) := by
  refine (object? v).bind fun o => ?_
  split
  · exact pure _
  · exact fail _

theorem assign (v w : Value) : IgnoresGlobals (.assign v w : Run β Value) := by
  refine (object? v).bind fun o => ?_
  split
  · exact fun _ _ _ => rfl
  · exact fail _

theorem variant? (v : Value) : IgnoresGlobals (.variant? v : Run β _) := by
  refine (object? v).bind fun o => ?_
  split <;> exact pure _

end Run.IgnoresGlobals

/-! ### Machines -/

/-- What functions remember under local names on both sides. -/
inductive Env.Alike (place : Nat → Nat) : LocalPairs → Env → Env → Prop
  | nil : Alike place [] [] []
  | cons {ns : LocalPairs} {env env' : Env} (x y : Text) (v : Value) (h : Alike place ns env env') :
    Alike place ((x, y) :: ns) ((x, v) :: env) ((y, v.rename place) :: env')

theorem Env.alike_rename (place : Nat → Nat) (env : Env) :
    Env.Alike place (.same (env.map Prod.fst)) env (env.rename place) := by
  induction env with
  | nil => exact .nil
  | cons e env ih => exact .cons e.1 e.1 e.2 ih

/-- Names that mean the same have corresponding values. -/
theorem Env.Alike.lookup {place : Nat → Nat} {ns : LocalPairs} {env env' : Env}
    (h : Env.Alike place ns env env') {x y : Text} (hxy : ns.Relate x y) :
    (env'.lookup y = (env.lookup x).map (Value.rename place)) ∧ (env.lookup x = none → x = y) := by
  induction hxy generalizing env env' with
  | free =>
    cases h
    exact ⟨rfl, fun _ => rfl⟩
  | here x y =>
    cases h
    rw [List.lookup_cons_self, List.lookup_cons_self]
    exact ⟨rfl, nofun⟩
  | there hx hy _ ih =>
    cases h with
    | cons _ _ v h =>
      rw [List.lookup_cons, List.lookup_cons, beq_eq_false_iff_ne.2 hx, beq_eq_false_iff_ne.2 hy]
      exact ih h

/-- Machines whose functions have code that is alike. -/
def Link.alike (r : Renumbering) (place : Nat → Nat) (hplace : Function.Injective place) :
    Link Code Code where
  place := place
  injective := hplace
  functions x b env y c env' :=
    ∃ ns, Env.Alike place ns env env' ∧ b.Alike r.number ((x, y) :: ns) c
  globals gs gs' := ∀ g, gs'.lookup g = (gs.lookup g).map (Value.rename place)
  excused _ := False
  lookup_globals h g := .inl (h g)
  cons_globals h g v g' := by
    rw [List.lookup_cons, List.lookup_cons]
    cases g' == g
    · exact h g'
    · rfl

/-- A fault on the left, and on the right: there is no difference but for the number of a global
that is missing. -/
inductive Fault.Alike (number : Global → Global) : Fault → Fault → Prop
  | same (e : Fault) : Alike number e e
  | undefined (g : Global) : Alike number (.undefined g.text) (.undefined (number g).text)

section

variable (r : Renumbering) (L : Link Code Code)

/-- Machines that correspond once the globals on the right have their former numbers. -/
def Link.AlikeMachines (m m' : Machine Code) : Prop := L.Machines m (m'.formerly r)

/-- Ends of runs on such machines, given how their values correspond. -/
inductive Link.AlikeResults {α α' : Type} (V : α → α' → Prop) :
    Except Fault α × Machine Code → Except Fault α' × Machine Code → Prop
  | done {a : α} {a' : α'} {m m' : Machine Code} (h : V a a') (hm : L.AlikeMachines r m m') :
    AlikeResults V (.ok a, m) (.ok a', m')
  | failed {e e' : Fault} {m m' : Machine Code} (he : Fault.Alike r.number e e')
    (hm : L.AlikeMachines r m m') : AlikeResults V (.error e, m) (.error e', m')

def Link.AlikeRuns {α α' : Type} (V : α → α' → Prop) (x : Run Code α) (y : Run Code α') : Prop :=
  ∀ m m', L.AlikeMachines r m m' → L.AlikeResults r V (x m) (y m')

end

namespace Link.AlikeRuns

variable {r : Renumbering} {L : Link Code Code} {α α' δ δ' : Type} {V : α → α' → Prop}
  {W : δ → δ' → Prop}

theorem of_sim (hexcused : ∀ e, ¬L.excused e) {x : Run Code α} {y : Run Code α'}
    (h : L.Sim V x y) (hy : y.IgnoresGlobals) : L.AlikeRuns r V x y := by
  intro m m' hm
  have hsim := h m _ hm
  have hrun := hy m'.heap m'.globals (r.formerly m'.globals)
  have hglobals : (y m').2.globals = m'.globals :=
    congrArg (fun r => r.2.globals) (hy m'.heap m'.globals m'.globals)
  change y (m'.formerly r) = ((y m').1, ⟨(y m').2.heap, _⟩) at hrun
  rw [hrun, ← hglobals] at hsim
  change L.Results V (x m) ((y m').1, (y m').2.formerly r) at hsim
  generalize x m = rx at hsim
  generalize y m' = ry at hsim
  obtain ⟨ry, m1'⟩ := ry
  cases hsim with
  | done h hm1 => exact .done h hm1
  | failed hm1 => exact .failed (.same _) hm1
  | excused he => exact absurd he (hexcused _)

theorem pure {a : α} {a' : α'} (h : V a a') : L.AlikeRuns r V (pure a) (pure a') :=
  fun _ _ hm => .done h hm

theorem bind {x : Run Code α} {y : Run Code α'} {f : α → Run Code δ} {g : α' → Run Code δ'}
    (hx : L.AlikeRuns r V x y) (hf : ∀ a a', V a a' → L.AlikeRuns r W (f a) (g a')) :
    L.AlikeRuns r W (x >>= f) (y >>= g) := by
  intro m m' hm
  have hr := hx m m' hm
  rcases hxm : x m with ⟨rx, m1⟩
  rcases hym : y m' with ⟨ry, m1'⟩
  rw [hxm, hym] at hr
  cases hr with
  | done h hm1 =>
    rw [Run.bind_ok hxm, Run.bind_ok hym]
    exact hf _ _ h _ _ hm1
  | failed he hm1 =>
    rw [Run.bind_error hxm, Run.bind_error hym]
    exact .failed he hm1

end Link.AlikeRuns

/-! ### Evaluation -/

section

variable {r : Renumbering} {place : Nat → Nat} {hplace : Function.Injective place}

namespace Link.AlikeRuns

theorem of_link {α α' : Type} {V : α → α' → Prop} {x : Run Code α} {y : Run Code α'}
    (h : (Link.alike r place hplace).Sim V x y) (hy : y.IgnoresGlobals) :
    (Link.alike r place hplace).AlikeRuns r V x y :=
  of_sim (fun _ he => he) h hy

/-- A run goes on with the value that corresponds. -/
theorem bind_values {δ δ' : Type} {W : δ → δ' → Prop} {x y : Run Code Value}
    {f : Value → Run Code δ} {g : Value → Run Code δ'}
    (hx : (Link.alike r place hplace).AlikeRuns r (Link.alike r place hplace).values x y)
    (hf : ∀ v, (Link.alike r place hplace).AlikeRuns r W (f v) (g (v.rename place))) :
    (Link.alike r place hplace).AlikeRuns r W (x >>= f) (y >>= g) := by
  refine hx.bind ?_
  rintro v _ rfl
  exact hf v

theorem lookup {ns : LocalPairs} {env env' : Env} (henv : Env.Alike place ns env env')
    {x y : Text} (hxy : ns.Relate x y) :
    (Link.alike r place hplace).AlikeRuns r (Link.alike r place hplace).values
      (.lookup env x) (.lookup env' y) := by
  obtain ⟨hlookup, hsame⟩ := henv.lookup hxy
  rw [Run.lookup, Run.lookup, hlookup]
  cases hx : env.lookup x with
  | none =>
    rw [hsame hx]
    exact fun _ _ hm => .failed (.same _) hm
  | some v => exact pure rfl

theorem global (g : Global) :
    (Link.alike r place hplace).AlikeRuns r (Link.alike r place hplace).values
      (.global g) (.global (r.number g)) := by
  intro m m' hm
  have hg : m'.find? (r.number g) = (m.find? g).map (Value.rename place) := by
    rw [Machine.find?, ← r.lookup_formerly]
    exact hm.globals g
  rw [Run.global, Run.global, hg]
  rcases m.find? g with _ | v
  · exact .failed (.undefined g) hm
  · exact .done rfl hm

theorem define (g : Global) (v : Value) :
    (Link.alike r place hplace).AlikeRuns r Eq (.define g v)
      (.define (r.number g) (v.rename place)) := by
  intro m m' hm
  refine .done rfl ⟨hm.heaps, ?_⟩
  change (Link.alike r place hplace).globals _ (r.formerly ((r.number g, _) :: m'.globals))
  rw [r.formerly_cons]
  exact (Link.alike r place hplace).cons_globals hm.globals g v

end Link.AlikeRuns

open Link

theorem Cases.Takes.eval {t y : Text} {c : Code} {cs ds : Cases} (h : cs.Takes t y c ds)
    (apply : Value → Value → Run Code Value) (env : Env) (v : Value)
    (variant : Option (Text × Value)) :
    cs.eval id apply env v variant = match variant with
      | some (tag, payload) =>
        if tag = t then c.eval id apply ((y, payload) :: env) else ds.eval id apply env v variant
      | none => ds.eval id apply env v variant := by
  induction h with
  | here rest => rcases variant with _ | ⟨tag, payload⟩ <;> simp only [Cases.eval]
  | there hs z b _ ih =>
    rcases variant with _ | ⟨tag, payload⟩
    · simp only [Cases.eval, ih]
    · simp only [Cases.eval, ih]
      by_cases htag : tag = t
      · subst htag
        rw [if_neg (Ne.symm hs), if_pos rfl, if_pos rfl]
      · rw [if_neg htag, if_neg htag]

variable {apply apply' : Value → Value → Run Code Value}
  (happly : ∀ f v, (Link.alike r place hplace).AlikeRuns r (Link.alike r place hplace).values
    (apply f v) (apply' (f.rename place) (v.rename place)))

include happly

set_option linter.unusedSectionVars false in
mutual

/-- Code that is alike runs alike. -/
theorem Code.eval_alike : ∀ {c c' : Code} {ns : LocalPairs} {env env' : Env},
    c.Alike r.number ns c' → Env.Alike place ns env env' →
      (Link.alike r place hplace).AlikeRuns r (Link.alike r place hplace).values
        (c.eval id apply env) (c'.eval id apply' env')
  | .number _, _, _, _, _, .number _, _ => AlikeRuns.pure rfl
  | .string _, _, _, _, _, .string _, _ => AlikeRuns.pure rfl
  | .bool _, _, _, _, _, .bool _, _ => AlikeRuns.pure rfl
  | .localVar _, _, _, _, _, .localVar h, henv => AlikeRuns.lookup henv h
  | .globalVar _, _, _, _, _, .globalVar g, _ => AlikeRuns.global g
  | .lambda _ _, _, _, _, _, .lambda hb, henv =>
    AlikeRuns.of_link (Sim.alloc (.closure ⟨_, henv, hb⟩)) (Run.IgnoresGlobals.alloc _)
  | .call f a, _, _, _, _, .call (g := g) hf ha, henv => by
    by_cases hlambda : ∃ x b, f = .lambda x b
    · obtain ⟨x, b, rfl⟩ := hlambda
      cases hf with
      | lambda hb =>
        simp only [Code.eval]
        refine (Code.eval_alike ha henv).bind_values fun v => ?_
        exact Code.eval_alike hb (.cons _ _ v henv)
    · have hne : ∀ x b, f ≠ .lambda x b := fun x b he => hlambda ⟨x, b, he⟩
      rw [Code.eval_call hne, Code.eval_call (hf.ne_lambda hne)]
      refine (Code.eval_alike hf henv).bind_values fun g => ?_
      refine (Code.eval_alike ha henv).bind_values fun v => ?_
      exact happly g v
  | .ifElse _ _ _, _, _, _, _, .ifElse hc hy hn, henv => by
    simp only [Code.eval]
    refine (Code.eval_alike hc henv).bind_values fun v => ?_
    refine (AlikeRuns.of_link (Sim.truth v) (Run.IgnoresGlobals.ask _)).bind ?_
    rintro b _ rfl
    cases b
    · exact Code.eval_alike hn henv
    · exact Code.eval_alike hy henv
  | .matchOn _ _, _, _, _, _, .matchOn hs hcs, henv => by
    simp only [Code.eval]
    refine (Code.eval_alike hs henv).bind_values fun v => ?_
    refine (AlikeRuns.of_link (Sim.variant? v) (Run.IgnoresGlobals.variant? _)).bind ?_
    rintro variant _ rfl
    exact Cases.eval_alike hcs henv v variant
  | .binary _ _ _, _, _, _, _, .binary op hl hr, henv => by
    simp only [Code.eval]
    refine (Code.eval_alike hl henv).bind_values fun v => ?_
    refine (Code.eval_alike hr henv).bind_values fun w => ?_
    exact AlikeRuns.of_link (Sim.ask (fun _ _ H => H.operate op v w)
      fun h => h.operate_computed op v w) (Run.IgnoresGlobals.ask _)
  | .remainder _ _, _, _, _, _, .remainder hl hr, henv => by
    simp only [Code.eval]
    refine (Code.eval_alike hl henv).bind_values fun v => ?_
    refine (Code.eval_alike hr henv).bind_values fun w => ?_
    exact AlikeRuns.of_link (Sim.ask (fun _ _ H => H.remainder v w)
      fun h => h.remainder_computed v w) (Run.IgnoresGlobals.ask _)
  | .neg _, _, _, _, _, .neg ha, henv => by
    simp only [Code.eval]
    refine (Code.eval_alike ha henv).bind_values fun v => ?_
    exact AlikeRuns.of_link (Sim.ask (fun _ _ H => H.negate v) fun h => h.negate_computed v)
      (Run.IgnoresGlobals.ask _)
  | .deref _, _, _, _, _, .deref ha, henv => by
    simp only [Code.eval]
    refine (Code.eval_alike ha henv).bind_values fun v => ?_
    exact AlikeRuns.of_link (Sim.deref v) (Run.IgnoresGlobals.deref _)
  | .assign _ _, _, _, _, _, .assign ht hv, henv => by
    simp only [Code.eval]
    refine (Code.eval_alike ht henv).bind_values fun target => ?_
    refine (Code.eval_alike hv henv).bind_values fun value => ?_
    exact AlikeRuns.of_link (Sim.assign target value) (Run.IgnoresGlobals.assign _ _)
  | .record _, _, _, _, _, .record hes, henv => by
    simp only [Code.eval]
    refine (Entries.eval_alike hes henv).bind ?_
    rintro fields _ rfl
    exact AlikeRuns.of_link (Sim.alloc (.record fields)) (Run.IgnoresGlobals.alloc _)
  | .extend _ _, _, _, _, _, .extend hb hes, henv => by
    simp only [Code.eval]
    refine (Code.eval_alike hb henv).bind_values fun v => ?_
    refine (Entries.eval_alike hes henv).bind ?_
    rintro fields _ rfl
    exact AlikeRuns.of_link (Sim.extend v fields) (Run.IgnoresGlobals.extend _ _)
  | .field _ _, _, _, _, _, .field hb x, henv => by
    simp only [Code.eval]
    refine (Code.eval_alike hb henv).bind_values fun v => ?_
    exact AlikeRuns.of_link (Sim.field v x) (Run.IgnoresGlobals.field _ x)
  | .tagged _ _, _, _, _, _, .tagged tag ha, henv => by
    simp only [Code.eval]
    refine (Code.eval_alike ha henv).bind_values fun v => ?_
    exact AlikeRuns.of_link (Sim.alloc (.tagged tag v)) (Run.IgnoresGlobals.alloc _)
  | .newRef _, _, _, _, _, .newRef ha, henv => by
    simp only [Code.eval]
    refine (Code.eval_alike ha henv).bind_values fun v => ?_
    exact AlikeRuns.of_link (Sim.alloc (.ref v)) (Run.IgnoresGlobals.alloc _)

theorem Cases.eval_alike : ∀ {cs ds : Cases} {ns : LocalPairs} {env env' : Env},
    cs.Alike r.number ns ds → Env.Alike place ns env env' →
      ∀ (v : Value) (variant : Option (Text × Value)),
        (Link.alike r place hplace).AlikeRuns r (Link.alike r place hplace).values
          (cs.eval id apply env v variant)
          (ds.eval id apply' env' (v.rename place)
            (variant.map (Prod.map id (Value.rename place))))
  | .nil, _, _, _, _, .nil, _, _, none => fun _ _ hm => .failed (.same _) hm
  | .nil, _, _, _, _, .nil, _, _, some _ => fun _ _ hm => .failed (.same _) hm
  | .otherwise _ _, _, _, _, _, .otherwise hb, henv, v, _ => Code.eval_alike hb (.cons _ _ v henv)
  | .cons _ _ _ _, _, _, _, _, .cons ht hb hcs, henv, v, none => by
    rw [ht.eval]
    exact Cases.eval_alike hcs henv v none
  | .cons t _ _ _, _, _, _, _, .cons ht hb hcs, henv, v, some (tag, payload) => by
    rw [ht.eval]
    simp only [Cases.eval, Option.map_some, Prod.map, id]
    split
    · exact Code.eval_alike hb (.cons _ _ payload henv)
    · exact Cases.eval_alike hcs henv v (some (tag, payload))

theorem Entries.eval_alike : ∀ {es fs : Entries} {ns : LocalPairs} {env env' : Env},
    es.Alike r.number ns fs → Env.Alike place ns env env' →
      (Link.alike r place hplace).AlikeRuns r (Link.alike r place hplace).members
        (es.eval id apply env) (fs.eval id apply' env')
  | .nil, _, _, _, _, .nil, _ => AlikeRuns.pure rfl
  | .cons _ _ _, _, _, _, _, .cons x hv hes, henv => by
    simp only [Entries.eval]
    refine (Code.eval_alike hv henv).bind_values fun v => ?_
    refine (Entries.eval_alike hes henv).bind ?_
    rintro fields _ rfl
    exact AlikeRuns.pure rfl

end

end

/-! ### Programs -/

section

variable {r : Renumbering} {place : Nat → Nat} {hplace : Function.Injective place}

open Link

theorem Code.apply_alike : ∀ (budget : Nat) (f v : Value),
    (Link.alike r place hplace).AlikeRuns r (Link.alike r place hplace).values
      (Code.apply budget f v) (Code.apply budget (f.rename place) (v.rename place))
  | budget, f, v => by
    unfold Code.apply Run.apply
    refine (AlikeRuns.of_link (Sim.object? f) (Run.IgnoresGlobals.object? _)).bind fun o o' ho => ?_
    have hother : (Link.alike r place hplace).AlikeRuns r (Link.alike r place hplace).values
        (fun m => (.error (.notCallable (m.heap.typeName f)), m) : Run Code Value)
        (fun m => (.error (.notCallable (m.heap.typeName (f.rename place))), m)) := by
      intro m m' hm
      have htype : m'.heap.typeName (f.rename place) = m.heap.typeName f := hm.heaps.typeName f
      dsimp only
      rw [htype]
      exact .failed (.same _) hm
    cases ho with
    | none => exact hother
    | some ho =>
      cases ho with
      | closure h =>
        obtain ⟨ns, henv, hb⟩ := h
        cases budget with
        | zero => exact fun _ _ hm => .failed (.same _) hm
        | succ budget =>
          exact Code.eval_alike (Code.apply_alike budget) hb (.cons _ _ v henv)
      | _ => exact hother

theorem Step.eval_alike (calls : Nat) {s s' : Step} (h : s.Alike r.number s') :
    (Link.alike r place hplace).AlikeRuns r (Link.alike r place hplace).values
      (s.eval calls) (s'.eval calls) := by
  cases h with
  | expr h => exact Code.eval_alike (Code.apply_alike calls) h .nil
  | define g h =>
    refine (Code.eval_alike (Code.apply_alike calls) h .nil).bind_values fun v => ?_
    refine (AlikeRuns.define g v).bind ?_
    rintro _ _ rfl
    exact AlikeRuns.pure rfl

theorem evalSteps_alike (calls : Nat) : ∀ {steps steps' : List Step},
    List.Forall₂ (Step.Alike r.number) steps steps' →
      (Link.alike r place hplace).AlikeRuns r (Link.alike r place hplace).values
        (evalSteps calls steps) (evalSteps calls steps')
  | [], [], _ => AlikeRuns.pure rfl
  | [_], [_], .cons hs _ => Step.eval_alike calls hs
  | _ :: _ :: _, _ :: _ :: _, .cons hs hss =>
    (Step.eval_alike calls hs).bind fun _ _ _ => evalSteps_alike calls hss

/-- Programs that are alike run alike. -/
theorem Compiled.evaluate_alike {c c' : Compiled} (h : c.Alike r.number c') :
    (Link.alike r place hplace).AlikeRuns r (Link.alike r place hplace).values
      c.evaluate c'.evaluate := by
  unfold Compiled.evaluate
  rw [h.nesting]
  split
  · exact fun _ _ hm => .failed (.same _) hm
  · exact evalSteps_alike maxCalls h

end

/-! ### Each machine is like itself -/

theorem Value.Native.rename {deeds : List Deed} {n : Nat} {v : Value} (h : v.Native deeds n)
    {place : Nat → Nat} (hplace : ∀ a < n, place a = a) : v.rename place = v := by
  cases v <;> first | rfl | exact congrArg Value.object (hplace _ h)

theorem Members.Native.rename {deeds : List Deed} {n : Nat} {ms : Members}
    (h : ms.Native deeds n) {place : Nat → Nat} (hplace : ∀ a < n, place a = a) :
    ms.rename place = ms := by
  refine (List.map_congr_left fun e he => ?_).trans ms.map_id
  rw [(h e he).rename hplace]
  rfl

section

variable {r : Renumbering} {place : Nat → Nat} {hplace : Function.Injective place}
  {deeds : List Deed} {P : Global → Prop}

/-- An object of the language is like itself where older objects stay where they are. -/
theorem Link.alike_objects {n a : Nat} {o : Object Code} (ho : o.Native deeds n a) (ha : a < n)
    (hclosed : ∀ x b env, o = .closure x b env → b.Closed P (x :: env.map Prod.fst))
    (hnumber : ∀ g, P g → r.number g = g) (hold : ∀ b < n, place b = b) :
    (Link.alike r place hplace).Objects o o := by
  have holder : ∀ b < a, place b = b := fun b hb => hold b (Nat.lt_trans hb ha)
  cases o with
  | tagged tag payload =>
    have hobjects := Objects.tagged (L := Link.alike r place hplace) tag payload
    rwa [Link.alike, ho.2.rename holder] at hobjects
  | ref target =>
    have hobjects := Objects.ref (L := Link.alike r place hplace) target
    rwa [Link.alike, Value.Native.rename ho hold] at hobjects
  | record fields =>
    have hobjects := Objects.record (L := Link.alike r place hplace) fields
    rwa [Link.alike, ho.2.2.rename holder] at hobjects
  | closure x b env =>
    have henv := Env.alike_rename place env
    rw [ho.2.rename holder] at henv
    exact .closure ⟨_, henv, (hclosed x b env rfl).alike hnumber⟩
  | list | tuple | mapping | attributes => exact ho.elim

/-- A machine of the language is like one that has the same objects and more behind them, and the
same globals under their new numbers. -/
theorem Link.alike_machines {m m' : Machine Code} (hm : m.Native deeds) (hclosed : m.heap.Closed P)
    (hnumber : ∀ g, P g → r.number g = g) (hold : ∀ a < m.heap.size, place a = a)
    (hnew : ∀ k, place (m.heap.size + k) = m'.heap.size + k)
    (hheap : m.heap.Extends m'.heap)
    (hglobals : ∀ g, m'.find? (r.number g) = m.find? g) :
    (Link.alike r place hplace).AlikeMachines r m m' where
  heaps :=
    { place_size := hnew
      objects := fun a o ho => by
        have hlt := Heap.lt_of_get? ho
        refine ⟨o, ?_, Link.alike_objects (hm.heap a o ho) hlt
          (fun x b env he => hclosed a x b env (he ▸ ho)) hnumber hold⟩
        change m'.heap.get? (place a) = some o
        rw [hold a hlt]
        exact hheap.get?_eq ho }
  globals g := by
    change (r.formerly m'.globals).lookup g = (m.globals.lookup g).map (Value.rename place)
    rw [r.lookup_formerly]
    have hg : m'.globals.lookup (r.number g) = m.globals.lookup g := hglobals g
    rw [hg]
    cases hv : m.globals.lookup g with
    | none => rfl
    | some v =>
      have hnative := hm.globals _ (mem_of_lookup hv)
      rw [Option.map_some, Value.Native.rename hnative hold]

end

theorem Link.alike_refl {deeds : List Deed} {m : Machine Code} (hm : m.Native deeds)
    {P : Global → Prop} (hclosed : m.heap.Closed P) :
    (Link.alike .same id Function.injective_id).AlikeMachines .same m m :=
  Link.alike_machines hm hclosed (fun _ _ => rfl) (fun _ _ => rfl) (fun _ => rfl) (.refl _)
    fun _ => rfl

end Toplevel
