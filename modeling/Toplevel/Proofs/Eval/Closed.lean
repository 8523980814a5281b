import Toplevel.Proofs.Code.Closed
import Toplevel.Proofs.Eval.Frame

/-!
# Closed code asks for no other name

Where the functions of a heap are closed, closed code makes closed functions only, and the names
that it can find undefined are those of the globals that it may refer to (`Code.eval_closed`): a
local name always has a value.
-/

namespace Toplevel

/-- The bodies of functions refer to their parameters, to what they have taken with them and to the
globals among `P`. -/
def Heap.Closed (P : Global → Prop) (h : Heap Code) : Prop :=
  ∀ a x b env, h.get? a = some (.closure x b env) → b.Closed P (x :: env.map Prod.fst)

namespace Heap.Closed

variable {P Q : Global → Prop} {h : Heap Code}

theorem empty : Heap.Closed P .empty := by
  intro a x b env ha
  cases ha

theorem mono (hPQ : ∀ g, P g → Q g) (hh : h.Closed P) : h.Closed Q :=
  fun a x b env ha => (hh a x b env ha).mono hPQ

theorem alloc (hh : h.Closed P) {o : Object Code}
    (ho : ∀ x b env, o = .closure x b env → b.Closed P (x :: env.map Prod.fst)) :
    (h.alloc o).2.Closed P := by
  intro a x b env ha
  have hle : a ≤ h.size := by
    have hlt := Heap.lt_of_get? ha
    rw [Heap.size_alloc] at hlt
    exact Nat.le_of_lt_succ hlt
  rcases Nat.eq_or_lt_of_le hle with rfl | hlt
  · have hself : some o = some (.closure x b env) := (h.get?_alloc o).symm.trans ha
    exact ho x b env (Option.some.inj hself)
  · rw [Heap.get?_alloc_of_lt hlt] at ha
    exact hh a x b env ha

theorem set (hh : h.Closed P) (a : Nat) (t : Value) : (h.set a (.ref t)).Closed P := by
  intro b x body env hb
  by_cases hab : a = b
  · subst hab
    by_cases hlt : a < h.size
    · rw [Heap.get?_set_self hlt] at hb
      cases hb
    · have hlt' := Heap.lt_of_get? hb
      rw [Heap.size_set] at hlt'
      exact absurd hlt' hlt
  · rw [Heap.get?_set_of_ne hab] at hb
    exact hh b x body env hb

end Heap.Closed

namespace Run

variable {α α' : Type}

/-- What comes of a run that makes closed functions only and asks for globals among `P`. -/
structure Confined (P : Global → Prop) (r : Except Fault α × Machine Code) : Prop where
  heap : r.2.heap.Closed P
  undefined : ∀ x, r.1 = .error (.undefined x) → ∃ g, P g ∧ x = g.text

/-- A run that is confined where the functions of the heap are closed. -/
def Confines (P : Global → Prop) (x : Run Code α) : Prop :=
  ∀ m, m.heap.Closed P → Confined P (x m)

namespace Confines

variable {P : Global → Prop}

theorem pure (a : α) : Confines P (pure a : Run Code α) := fun _ hm => ⟨hm, nofun⟩

theorem fail {e : Fault} (he : e.isOrdinary = true) : Confines P (.fail e : Run Code α) := by
  refine fun _ hm => ⟨hm, fun x hx => ?_⟩
  cases hx
  cases he

theorem bind {x : Run Code α} {f : α → Run Code α'} (hx : Confines P x)
    (hf : ∀ a, Confines P (f a)) : Confines P (x >>= f) := by
  intro m hm
  have h := hx m hm
  rcases hxm : x m with ⟨e | a, m1⟩
  · rw [hxm] at h
    rw [Run.bind_error hxm]
    exact ⟨h.heap, fun y hy => h.undefined y (by cases hy; rfl)⟩
  · rw [hxm] at h
    rw [Run.bind_ok hxm]
    exact hf a m1 h.heap

theorem ask {f : Heap Code → Except Fault α} (hf : ∀ h e, f h = .error e → e.isOrdinary = true) :
    Confines P (.ask f : Run Code α) := by
  refine fun m hm => ⟨hm, fun x hx => ?_⟩
  cases hf m.heap _ hx

theorem ask_computed {f : Heap Code → Except Fault Value} (hf : ∀ h, Computed (f h)) :
    Confines P (.ask f : Run Code Value) := by
  refine ask fun h e he => ?_
  have hc := hf h
  rw [he] at hc
  cases hc with
  | fault h => exact h

theorem object? (v : Value) : Confines P (.object? v : Run Code _) := fun _ hm => ⟨hm, nofun⟩

theorem alloc {o : Object Code} (ho : ∀ x b env, o ≠ .closure x b env) :
    Confines P (.alloc o : Run Code Value) :=
  fun _ hm => ⟨hm.alloc fun x b env h => absurd h (ho x b env), nofun⟩

theorem closure {x : Text} {b : Code} {env : Env} (hb : b.Closed P (x :: env.map Prod.fst)) :
    Confines P (.alloc (.closure x b env) : Run Code Value) := by
  refine fun _ hm => ⟨hm.alloc fun y c env' h => ?_, nofun⟩
  cases h
  exact hb

theorem global {g : Global} (hg : P g) : Confines P (.global g : Run Code Value) := by
  intro m hm
  unfold Run.global
  split
  · exact ⟨hm, nofun⟩
  · refine ⟨hm, fun x hx => ⟨g, hg, ?_⟩⟩
    cases hx
    rfl

theorem lookup {env : Env} {x : Text} (hx : x ∈ env.map Prod.fst) :
    Confines P (.lookup env x : Run Code Value) := by
  obtain ⟨e, he, rfl⟩ := List.mem_map.1 hx
  unfold Run.lookup
  split
  · exact pure _
  · rename_i hnone
    exact absurd rfl (bne_iff_ne.1 (List.lookup_eq_none_iff.1 hnone e he))

theorem field (v : Value) (x : Text) : Confines P (.field v x : Run Code Value) := by
  refine (object? v).bind fun o => ?_
  split
  · split
    · exact pure _
    · exact fail rfl
  · exact fail rfl

theorem extend (v : Value) (news : Members) : Confines P (.extend v news : Run Code Value) := by
  refine (object? v).bind fun o => ?_
  split
  · exact alloc nofun
  · exact fail rfl

theorem deref (v : Value) : Confines P (.deref v : Run Code Value) := by
  refine (object? v).bind fun o => ?_
  split
  · exact pure _
  · exact fail rfl

theorem variant? (v : Value) : Confines P (.variant? v : Run Code _) := by
  refine (object? v).bind fun o => ?_
  split <;> exact pure _

theorem assign (v w : Value) : Confines P (.assign v w : Run Code Value) := by
  intro m hm
  rcases Run.assign_cases v w m with h | ⟨a, t, -, -, h⟩ <;> rw [h]
  · exact ⟨hm, nofun⟩
  · exact ⟨hm.set a w, nofun⟩

theorem apply {enter : (Value → Value → Run Code Value) → Env → Code → Run Code Value}
    (henter : ∀ apply, (∀ f v, Confines P (apply f v)) → ∀ env b, b.Closed P (env.map Prod.fst) →
      Confines P (enter apply env b)) :
    ∀ (budget : Nat) (f v : Value), Confines P (Run.apply enter budget f v)
  | budget, f, v => by
    intro m hm
    have hother : @Confined Value P (.error (.notCallable (m.heap.typeName f)), m) :=
      fail rfl m hm
    unfold Run.apply
    rw [Run.object?_bind]
    rcases ho : m.heap.object? f with _ | o
    · exact hother
    · cases o with
      | closure x b env =>
        have hb : b.Closed P (x :: env.map Prod.fst) := by
          cases f with
          | object a => exact hm a x b env ho
          | _ => cases ho
        cases budget with
        | zero => exact fail rfl m hm
        | succ budget => exact henter _ (apply henter budget) ((x, v) :: env) b hb m hm
      | _ => exact hother

end Confines

end Run

open Run

section Eval

variable {P : Global → Prop} {apply : Value → Value → Run Code Value}
  (happly : ∀ f v, Confines P (apply f v))

include happly

set_option linter.unusedSectionVars false in
mutual

theorem Code.eval_closed : ∀ (c : Code) (env : Env), c.Closed P (env.map Prod.fst) →
    Confines P (c.eval id apply env)
  | .number _, _, _ | .string _, _, _ | .bool _, _, _ => Confines.pure _
  | .localVar _, _, h => Confines.lookup h
  | .globalVar _, _, h => Confines.global h
  | .lambda _ _, _, h => Confines.closure h
  | .call f a, env, h => by
    by_cases hf : ∃ x b, f = .lambda x b
    · obtain ⟨x, b, rfl⟩ := hf
      have hb : b.Closed P (x :: env.map Prod.fst) := h.1
      simp only [Code.eval]
      exact (Code.eval_closed a env h.2).bind fun v => Code.eval_closed b ((x, v) :: env) hb
    · rw [Code.eval_call fun x b he => hf ⟨x, b, he⟩]
      exact (Code.eval_closed f env h.1).bind fun g => (Code.eval_closed a env h.2).bind fun v =>
        happly g v
  | .ifElse c y n, env, h => by
    simp only [Code.eval]
    refine (Code.eval_closed c env h.1).bind fun v => (Confines.ask fun h e he =>
      by cases he).bind ?_
    intro b
    cases b
    · exact Code.eval_closed n env h.2.2
    · exact Code.eval_closed y env h.2.1
  | .matchOn s cs, env, h => by
    simp only [Code.eval]
    exact (Code.eval_closed s env h.1).bind fun v =>
      (Confines.variant? v).bind fun r => Cases.eval_closed cs env v r h.2
  | .binary op l r, env, h => by
    simp only [Code.eval]
    exact (Code.eval_closed l env h.1).bind fun v => (Code.eval_closed r env h.2).bind fun w =>
      Confines.ask_computed fun h => h.operate_computed op v w
  | .remainder l r, env, h => by
    simp only [Code.eval]
    exact (Code.eval_closed l env h.1).bind fun v => (Code.eval_closed r env h.2).bind fun w =>
      Confines.ask_computed fun h => h.remainder_computed v w
  | .neg a, env, h => by
    simp only [Code.eval]
    exact (Code.eval_closed a env h).bind fun v => Confines.ask_computed fun h =>
      h.negate_computed v
  | .deref a, env, h => by
    simp only [Code.eval]
    exact (Code.eval_closed a env h).bind fun v => Confines.deref v
  | .assign t v, env, h => by
    simp only [Code.eval]
    exact (Code.eval_closed t env h.1).bind fun target =>
      (Code.eval_closed v env h.2).bind fun value =>
      Confines.assign target value
  | .record es, env, h => by
    simp only [Code.eval]
    exact (Entries.eval_closed es env h).bind fun fields => Confines.alloc nofun
  | .extend b es, env, h => by
    simp only [Code.eval]
    exact (Code.eval_closed b env h.1).bind fun v =>
      (Entries.eval_closed es env h.2).bind fun fields =>
      Confines.extend v fields
  | .field b x, env, h => by
    simp only [Code.eval]
    exact (Code.eval_closed b env h).bind fun v => Confines.field v x
  | .tagged tag p, env, h => by
    simp only [Code.eval]
    exact (Code.eval_closed p env h).bind fun v => Confines.alloc nofun
  | .newRef a, env, h => by
    simp only [Code.eval]
    exact (Code.eval_closed a env h).bind fun v => Confines.alloc nofun

theorem Cases.eval_closed : ∀ (cs : Cases) (env : Env) (v : Value)
    (variant : Option (Text × Value)), cs.Closed P (env.map Prod.fst) →
      Confines P (cs.eval id apply env v variant)
  | .nil, env, v, none, _ => Confines.fail rfl
  | .nil, env, v, some (tag, payload), _ => Confines.fail rfl
  | .otherwise x b, env, v, variant, h => Code.eval_closed b ((x, v) :: env) h
  | .cons t x b rest, env, v, none, h => Cases.eval_closed rest env v none h.2
  | .cons t x b rest, env, v, some (tag, payload), h => by
    simp only [Cases.eval]
    split
    · exact Code.eval_closed b ((x, payload) :: env) h.1
    · exact Cases.eval_closed rest env v (some (tag, payload)) h.2

theorem Entries.eval_closed : ∀ (es : Entries) (env : Env), es.Closed P (env.map Prod.fst) →
    Confines P (es.eval id apply env)
  | .nil, _, _ => Confines.pure _
  | .cons x c rest, env, h => by
    simp only [Entries.eval]
    exact (Code.eval_closed c env h.1).bind fun v =>
      (Entries.eval_closed rest env h.2).bind fun fields =>
      Confines.pure _

end

end Eval

theorem Code.apply_closed {P : Global → Prop} (budget : Nat) (f v : Value) :
    Confines P (Code.apply budget f v) :=
  Confines.apply (fun _ happly env b hb => Code.eval_closed happly b env hb) budget f v

end Toplevel
