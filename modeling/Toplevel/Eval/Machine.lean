import Toplevel.Eval.Operation

/-!
# Runs

A run works on a machine: the heap, and the globals that definitions have set so far. What a run
has done to the machine before it fails stays done.
-/

namespace Toplevel

/-- What outlives the evaluation of a program. Functions keep their bodies in the form `β`. -/
structure Machine (β : Type) where
  heap : Heap β
  globals : List (Global × Value)

def Machine.empty {β : Type} : Machine β := ⟨Heap.empty, []⟩

def Machine.find? {β : Type} (m : Machine β) (g : Global) : Option Value := m.globals.lookup g

/-- A computation that changes the machine and gives a value or fails. -/
def Run (β α : Type) : Type := Machine β → Except Fault α × Machine β

namespace Run

variable {β α α' : Type}

@[inline] protected def pure (a : α) : Run β α := fun m => (.ok a, m)

@[inline] protected def bind (x : Run β α) (f : α → Run β α') : Run β α' := fun m =>
  match x m with
  | (.ok a, m) => f a m
  | (.error e, m) => (.error e, m)

instance : Monad (Run β) where
  pure := Run.pure
  bind := Run.bind

theorem pure_apply (a : α) (m : Machine β) : (pure a : Run β α) m = (.ok a, m) := rfl

theorem bind_ok {x : Run β α} {f : α → Run β α'} {m m' : Machine β} {a : α}
    (h : x m = (.ok a, m')) : (x >>= f) m = f a m' := by
  change Run.bind x f m = f a m'
  simp [Run.bind, h]

theorem bind_error {x : Run β α} {f : α → Run β α'} {m m' : Machine β} {e : Fault}
    (h : x m = (.error e, m')) : (x >>= f) m = (.error e, m') := by
  change Run.bind x f m = (.error e, m')
  simp [Run.bind, h]

@[inline] def fail (e : Fault) : Run β α := fun m => (.error e, m)

@[inline] def ask (f : Heap β → Except Fault α) : Run β α := fun m => (f m.heap, m)

@[inline] def alloc (o : Object β) : Run β Value := fun m =>
  let (a, heap) := m.heap.alloc o
  (.ok (.object a), { m with heap := heap })

@[inline] def object? (v : Value) : Run β (Option (Object β)) := fun m =>
  (.ok (m.heap.object? v), m)

@[inline] def setObject (a : Nat) (o : Object β) : Run β Unit := fun m =>
  (.ok (), { m with heap := m.heap.set a o })

@[inline] def global (g : Global) : Run β Value := fun m =>
  match m.find? g with
  | some v => (.ok v, m)
  | none => (.error (.undefined g.text), m)

@[inline] def define (g : Global) (v : Value) : Run β Unit := fun m =>
  (.ok (), { m with globals := (g, v) :: m.globals })

end Run

end Toplevel
