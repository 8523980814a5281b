import Toplevel.Eval.Operation

/-!
# What operators answer

An operator gives a value without an object, or fails with a fault of its own: it asks for no name
and reports nothing in the words of others. `Computed` says so of an answer.
-/

namespace Toplevel

/-- A fault that says something about values, and not about a name or in the words of others. -/
def Fault.isOrdinary : Fault → Bool
  | undefined _ | reported .. => false
  | _ => true

/-- A value that is no object. -/
def Value.isAtom : Value → Bool
  | object _ => false
  | _ => true

inductive Computed : Except Fault Value → Prop
  | value {v : Value} (h : v.isAtom) : Computed (.ok v)
  | fault {f : Fault} (h : f.isOrdinary) : Computed (.error f)

namespace Computed

theorem bind {α : Type} {x : Except Fault α} {f : α → Except Fault Value}
    (hx : ∀ e, x = .error e → e.isOrdinary) (hf : ∀ a, Computed (f a)) : Computed (x >>= f) := by
  rcases x with e | a
  · exact fault (hx e rfl)
  · exact hf a

end Computed

namespace Numeric

theorem isOrdinary_of_toFloat {a : Numeric} {e : Fault} (h : a.toFloat = .error e) :
    e.isOrdinary := by
  unfold toFloat at h
  split at h
  · cases h
  · split at h <;> cases h
    rfl

theorem combine_computed {onInts : Int → Int → Except Fault Value}
    {onFloats : Float → Float → Except Fault Value} (hi : ∀ i j, Computed (onInts i j))
    (hf : ∀ x y, Computed (onFloats x y)) (a b : Numeric) :
    Computed (combine onInts onFloats a b) := by
  unfold combine
  split
  · exact hi _ _
  · exact .bind (fun _ => isOrdinary_of_toFloat) fun x =>
      .bind (fun _ => isOrdinary_of_toFloat) fun y => hf x y

theorem divideInts_computed (i j : Int) : Computed (divideInts i j) := by
  unfold divideInts
  split
  · exact .fault rfl
  · split
    · exact .value rfl
    · exact .fault rfl

theorem add_computed (a b : Numeric) : Computed (add a b) :=
  combine_computed (fun _ _ => .value rfl) (fun _ _ => .value rfl) a b

theorem sub_computed (a b : Numeric) : Computed (sub a b) :=
  combine_computed (fun _ _ => .value rfl) (fun _ _ => .value rfl) a b

theorem mul_computed (a b : Numeric) : Computed (mul a b) :=
  combine_computed (fun _ _ => .value rfl) (fun _ _ => .value rfl) a b

theorem div_computed (a b : Numeric) : Computed (div a b) := by
  refine combine_computed divideInts_computed (fun x y => ?_) a b
  split
  · exact .fault rfl
  · exact .value rfl

end Numeric

namespace Heap

variable {β : Type} (h : Heap β)

theorem compared_computed (op : Operator) (v w : Value) : Computed (h.compared op v w) := by
  unfold compared
  split
  · exact .value rfl
  · split
    · exact .value rfl
    · exact .fault rfl

theorem isOrdinary_of_repeated {t : Text} {i : Int} {e : Fault} (he : t.repeated i = .error e) :
    e.isOrdinary := by
  unfold Text.repeated at he
  split at he
  · cases he
    rfl
  · simp only [] at he
    split at he
    · cases he
      rfl
    · split at he
      · cases he
        rfl
      · split at he <;> cases he

theorem repeatText_computed (t : Text) (v : Value) : Computed (h.repeatText t v) := by
  unfold repeatText
  split
  · exact .bind (fun _ => isOrdinary_of_repeated) fun _ => .value rfl
  · exact .fault rfl

theorem arithmetic_computed (op : Operator) (a b : Numeric) :
    Computed (operate.arithmetic op a b) := by
  unfold operate.arithmetic
  split
  · exact Numeric.add_computed a b
  · exact Numeric.sub_computed a b
  · exact Numeric.mul_computed a b
  · exact Numeric.div_computed a b

theorem operate_computed (op : Operator) (v w : Value) : Computed (h.operate op v w) := by
  unfold operate
  split
  · exact .value rfl
  · exact .value rfl
  iterate 4 exact h.compared_computed _ v w
  all_goals
    split
    · exact arithmetic_computed _ _ _
    · split
      · exact .value rfl
      · exact .fault rfl
      · exact h.repeatText_computed _ _
      · exact h.repeatText_computed _ _
      · exact .fault rfl

theorem isOrdinary_of_real {v : Value} {e : Fault} (he : h.real v = .error e) : e.isOrdinary := by
  unfold real at he
  split at he
  · exact Numeric.isOrdinary_of_toFloat he
  · cases he
    rfl

theorem remainder_computed (v w : Value) : Computed (h.remainder v w) := by
  unfold remainder
  refine .bind (fun _ => h.isOrdinary_of_real) fun x => .bind (fun _ => h.isOrdinary_of_real)
    fun y => ?_
  split
  · exact .value rfl
  · exact .fault rfl

theorem negate_computed (v : Value) : Computed (h.negate v) := by
  unfold negate
  split
  · exact .value rfl
  · exact .value rfl
  · exact .fault rfl

end Heap

end Toplevel
