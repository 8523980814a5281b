import Toplevel.Proofs.Eval.Changes

/-!
# The values of the language

Evaluation meets no other values than truth values, numbers, texts, functions, records, tagged
values and references (`Machine.Native`), and whole numbers among them only if they have been
counted up from truth values (`Counted`). Objects lead to older ones; only references may lead
anywhere. All of this is kept by every run of code, whether it fails or not, and every run changes
the heap just as its deeds say (`Code.trace_sound`, `Compiled.trace_sound`).
-/

namespace Toplevel

/-! ### Whole numbers -/

/-- A truth value or a whole number. -/
def Value.isWhole : Value → Bool
  | .bool _ | .int _ => true
  | _ => false

/-- Whole numbers that deeds have computed of truth values, of each other, and of nothing else. -/
inductive Counted (deeds : List Deed) : Int → Prop
  | operated {op : Operator} {v w : Value} {i : Int} (h : .operated op v w (.int i) ∈ deeds)
    (hv : v.isWhole) (hw : w.isWhole) (hvi : ∀ j, v = .int j → Counted deeds j)
    (hwi : ∀ j, w = .int j → Counted deeds j) : Counted deeds i
  | negated {v : Value} {i : Int} (h : .negated v (.int i) ∈ deeds) (hv : v.isWhole)
    (hvi : ∀ j, v = .int j → Counted deeds j) : Counted deeds i

/-- A value that operators may give whatever their operands are. -/
def Value.isPlain : Value → Bool
  | .bool _ | .float _ | .string _ => true
  | _ => false

/-- What an operator gives for some operands: whole numbers only if all of them are whole. -/
def Gives (operands : List Value) (r : Except Fault Value) : Prop :=
  ∀ x, r = .ok x → x.isPlain ∨ (∃ i, x = .int i) ∧ ∀ v ∈ operands, v.isWhole

namespace Gives

variable {operands : List Value}

theorem plain {x : Value} (h : x.isPlain) : Gives operands (.ok x) := by
  rintro _ ⟨⟩
  exact .inl h

theorem whole (h : ∀ v ∈ operands, v.isWhole) (i : Int) : Gives operands (.ok (.int i)) := by
  rintro _ ⟨⟩
  exact .inr ⟨⟨i, rfl⟩, h⟩

theorem error (e : Fault) : Gives operands (.error e) := nofun

theorem bind {α : Type} {x : Except Fault α} {f : α → Except Fault Value}
    (hf : ∀ a, Gives operands (f a)) : Gives operands (x >>= f) := by
  rcases x with e | a
  · exact error e
  · exact hf a

end Gives

theorem Numeric.isWhole_of_ofValue? {v : Value} {i : Int} (h : ofValue? v = some (.int i)) :
    v.isWhole := by
  cases v <;> first | rfl | cases h

/-- Whole numbers are combined to whole numbers only by what does so. -/
theorem Numeric.combine_gives {v w : Value} {a b : Numeric} (hv : ofValue? v = some a)
    (hw : ofValue? w = some b) {onInts : Int → Int → Except Fault Value}
    {onFloats : Float → Float → Except Fault Value}
    (hi : ∀ i j, v.isWhole → w.isWhole → Gives [v, w] (onInts i j))
    (hf : ∀ x y, Gives [v, w] (onFloats x y)) : Gives [v, w] (combine onInts onFloats a b) := by
  unfold combine
  split
  · exact hi _ _ (isWhole_of_ofValue? hv) (isWhole_of_ofValue? hw)
  · exact .bind fun x => .bind fun y => hf x y

namespace Heap

variable (h : Heap Code)

theorem arithmetic_gives {v w : Value} {a b : Numeric} (hv : Numeric.ofValue? v = some a)
    (hw : Numeric.ofValue? w = some b) (op : Operator) :
    Gives [v, w] (operate.arithmetic op a b) := by
  have hwhole : v.isWhole → w.isWhole → ∀ x ∈ [v, w], x.isWhole := by
    intro hv hw x hx
    simp only [List.mem_cons, List.not_mem_nil, or_false] at hx
    rcases hx with rfl | rfl <;> assumption
  unfold operate.arithmetic
  split
  iterate 3
    exact Numeric.combine_gives hv hw (fun i j hv hw => .whole (hwhole hv hw) _)
      fun x y => .plain rfl
  refine Numeric.combine_gives hv hw (fun i j _ _ => ?_) fun x y => ?_
  · unfold Numeric.divideInts
    split
    · exact .error _
    · split
      · exact .plain rfl
      · exact .error _
  · split
    · exact .error _
    · exact .plain rfl

theorem compared_gives (op : Operator) (v w : Value) : Gives [v, w] (h.compared op v w) := by
  unfold compared
  split
  · exact .plain rfl
  · split
    · exact .plain rfl
    · exact .error _

theorem repeatText_gives {operands : List Value} (t : Text) (v : Value) :
    Gives operands (h.repeatText t v) := by
  unfold repeatText
  split
  · exact .bind fun _ => .plain rfl
  · exact .error _

theorem operate_gives (op : Operator) (v w : Value) : Gives [v, w] (h.operate op v w) := by
  unfold operate
  split
  · exact .plain rfl
  · exact .plain rfl
  iterate 4 exact h.compared_gives _ v w
  all_goals
    split
    · rename_i hv hw
      exact arithmetic_gives hv hw _
    · split
      · exact .plain rfl
      · exact .error _
      · exact h.repeatText_gives _ _
      · exact h.repeatText_gives _ _
      · exact .error _

theorem remainder_isPlain {v w x : Value} (hx : h.remainder v w = .ok x) : x.isPlain := by
  obtain ⟨a, -, hx⟩ := exists_of_bind_eq_ok hx
  obtain ⟨b, -, hx⟩ := exists_of_bind_eq_ok hx
  split at hx
  · cases hx
    rfl
  · cases hx

theorem negate_gives (v : Value) : Gives [v] (h.negate v) := by
  unfold negate
  split
  · rename_i hv
    exact .whole (List.forall_mem_singleton.2 (Numeric.isWhole_of_ofValue? hv)) _
  · exact .plain rfl
  · exact .error _

end Heap

/-! ### Machines of the language -/

section
variable (deeds : List Deed)

/-- A value of the language among the first `n` objects. -/
def Value.Native (n : Nat) : Value → Prop
  | .bool _ | .float _ | .string _ => True
  | .int i => Counted deeds i
  | .object a => a < n
  | _ => False

def Members.Native (n : Nat) (ms : Members) : Prop := ∀ e ∈ ms, e.2.Native deeds n

/-- An object of the language at the address `a`, where there are `n` objects. -/
def Object.Native (n a : Nat) : Object Code → Prop
  | .tagged tag payload => tag.IsTag ∧ payload.Native deeds a
  | .ref target => target.Native deeds n
  | .record fields =>
    (∀ e ∈ fields, e.1.IsName) ∧ (fields.map Prod.fst).Nodup ∧ fields.Native deeds a
  | .closure _ body env => body.Named ∧ env.Native deeds a
  | .list _ | .tuple _ | .mapping _ | .attributes _ => False

/-- All objects and all globals are of the language. -/
structure Machine.Native (m : Machine Code) : Prop where
  heap : ∀ a o, m.heap.get? a = some o → o.Native deeds m.heap.size a
  globals : ∀ e ∈ m.globals, e.2.Native deeds m.heap.size

end

variable {deeds : List Deed}

theorem Value.Native.mono {v : Value} {n n' : Nat} (h : v.Native deeds n) (hn : n ≤ n') :
    v.Native deeds n' := by
  cases v <;> first | exact h | exact Nat.lt_of_lt_of_le h hn

theorem Members.Native.mono {ms : Members} {n n' : Nat} (h : ms.Native deeds n) (hn : n ≤ n') :
    ms.Native deeds n' :=
  fun e he => (h e he).mono hn

theorem Members.Native.cons {ms : Members} {n : Nat} {x : Text} {v : Value}
    (hv : v.Native deeds n) (h : ms.Native deeds n) : Members.Native deeds n ((x, v) :: ms) :=
  List.forall_mem_cons.2 ⟨hv, h⟩

theorem Object.Native.mono {o : Object Code} {n n' a : Nat} (h : o.Native deeds n a)
    (hn : n ≤ n') : o.Native deeds n' a := by
  cases o with
  | ref target => exact Value.Native.mono h hn
  | _ => exact h

theorem Value.native_of_isPlain {x : Value} (h : x.isPlain) (n : Nat) : x.Native deeds n := by
  cases x <;> first | exact trivial | cases h

theorem Value.native_alloc (h : Heap Code) (o : Object Code) :
    Value.Native deeds (h.alloc o).2.size (.object (h.alloc o).1) := by
  rw [Heap.size_alloc]
  exact Nat.lt_succ_self h.size

/-- What operators give is of the language, if it counts. -/
theorem Gives.native {operands : List Value} {r : Except Fault Value} (h : Gives operands r)
    {n : Nat} (hcounts : ∀ i, r = .ok (.int i) → (∀ v ∈ operands, v.isWhole) → Counted deeds i)
    {x : Value} (hx : r = .ok x) : x.Native deeds n := by
  rcases h x hx with hplain | ⟨⟨i, rfl⟩, hwhole⟩
  · exact Value.native_of_isPlain hplain n
  · exact hcounts i hx hwhole

namespace Machine.Native

variable {m : Machine Code}

theorem empty : (Machine.empty : Machine Code).Native deeds where
  heap a o ho := by simp [Machine.empty, Heap.empty, Heap.get?] at ho
  globals := nofun

theorem find? (h : m.Native deeds) {g : Global} {v : Value} (hv : m.find? g = some v) :
    v.Native deeds m.heap.size :=
  h.globals (g, v) (mem_of_lookup hv)

theorem alloc (h : m.Native deeds) {o : Object Code}
    (ho : o.Native deeds (m.heap.size + 1) m.heap.size) :
    Machine.Native deeds { m with heap := (m.heap.alloc o).2 } where
  heap a p hp := by
    rw [Heap.size_alloc]
    rcases Nat.lt_or_ge a m.heap.size with ha | ha
    · rw [Heap.get?_alloc_of_lt ha] at hp
      exact (h.heap a p hp).mono (Nat.le_succ _)
    · have hlt := Heap.lt_of_get? hp
      rw [Heap.size_alloc] at hlt
      obtain rfl : a = (m.heap.alloc o).1 := Nat.le_antisymm (Nat.le_of_lt_succ hlt) ha
      rw [Heap.get?_alloc] at hp
      cases hp
      exact ho
  globals e he := by
    rw [Heap.size_alloc]
    exact (h.globals e he).mono (Nat.le_succ _)

theorem set (h : m.Native deeds) {a : Nat} {t : Value} (ht : t.Native deeds m.heap.size) :
    Machine.Native deeds { m with heap := m.heap.set a (.ref t) } where
  heap b p hp := by
    rw [Heap.size_set]
    by_cases hab : a = b
    · subst hab
      have hlt := Heap.lt_of_get? hp
      rw [Heap.size_set] at hlt
      rw [Heap.get?_set_self hlt] at hp
      cases hp
      exact ht
    · rw [Heap.get?_set_of_ne hab] at hp
      exact h.heap b p hp
  globals e he := by
    rw [Heap.size_set]
    exact h.globals e he

theorem define (h : m.Native deeds) {g : Global} {v : Value} (hv : v.Native deeds m.heap.size) :
    Machine.Native deeds { m with globals := (g, v) :: m.globals } where
  heap := h.heap
  globals := List.forall_mem_cons.2 ⟨hv, h.globals⟩

end Machine.Native

/-! ### Runs -/

/-- What becomes of a machine by the deeds `told`: all is of the language, and the heap has changed
as the deeds say. -/
structure Machine.Evolves (deeds told : List Deed) (m m' : Machine Code) : Prop where
  native : m'.Native deeds
  heap : m.heap.ChangedBy told m'.heap
  deeds : ∀ d ∈ told, d.Holds m.heap.size m'.heap

namespace Machine.Evolves

variable {told told' : List Deed} {m m' m'' : Machine Code}

theorem refl (hm : m.Native deeds) : Evolves deeds [] m m :=
  ⟨hm, .refl m.heap, List.forall_mem_nil _⟩

theorem trans (h : Evolves deeds told m m') (h' : Evolves deeds told' m' m'') :
    Evolves deeds (told ++ told') m m'' := by
  refine ⟨h'.native, h.heap.trans h'.heap, fun d hd => ?_⟩
  rcases List.mem_append.1 hd with hd | hd
  · exact (h.deeds d hd).mono (Nat.le_refl _) h'.heap
  · exact (h'.deeds d hd).mono h.heap.size_le (.refl _)

end Machine.Evolves

section
variable {α α' : Type}

/-- What a run from `m` comes to. -/
structure Traced.Leaves (deeds : List Deed) (Q : Nat → α → Prop) (m : Machine Code)
    (r : List Deed × Except Fault α × Machine Code) : Prop
    extends Machine.Evolves deeds r.1 m r.2.2 where
  value : ∀ a, r.2.1 = .ok a → Q r.2.2.heap.size a

/-- A run whose deeds are among the given ones leaves a machine of the language and a value with
`Q`, wherever there are at least `n` objects. -/
def Traced.Sound (deeds : List Deed) (n : Nat) (Q : Nat → α → Prop) (x : Traced α) : Prop :=
  ∀ m, n ≤ m.heap.size → m.Native deeds → (x m).1 ⊆ deeds → Leaves deeds Q m (x m)

namespace Traced.Sound

variable {n : Nat} {Q : Nat → α → Prop} {Q' : Nat → α' → Prop}

/-- A run that neither changes the heap nor tells anything. -/
theorem quietly {x : Run Code α} (h : ∀ m, n ≤ m.heap.size → m.Native deeds →
    (x m).2 = m ∧ ∀ a, (x m).1 = .ok a → Q m.heap.size a) : Sound deeds n Q (quietly x) := by
  intro m hn hm _
  obtain ⟨hmachine, hvalue⟩ := h m hn hm
  refine ⟨?_, fun a ha => ?_⟩ <;> simp only [Traced.quietly, hmachine]
  · exact .refl hm
  · exact hvalue a ha

theorem pure {a : α} (h : ∀ k, n ≤ k → Q k a) : Sound deeds n Q (pure a : Traced α) :=
  fun m hn hm _ => ⟨.refl hm, fun b hb => by cases hb; exact h _ hn⟩

theorem fail (e : Fault) : Sound deeds n Q (Traced.quietly (.fail e)) :=
  quietly fun _ _ _ => ⟨rfl, nofun⟩

theorem bind {x : Traced α} {f : α → Traced α'} (hx : Sound deeds n Q x)
    (hf : ∀ k a, n ≤ k → Q k a → Sound deeds k Q' (f a)) : Sound deeds n Q' (x >>= f) := by
  intro m hn hm hdeeds
  have hleaves := hx m hn hm
  rcases hxm : x m with ⟨told, e | a, m1⟩
  · rw [hxm] at hleaves
    rw [bind_error hxm] at hdeeds ⊢
    have h := hleaves hdeeds
    exact ⟨h.toEvolves, fun _ hb => by cases hb⟩
  · rw [hxm] at hleaves
    rw [bind_ok hxm] at hdeeds ⊢
    obtain ⟨htold, htold'⟩ := List.append_subset.1 hdeeds
    have h := hleaves htold
    have h' := hf _ a (Nat.le_trans hn h.heap.size_le) (h.value a rfl) m1 (Nat.le_refl _) h.native
      htold'
    exact ⟨h.toEvolves.trans h'.toEvolves, h'.value⟩

end Traced.Sound

end

/-! ### What runs are made of -/

theorem Machine.Native.object? {m : Machine Code} (hm : m.Native deeds) {v : Value}
    {o : Object Code} (h : m.heap.object? v = some o) :
    ∃ a, v = .object a ∧ a < m.heap.size ∧ o.Native deeds m.heap.size a := by
  cases v with
  | object a => exact ⟨a, rfl, Heap.lt_of_get? h, hm.heap a o h⟩
  | _ => cases h

/-- An update fails, or makes a record behind all objects. -/
theorem Run.extend_cases (v : Value) (news : Members) (m : Machine Code) :
    Run.extend v news m = (.error .updateOfOther, m)
      ∨ ∃ a fields, v = .object a ∧ m.heap.get? a = some (.record fields)
        ∧ Run.extend v news m = (.ok (.object m.heap.size),
          { m with heap := (m.heap.alloc (.record (fields.putAll news))).2 }) := by
  rw [extend, object?_bind]
  cases v with
  | object a =>
    simp only [Heap.object?]
    rcases hget : m.heap.get? a with _ | o
    · exact .inl rfl
    · cases o with
      | record fields => exact .inr ⟨a, fields, rfl, hget, rfl⟩
      | _ => exact .inl rfl
  | _ => exact .inl rfl

namespace Traced.Sound

variable {n : Nat}

theorem lookup {env : Env} (henv : env.Native deeds n) (x : Text) :
    Sound deeds n (Value.Native deeds) (Traced.quietly (.lookup env x)) := by
  unfold Run.lookup
  split
  · rename_i v hv
    exact pure fun k hk => (henv (x, v) (mem_of_lookup hv)).mono hk
  · exact fail _

theorem global (g : Global) : Sound deeds n (Value.Native deeds) (Traced.quietly (.global g)) := by
  refine quietly fun m _ hm => ?_
  unfold Run.global
  split
  · rename_i v hv
    refine ⟨rfl, fun w hw => ?_⟩
    cases hw
    exact hm.find? hv
  · exact ⟨rfl, nofun⟩

theorem alloc {o : Object Code} (ho : ∀ k, n ≤ k → o.Native deeds (k + 1) k) :
    Sound deeds n (Value.Native deeds) (Traced.quietly (.alloc o)) := by
  intro m hn hm _
  refine ⟨⟨hm.alloc (ho _ hn), .alloc m.heap o, List.forall_mem_nil _⟩, fun v hv => ?_⟩
  cases hv
  exact Value.native_alloc m.heap o

theorem ask {f : Heap Code → Except Fault Value} (hf : ∀ h x, f h = .ok x → x.isPlain) :
    Sound deeds n (Value.Native deeds) (Traced.quietly (.ask f)) :=
  quietly fun m _ _ => ⟨rfl, fun x hx => Value.native_of_isPlain (hf m.heap x hx) _⟩

/-- An operator whose deed is told. -/
theorem telling {f : Heap Code → Except Fault Value} {deed : Value → Deed} {operands : List Value}
    (hf : ∀ h, Gives operands (f h))
    (hcounts : ∀ i, deed (.int i) ∈ deeds → (∀ v ∈ operands, v.isWhole) → Counted deeds i)
    (hholds : ∀ v k h, (deed v).Holds k h)
    (htarget : ∀ v a, (deed v).target? a = none) :
    Sound deeds n (Value.Native deeds) (Traced.telling (.ask f) fun _ v => deed v) := by
  intro m hn hm hdeeds
  rcases hx : f m.heap with e | v
  · have hrun : (Run.ask f : Run Code Value) m = (.error e, m) := congrArg (·, m) hx
    rw [telling_error hrun]
    exact ⟨.refl hm, fun _ hb => by cases hb⟩
  · have hrun : (Run.ask f : Run Code Value) m = (.ok v, m) := congrArg (·, m) hx
    rw [telling_ok hrun] at hdeeds ⊢
    refine ⟨⟨hm, ?_, List.forall_mem_singleton.2 (hholds v _ _)⟩, fun w hw => ?_⟩
    · intro a o ho
      simp only [lastTarget?, List.filterMap_cons, htarget, List.filterMap_nil, List.getLast?_nil]
      exact ho
    · cases hw
      refine (hf m.heap).native (fun i hi => ?_) hx
      cases hx.symm.trans hi
      exact hcounts i (hdeeds List.mem_cons_self)

theorem field (v : Value) (x : Text) :
    Sound deeds n (Value.Native deeds) (Traced.quietly (.field v x)) := by
  refine quietly fun m _ hm => ?_
  rw [Run.field, Run.object?_bind]
  rcases ho : m.heap.object? v with _ | o
  · exact ⟨rfl, nofun⟩
  · obtain ⟨a, -, ha, hnative⟩ := hm.object? ho
    cases o with
    | record fields =>
      dsimp only
      rcases hw : fields.lookup x with _ | w
      · exact ⟨rfl, nofun⟩
      · refine ⟨rfl, fun u hu => ?_⟩
        cases hu
        exact (hnative.2.2 (x, w) (mem_of_lookup hw)).mono (Nat.le_of_lt ha)
    | _ => exact ⟨rfl, nofun⟩

theorem deref (v : Value) : Sound deeds n (Value.Native deeds) (Traced.quietly (.deref v)) := by
  refine quietly fun m _ hm => ?_
  rw [Run.deref, Run.object?_bind]
  rcases ho : m.heap.object? v with _ | o
  · exact ⟨rfl, nofun⟩
  · obtain ⟨a, -, -, hnative⟩ := hm.object? ho
    cases o with
    | ref target =>
      refine ⟨rfl, fun u hu => ?_⟩
      cases hu
      exact hnative
    | _ => exact ⟨rfl, nofun⟩

/-- What is found at an address is of the language. -/
theorem object? (v : Value) : Sound deeds n
    (fun k o => ∀ p ∈ o, ∃ a, a < k ∧ Object.Native deeds k a p) (Traced.quietly (.object? v)) := by
  refine quietly fun m _ hm => ⟨rfl, fun o ho p hp => ?_⟩
  obtain ⟨a, -, ha, hnative⟩ := hm.object? (v := v) (o := p) (by cases ho; exact hp)
  exact ⟨a, ha, hnative⟩

theorem apply {enter : (Value → Value → Traced Value) → Env → Code → Traced Value}
    (henter : ∀ apply, (∀ k f v, Value.Native deeds k v →
        Sound deeds k (Value.Native deeds) (apply f v)) →
      ∀ k env c, Members.Native deeds k env → c.Named →
        Sound deeds k (Value.Native deeds) (enter apply env c)) :
    ∀ (budget n : Nat) (f v : Value), v.Native deeds n →
      Sound deeds n (Value.Native deeds) (Traced.apply enter budget f v)
  | budget, n, f, v, hv => by
    rw [Traced.apply.eq_def]
    refine (object? f).bind fun k o hk ho => ?_
    have hother : Sound deeds k (Value.Native deeds) (Traced.quietly fun m : Machine Code =>
        ((.error (.notCallable (m.heap.typeName f)), m) : Except Fault Value × Machine Code)) :=
      quietly fun _ _ _ => ⟨rfl, fun a ha => by cases ha⟩
    rcases o with _ | o
    · exact hother
    · obtain ⟨a, ha, hnative⟩ := ho o rfl
      cases o with
      | closure x b env =>
        cases budget with
        | zero => exact fail _
        | succ budget =>
          exact henter _ (apply henter budget) k _ _
            (.cons (hv.mono hk) (hnative.2.mono (Nat.le_of_lt ha))) hnative.1
      | _ => exact hother

/-- A payload is older than what it is the payload of. -/
theorem variant? (v : Value) :
    Sound deeds n (fun k variant => ∀ e ∈ variant, Value.Native deeds k e.2)
      (Traced.quietly (.variant? v)) := by
  refine quietly fun m _ hm => ?_
  rw [Run.variant?, Run.object?_bind]
  rcases ho : m.heap.object? v with _ | o
  · exact ⟨rfl, fun e he => by cases he; exact nofun⟩
  · obtain ⟨a, -, ha, hnative⟩ := hm.object? ho
    cases o with
    | tagged tag payload =>
      refine ⟨rfl, fun e he => ?_⟩
      cases he
      rintro _ ⟨⟩
      exact hnative.2.mono (Nat.le_of_lt ha)
    | _ => exact ⟨rfl, fun e he => by cases he; exact nofun⟩

theorem extend (v : Value) {entries : Entries} {news : Members} (hnews : news.Native deeds n)
    (hnames : news.map Prod.fst = entries.names) (hnamed : ∀ x ∈ entries.names, x.IsName)
    (hnodup : entries.names.Nodup) :
    Sound deeds n (Value.Native deeds)
      (Traced.telling (Run.extend v news) fun m w => .extended m.heap.size v entries news w) := by
  intro m hn hm _
  rcases Run.extend_cases v news m with h | ⟨a, fields, rfl, ha, h⟩
  · rw [telling_error h]
    exact ⟨.refl hm, fun _ hb => by cases hb⟩
  · rw [telling_ok h]
    obtain ⟨hfieldNames, hfieldNodup, hfields⟩ := hm.heap a _ ha
    have hlt := Heap.lt_of_get? ha
    have hupdated : fields.putAll news = fields.updated news :=
      Members.putAll_eq_updated hfieldNodup (hnames ▸ hnodup)
    have hrecord :
        (Object.record (fields.putAll news)).Native deeds (m.heap.size + 1) m.heap.size := by
      refine ⟨fun e he => ?_, Members.nodup_putAll hfieldNodup news, fun e he => ?_⟩ <;>
        rcases Members.mem_or_mem_of_mem_updated (hupdated ▸ he) with he | he
      · exact hfieldNames e he
      · exact hnamed e.1 (hnames ▸ List.mem_map_of_mem he)
      · exact (hfields e he).mono (Nat.le_of_lt hlt)
      · exact (hnews e he).mono hn
    refine ⟨⟨hm.alloc hrecord, .alloc m.heap _, List.forall_mem_singleton.2 ?_⟩, fun u hu => ?_⟩
    · refine ⟨Nat.le_refl _, rfl, hnames, a, fields, rfl, hlt, ?_, ?_⟩
      · exact (Heap.get?_alloc_of_lt hlt _).trans ha
      · exact hupdated ▸ Heap.get?_alloc m.heap _
    · cases hu
      exact Value.native_alloc m.heap _

theorem assign (v : Value) {w : Value} (hw : w.Native deeds n) :
    Sound deeds n (Value.Native deeds)
      (Traced.telling (Run.assign v w) fun _ _ => .assigned v w) := by
  intro m hn hm _
  have hw' := hw.mono hn
  rcases Run.assign_cases v w m with h | ⟨a, t, rfl, ha, h⟩
  · rw [telling_error h]
    exact ⟨.refl hm, fun _ hb => by cases hb⟩
  · rw [telling_ok h]
    refine ⟨⟨hm.set hw', .set ha w, List.forall_mem_singleton.2 ?_⟩, fun u hu => ?_⟩
    · exact ⟨a, w, rfl, Heap.get?_set_self (Heap.lt_of_get? ha) _⟩
    · cases hu
      rw [Heap.size_set]
      exact hw'

theorem define (g : Global) {v : Value} (hv : v.Native deeds n) :
    Sound deeds n (fun _ _ => True) (Traced.quietly (Run.define g v)) :=
  fun m hn hm _ =>
    ⟨⟨hm.define (hv.mono hn), .refl m.heap, List.forall_mem_nil _⟩, fun _ _ => trivial⟩

end Traced.Sound

/-! ### Code -/

open Traced

theorem Entries.Named.isName : ∀ {es : Entries}, es.Named → ∀ x ∈ es.names, x.IsName
  | .nil, _, _, hx => absurd hx List.not_mem_nil
  | .cons _ _ rest, h, y, hy => by
    rcases List.mem_cons.1 hy with rfl | hy
    · exact h.1
    · exact (show rest.Named from h.2.2).isName y hy

section

variable {apply : Value → Value → Traced Value}
  (happly : ∀ n f v, Value.Native deeds n v → Sound deeds n (Value.Native deeds) (apply f v))

include happly

set_option linter.unusedSectionVars false in
mutual

theorem Code.trace_sound : ∀ (c : Code) {n : Nat} {env : Env}, c.Named → env.Native deeds n →
    Sound deeds n (Value.Native deeds) (c.trace apply env)
  | .number _, _, _, _, _ | .string _, _, _, _, _ | .bool _, _, _, _, _ =>
    .pure fun _ _ => trivial
  | .localVar x, _, _, _, henv => .lookup henv x
  | .globalVar g, _, _, _, _ => .global g
  | .lambda _ _, _, _, hc, henv => .alloc fun _ hk => ⟨hc, henv.mono hk⟩
  | .call f a, n, env, hc, henv => by
    by_cases hf : ∃ x b, f = .lambda x b
    · obtain ⟨x, b, rfl⟩ := hf
      simp only [Code.trace]
      exact (Code.trace_sound a hc.2 henv).bind fun k v hk hv =>
        Code.trace_sound b hc.1 (.cons hv (henv.mono hk))
    · rw [Code.trace_call fun x b he => hf ⟨x, b, he⟩]
      exact (Code.trace_sound f hc.1 henv).bind fun k g hk _ =>
        (Code.trace_sound a hc.2 (henv.mono hk)).bind fun l v _ hv => happly l g v hv
  | .ifElse c y n, _, _, hc, henv => by
    simp only [Code.trace]
    refine (Code.trace_sound c hc.1 henv).bind fun k v hk _ =>
      (Sound.quietly (Q := fun _ _ => True) fun _ _ _ => ⟨rfl, fun _ _ => trivial⟩).bind
        fun l b hl _ => ?_
    have henv' := henv.mono (Nat.le_trans hk hl)
    cases b
    · exact Code.trace_sound n hc.2.2 henv'
    · exact Code.trace_sound y hc.2.1 henv'
  | .matchOn s cs, _, _, hc, henv => by
    simp only [Code.trace]
    exact (Code.trace_sound s hc.1 henv).bind fun k v hk hv =>
      (Sound.variant? v).bind fun l r hl hr =>
        Cases.trace_sound cs hc.2 (henv.mono (Nat.le_trans hk hl)) (hv.mono hl) hr
  | .binary op l r, _, _, hc, henv => by
    simp only [Code.trace]
    refine (Code.trace_sound l hc.1 henv).bind fun k v hk hv =>
      (Code.trace_sound r hc.2 (henv.mono hk)).bind fun j w hj hw => ?_
    refine Sound.telling (fun h => h.operate_gives op v w) (fun i hi hwhole => ?_)
      (fun _ _ _ => trivial) fun _ _ => rfl
    refine .operated hi (hwhole v List.mem_cons_self)
      (hwhole w (List.mem_cons_of_mem _ List.mem_cons_self)) ?_ ?_
    · rintro i rfl
      exact hv
    · rintro i rfl
      exact hw
  | .remainder l r, _, _, hc, henv => by
    simp only [Code.trace]
    exact (Code.trace_sound l hc.1 henv).bind fun k v hk _ =>
      (Code.trace_sound r hc.2 (henv.mono hk)).bind fun j w _ _ =>
        Sound.ask fun h _ => h.remainder_isPlain
  | .neg a, _, _, hc, henv => by
    simp only [Code.trace]
    refine (Code.trace_sound a hc henv).bind fun k v _ hv => ?_
    refine Sound.telling (fun h => h.negate_gives v) (fun i hi hwhole => ?_)
      (fun _ _ _ => trivial) fun _ _ => rfl
    refine .negated hi (hwhole v List.mem_cons_self) ?_
    rintro i rfl
    exact hv
  | .deref a, _, _, hc, henv => by
    simp only [Code.trace]
    exact (Code.trace_sound a hc henv).bind fun k v _ _ => Sound.deref v
  | .assign t v, _, _, hc, henv => by
    simp only [Code.trace]
    exact (Code.trace_sound t hc.1 henv).bind fun k target hk _ =>
      (Code.trace_sound v hc.2 (henv.mono hk)).bind fun j value _ hvalue =>
        Sound.assign target hvalue
  | .record es, _, _, hc, henv => by
    simp only [Code.trace]
    refine (Entries.trace_sound es hc.1 henv).bind fun k fields _ hfields => ?_
    refine Sound.alloc fun j hj => ⟨fun e he => ?_, hfields.2 ▸ hc.2, hfields.1.mono hj⟩
    exact Entries.Named.isName hc.1 e.1 (hfields.2 ▸ List.mem_map_of_mem he)
  | .extend b es, _, _, hc, henv => by
    simp only [Code.trace]
    exact (Code.trace_sound b hc.1 henv).bind fun k v hk _ =>
      (Entries.trace_sound es hc.2.1 (henv.mono hk)).bind fun j fields _ hfields =>
        Sound.extend v hfields.1 hfields.2 (Entries.Named.isName hc.2.1) hc.2.2
  | .field b x, _, _, hc, henv => by
    simp only [Code.trace]
    exact (Code.trace_sound b hc henv).bind fun k v _ _ => Sound.field v x
  | .tagged tag p, _, _, hc, henv => by
    simp only [Code.trace]
    exact (Code.trace_sound p hc.2 henv).bind fun k v _ hv =>
      Sound.alloc fun j hj => ⟨hc.1, hv.mono hj⟩
  | .newRef a, _, _, hc, henv => by
    simp only [Code.trace]
    exact (Code.trace_sound a hc henv).bind fun k v _ hv =>
      Sound.alloc fun j hj => hv.mono (Nat.le_succ_of_le hj)

theorem Cases.trace_sound : ∀ (cs : Cases) {n : Nat} {env : Env} {v : Value}
    {variant : Option (Text × Value)}, cs.Named → env.Native deeds n → v.Native deeds n →
    (∀ e ∈ variant, Value.Native deeds n e.2) →
    Sound deeds n (Value.Native deeds) (cs.trace apply env v variant)
  | .nil, _, _, _, none, _, _, _, _ => .fail _
  | .nil, _, _, _, some _, _, _, _, _ => .fail _
  | .otherwise x b, _, _, _, _, hc, henv, hv, _ => Code.trace_sound b hc (.cons hv henv)
  | .cons _ _ _ rest, _, _, _, none, hc, henv, hv, hr => Cases.trace_sound rest hc.2 henv hv hr
  | .cons t x b rest, _, _, _, some (tag, payload), hc, henv, hv, hr => by
    simp only [Cases.trace]
    split
    · exact Code.trace_sound b hc.1 (.cons (hr _ rfl) henv)
    · exact Cases.trace_sound rest hc.2 henv hv hr

theorem Entries.trace_sound : ∀ (es : Entries) {n : Nat} {env : Env}, es.Named →
    env.Native deeds n → Sound deeds n
      (fun k fields => Members.Native deeds k fields ∧ fields.map Prod.fst = es.names)
      (es.trace apply env)
  | .nil, _, _, _, _ => .pure fun _ _ => ⟨List.forall_mem_nil _, rfl⟩
  | .cons x c rest, _, _, hc, henv => by
    simp only [Entries.trace]
    exact (Code.trace_sound c hc.2.1 henv).bind fun k v hk hv =>
      (Entries.trace_sound rest hc.2.2 (henv.mono hk)).bind fun j fields hj hfields =>
        .pure fun l hl => ⟨.cons (hv.mono (Nat.le_trans hj hl)) (hfields.1.mono hl),
          congrArg (List.cons x) hfields.2⟩

end

end

/-! ### Programs -/

theorem Code.tracedApply_sound (calls n : Nat) (f v : Value) (hv : v.Native deeds n) :
    Sound deeds n (Value.Native deeds) (Code.tracedApply calls f v) :=
  Sound.apply (fun _ happly _ _ c henv hc => c.trace_sound happly hc henv) calls n f v hv

theorem Step.trace_sound (calls n : Nat) {s : Step} (hs : s.Named) :
    Sound deeds n (Value.Native deeds) (s.trace calls) := by
  have hcode : ∀ c : Code, c.Named →
      Sound deeds n (Value.Native deeds) (c.trace (Code.tracedApply calls) []) :=
    fun c hc => c.trace_sound (Code.tracedApply_sound calls) hc (List.forall_mem_nil _)
  cases s with
  | expr c => exact hcode c hs
  | define g c =>
    exact (hcode c hs).bind fun k v _ hv => (Sound.define g hv).bind fun j _ hj _ =>
      .pure fun l hl => hv.mono (Nat.le_trans hj hl)

theorem traceSteps_sound (calls : Nat) : ∀ (n : Nat) {steps : List Step}, steps ≠ [] →
    (∀ s ∈ steps, s.Named) → Sound deeds n (Value.Native deeds) (traceSteps calls steps)
  | _, [], hne, _ => absurd rfl hne
  | n, [s], _, hs => Step.trace_sound calls n (hs s List.mem_cons_self)
  | n, s :: s' :: ss, _, hs => by
    obtain ⟨hhead, htail⟩ := List.forall_mem_cons.1 hs
    exact (Step.trace_sound calls n hhead).bind fun k _ _ _ =>
      traceSteps_sound calls k (List.cons_ne_nil _ _) htail

/-- A program with only names in it keeps to the language, and changes the heap as its deeds say. -/
theorem Compiled.trace_sound {c : Compiled} (hc : c.Named) :
    Sound deeds 0 (Value.Native deeds) c.trace := by
  unfold trace
  split
  · exact .fail _
  · exact traceSteps_sound maxCalls 0 hc.nonempty hc.steps

end Toplevel
