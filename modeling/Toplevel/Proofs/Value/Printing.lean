import Toplevel.Proofs.Eval.Native
import Toplevel.Proofs.Value.Totality

/-!
# How values of the language are displayed

Where a value of the language is displayed, only values of the language come up, and no key but the
names of fields (`Machine.Native.of_meets`). So the display does not depend on how other keys are
written (`Machine.Native.writeAll_eq_display`).
-/

namespace Toplevel

variable {deeds : List Deed} {m : Machine Code}

/-! ### What comes up -/

theorem Members.exists_of_mem_entries {ms : Members} {e : Value × Value} (he : e ∈ ms.entries) :
    ∃ d ∈ ms, e = (.string d.1, d.2) := by
  obtain ⟨d, hd, rfl⟩ := List.mem_map.1 he
  exact ⟨d, hd, rfl⟩

namespace Object.Native

variable {o : Object Code} {n a : Nat}

theorem isString_of_mem_keys (h : o.Native deeds n a) {k : Value} (hk : k ∈ o.keys) :
    k.isString = true := by
  obtain ⟨e, he, rfl⟩ := List.mem_map.1 hk
  cases o with
  | record fields =>
    obtain ⟨d, -, rfl⟩ := Members.exists_of_mem_entries he
    rfl
  | tagged | ref | closure => cases he
  | list | tuple | mapping | attributes => cases h

theorem of_mem_parts (h : o.Native deeds n a) (ha : a < n) {w : Value} (hw : w ∈ o.parts) :
    w.Native deeds n := by
  cases o with
  | tagged tag payload =>
    rw [List.mem_singleton.1 hw]
    exact h.2.mono (Nat.le_of_lt ha)
  | ref target =>
    rw [List.mem_singleton.1 hw]
    exact h
  | record fields =>
    obtain ⟨e, he, rfl⟩ := List.mem_map.1 hw
    obtain ⟨d, hd, rfl⟩ := Members.exists_of_mem_entries he
    exact (h.2.2 d hd).mono (Nat.le_of_lt ha)
  | closure => cases hw
  | list | tuple | mapping | attributes => cases h

end Object.Native

namespace Machine.Native

variable (hm : m.Native deeds)

include hm

theorem of_isPart {v w : Value} (h : m.heap.IsPart v w) : w.Native deeds m.heap.size := by
  obtain ⟨o, ho, hw⟩ := h
  obtain ⟨a, -, ha, hnative⟩ := hm.object? ho
  exact hnative.of_mem_parts ha hw

theorem of_leads {v w : Value} (hv : v.Native deeds m.heap.size) (h : m.heap.Leads v w) :
    w.Native deeds m.heap.size := by
  cases h with
  | refl => exact hv
  | tail _ hpart => exact hm.of_isPart hpart

/-- Only values of the language come up, and none of them in a key. -/
theorem of_meets {v w : Value} {n : Nat} (hv : v.Native deeds m.heap.size)
    (h : m.heap.Meets v n w) : n = 0 ∧ w.Native deeds m.heap.size := by
  cases h with
  | part hw => exact ⟨rfl, hm.of_leads hv hw⟩
  | key hu ho hk hs hw =>
    obtain ⟨rfl, ho, -⟩ := Heap.composite?_eq_some.1 ho
    rw [(hm.heap _ _ ho).isString_of_mem_keys hk] at hs
    cases hs

end Machine.Native

/-! ### What is written -/

section
variable {h : Heap Code} {key : Value → Except DisplayError Text}

theorem mem_of_mem_entriesWork {es : List (Value × Value)} {before : Text} {work : List Work}
    (hwork : entriesWork key before es = .ok work) {w : Value} (hw : .value w ∈ work) :
    w ∈ es.map Prod.snd := by
  induction es generalizing before work with
  | nil =>
    cases hwork
    simp at hw
  | cons e es ih =>
    obtain ⟨rest, hrest, hwork⟩ := exists_of_bind_eq_ok hwork
    obtain ⟨k, -, hwork⟩ := exists_of_bind_eq_ok hwork
    cases hwork
    simp only [List.mem_cons, reduceCtorEq, false_or, Work.value.injEq] at hw
    rcases hw with rfl | hw
    · exact List.mem_cons_self
    · exact List.mem_cons_of_mem _ (ih hrest hw)

/-- The values that are written for an object are its parts. -/
theorem mem_parts_of_mem_work {o : Object Code} {work : List Work} (hwork : o.work h key = .ok work)
    {w : Value} (hw : .value w ∈ work) : w ∈ o.parts := by
  have hbraced : ∀ es : List (Value × Value), Object.work.braced key es = .ok work →
      w ∈ es.map Prod.snd := by
    intro es hes
    obtain ⟨rest, hrest, hes⟩ := exists_of_bind_eq_ok hes
    cases hes
    simp only [List.mem_cons, reduceCtorEq, false_or] at hw
    exact mem_of_mem_entriesWork hrest hw
  cases o with
  | tagged | ref =>
    cases hwork
    simpa [Object.parts] using hw
  | closure =>
    cases hwork
    simp at hw
  | record | list | tuple | mapping | attributes => exact hbraced _ hwork

end

section
variable {h : Heap Code} {key key' : Value → Except DisplayError Text}
  (hkey : ∀ t, key (.string t) = key' (.string t))

include hkey

theorem entriesWork_congr (fields : Members) (before : Text) :
    entriesWork key before fields.entries = entriesWork key' before fields.entries := by
  induction fields generalizing before with
  | nil => rfl
  | cons e fields ih =>
    rw [Members.entries, List.map_cons, entriesWork, entriesWork]
    rw [Members.entries] at ih
    rw [ih, hkey]

theorem Object.Native.work_eq {o : Object Code} {n a : Nat} (ho : o.Native deeds n a) :
    o.work h key = o.work h key' := by
  cases o with
  | tagged | ref | closure => rfl
  | record fields =>
    rw [Object.work, Object.work, Object.work.braced, Object.work.braced, entriesWork_congr hkey]
  | list | tuple | mapping | attributes => cases ho

end

/-- Displays of values of the language do not depend on what is written for keys that are no
texts. -/
theorem Machine.Native.writeAll_congr (hm : m.Native deeds)
    {key key' : Value → Except DisplayError Text} (hkey : ∀ t, key (.string t) = key' (.string t)) :
    ∀ (budget : Nat) (stack : List Work) (d : Display),
      (∀ w, .value w ∈ stack → w.Native deeds m.heap.size) →
      writeAll m.heap key budget d stack = writeAll m.heap key' budget d stack := by
  intro budget
  induction budget with
  | zero => exact fun _ _ _ => rfl
  | succ budget ihBudget =>
    intro stack
    induction stack with
    | nil => exact fun _ _ => rfl
    | cons x rest ih =>
      intro d hstack
      have hrest : ∀ w, .value w ∈ rest → w.Native deeds m.heap.size :=
        fun w hw => hstack w (List.mem_cons_of_mem x hw)
      cases x with
      | text s => exact ih (d.write s) hrest
      | value v =>
        rcases hv : m.heap.composite? v with _ | ⟨a, o⟩
        · rw [writeAll_atom budget d rest hv, writeAll_atom budget d rest hv]
          rcases v.atomText with e | s
          · rfl
          · exact ih (d.write s) hrest
        · rcases ha : d.seen.contains a
          · obtain ⟨rfl, ho, -⟩ := Heap.composite?_eq_some.1 hv
            have hnative := hm.heap a o ho
            rw [writeAll_first budget d rest hv ha, writeAll_first budget d rest hv ha,
              hnative.work_eq hkey]
            rcases hwork : o.work m.heap key' with e | work
            · rfl
            · refine ihBudget (work ++ rest) (d.mark a) fun w hw => ?_
              rcases List.mem_append.1 hw with hw | hw
              · exact hnative.of_mem_parts (Heap.lt_of_get? ho) (mem_parts_of_mem_work hwork hw)
              · exact hrest w hw
          · rw [writeAll_again budget d rest hv ha, writeAll_again budget d rest hv ha]
            exact ih (d.write "...") hrest

/-- However keys that are no texts may be written, the display is the same. -/
theorem Machine.Native.writeAll_eq_display (hm : m.Native deeds) {v : Value}
    (hv : v.Native deeds m.heap.size) {key : Value → Except DisplayError Text}
    (hkey : ∀ t, key (.string t) = .ok t) :
    (writeAll m.heap key (m.heap.size + 1) .empty [.value v]).map Display.text
      = m.heap.display v := by
  have hkeys (t : Text) : key (.string t) = Display.keyWithin m.heap maxKeyDepth (.string t) :=
    hkey t
  have hcongr := hm.writeAll_congr hkeys (m.heap.size + 1) [.value v] .empty (by simpa using hv)
  rw [hcongr, ← Display.addWithin_succ]
  rfl

end Toplevel
