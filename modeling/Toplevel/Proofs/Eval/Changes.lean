import Mathlib.Data.List.Nodup
import Toplevel.Proofs.Code.Names
import Toplevel.Proofs.Eval.Deeds

/-!
# What deeds change

Objects stay as they are but for the references that deeds point at something else, and each of
these stands as the last such deed says (`Heap.ChangedBy`). A record that is updated stays too: the
update is another record (`Deed.Holds`), with the fields of the old one in their order and the new
ones behind them (`Members.updated`).
-/

namespace Toplevel

/-! ### Updated fields -/

namespace Members

/-- Fields with their new values in place of the old ones, and the fields that are new behind
them. -/
def updated (fields news : Members) : Members :=
  fields.map (fun e => (e.1, (news.lookup e.1).getD e.2))
    ++ news.filter fun e => e.1 ∉ fields.map Prod.fst

theorem updated_nil (fields : Members) : fields.updated [] = fields := by
  simp [updated]

theorem put_of_notMem {fields : Members} {x : Text} (hx : x ∉ fields.map Prod.fst) (v : Value) :
    fields.put x v = fields ++ [(x, v)] := by
  induction fields with
  | nil => rfl
  | cons e fields ih =>
    rw [List.map_cons, List.mem_cons, not_or] at hx
    rw [put, if_neg (Ne.symm hx.1), ih hx.2]
    rfl

theorem put_of_mem {fields : Members} (hf : (fields.map Prod.fst).Nodup) {x : Text}
    (hx : x ∈ fields.map Prod.fst) (v : Value) :
    fields.put x v = fields.map fun e => if e.1 = x then (x, v) else e := by
  induction fields with
  | nil => cases hx
  | cons e fields ih =>
    rw [List.map_cons, List.nodup_cons] at hf
    rw [put, List.map_cons]
    split
    · rename_i he
      subst he
      have hsame : (fields.map fun d => if d.1 = e.1 then (e.1, v) else d) = fields.map id :=
        List.map_congr_left fun d hd =>
          if_neg fun hde : d.1 = e.1 => hf.1 (hde ▸ List.mem_map_of_mem hd)
      rw [hsame, List.map_id]
    · rename_i he
      rw [ih hf.2 ((List.mem_cons.1 hx).resolve_left (Ne.symm he))]

theorem map_fst_put (fields : Members) (x : Text) (v : Value) :
    (fields.put x v).map Prod.fst
      = if x ∈ fields.map Prod.fst then fields.map Prod.fst else fields.map Prod.fst ++ [x] := by
  induction fields with
  | nil => rfl
  | cons e fields ih =>
    rw [put]
    split
    · rename_i he
      rw [List.map_cons, List.map_cons, he, if_pos List.mem_cons_self]
    · rename_i he
      simp only [List.map_cons, ih, List.mem_cons, or_iff_right (Ne.symm he)]
      split <;> rfl

theorem nodup_put {fields : Members} (hf : (fields.map Prod.fst).Nodup) (x : Text) (v : Value) :
    ((fields.put x v).map Prod.fst).Nodup := by
  rw [map_fst_put]
  split
  · exact hf
  · rename_i hx
    rw [← List.concat_eq_append]
    exact hf.concat hx

theorem nodup_putAll {fields : Members} (hf : (fields.map Prod.fst).Nodup) (news : Members) :
    ((fields.putAll news).map Prod.fst).Nodup := by
  induction news generalizing fields with
  | nil => exact hf
  | cons e news ih => exact ih (nodup_put hf e.1 e.2)

theorem mem_or_mem_of_mem_updated {fields news : Members} {e : Text × Value}
    (he : e ∈ fields.updated news) : e ∈ fields ∨ e ∈ news := by
  rcases List.mem_append.1 he with he | he
  · obtain ⟨d, hd, rfl⟩ := List.mem_map.1 he
    rcases hlookup : news.lookup d.1 with _ | v
    · exact .inl hd
    · exact .inr (mem_of_lookup hlookup)
  · exact .inr (List.mem_of_mem_filter he)

/-- Putting one more value first updates the fields by it too. -/
theorem updated_put {fields news : Members} (hf : (fields.map Prod.fst).Nodup) {x : Text}
    (hx : x ∉ news.map Prod.fst) (v : Value) :
    (fields.put x v).updated news = fields.updated ((x, v) :: news) := by
  have hnone : news.lookup x = none := by
    rw [List.lookup_eq_none_iff]
    intro e he
    rw [bne_iff_ne]
    rintro rfl
    exact hx (List.mem_map_of_mem he)
  have hother : ∀ {y : Text}, y ≠ x → ((x, v) :: news).lookup y = news.lookup y := by
    intro y hy
    rw [List.lookup_cons, beq_eq_false_iff_ne.2 hy]
  by_cases hmem : x ∈ fields.map Prod.fst
  · rw [updated, updated, map_fst_put, if_pos hmem, put_of_mem hf hmem, List.map_map,
      List.filter_cons_of_neg (by simpa using hmem)]
    refine congrArg (· ++ _) (List.map_congr_left fun e _ => ?_)
    simp only [Function.comp_apply]
    split
    · rename_i he
      rw [hnone, he, List.lookup_cons_self]
      rfl
    · rename_i he
      rw [hother he]
  · rw [updated, updated, map_fst_put, if_neg hmem, put_of_notMem hmem, List.map_append,
      List.filter_cons_of_pos (by simpa using hmem), List.append_assoc]
    have hold : ∀ e ∈ fields, e.1 ≠ x := by
      rintro e he rfl
      exact hmem (List.mem_map_of_mem he)
    have hnew : ∀ e ∈ news, e.1 ≠ x := by
      rintro e he rfl
      exact hx (List.mem_map_of_mem he)
    refine congrArg₂ (· ++ ·) (List.map_congr_left fun e he => ?_)
      (congrArg₂ List.cons ?_ (List.filter_congr fun e he => ?_))
    · rw [hother (hold e he)]
    · dsimp only
      rw [hnone]
      rfl
    · simp [hnew e he]

/-- Putting new values one after another updates the fields. -/
theorem putAll_eq_updated {fields news : Members} (hf : (fields.map Prod.fst).Nodup)
    (hn : (news.map Prod.fst).Nodup) : fields.putAll news = fields.updated news := by
  induction news generalizing fields with
  | nil => exact (updated_nil fields).symm
  | cons e news ih =>
    obtain ⟨he, hn⟩ := List.nodup_cons.1 hn
    rw [← updated_put hf he e.2, ← ih (nodup_put hf e.1 e.2) hn]
    rfl

end Members

/-! ### Changed heaps -/

/-- What a deed points the object at the address `a` at. -/
def Deed.target? (a : Nat) : Deed → Option Value
  | .assigned (.object b) target => if b = a then some target else none
  | _ => none

/-- What the object at the address `a` was pointed at last. -/
def lastTarget? (deeds : List Deed) (a : Nat) : Option Value :=
  (deeds.filterMap (Deed.target? a)).getLast?

/-- Each object of `h` is there in `h'`: a reference that has been assigned to is pointed at its
last target, and all else is as it was. -/
def Heap.ChangedBy (deeds : List Deed) (h h' : Heap Code) : Prop :=
  ∀ a o, h.get? a = some o →
    match lastTarget? deeds a with
    | none => h'.get? a = some o
    | some t => (∃ t', o = .ref t') ∧ h'.get? a = some (.ref t)

namespace Heap.ChangedBy

variable {deeds deeds' : List Deed} {h h' h'' : Heap Code}

theorem refl (h : Heap Code) : ChangedBy [] h h := fun _ _ ho => ho

theorem trans (h1 : ChangedBy deeds h h') (h2 : ChangedBy deeds' h' h'') :
    ChangedBy (deeds ++ deeds') h h'' := by
  intro a o ho
  have ho1 := h1 a o ho
  rw [lastTarget?, List.filterMap_append, List.getLast?_append]
  rw [lastTarget?] at ho1
  rcases hlast : (deeds.filterMap (Deed.target? a)).getLast? with _ | t
  · rw [hlast] at ho1
    rw [Option.or_none]
    exact h2 a o ho1
  · rw [hlast] at ho1
    obtain ⟨hold, ho1⟩ := ho1
    have ho2 := h2 a _ ho1
    rw [lastTarget?] at ho2
    rcases hlast' : (deeds'.filterMap (Deed.target? a)).getLast? with _ | t'
    · rw [hlast'] at ho2
      exact ⟨hold, ho2⟩
    · rw [hlast'] at ho2
      exact ⟨hold, ho2.2⟩

theorem alloc (h : Heap Code) (o : Object Code) : ChangedBy [] h (h.alloc o).2 :=
  fun _ _ hp => (Heap.get?_alloc_of_lt (Heap.lt_of_get? hp) o).trans hp

theorem set {a : Nat} {t : Value} (ha : h.get? a = some (.ref t)) (t' : Value) :
    ChangedBy [.assigned (.object a) t'] h (h.set a (.ref t')) := by
  intro b o ho
  by_cases hab : a = b
  · subst hab
    rw [ha] at ho
    cases ho
    simp only [lastTarget?, List.filterMap_cons, Deed.target?, if_true, List.filterMap_nil,
      List.getLast?_singleton]
    exact ⟨⟨t, rfl⟩, Heap.get?_set_self (Heap.lt_of_get? ha) _⟩
  · simp only [lastTarget?, List.filterMap_cons, Deed.target?, if_neg hab, List.filterMap_nil,
      List.getLast?_nil]
    rw [Heap.get?_set_of_ne hab, ho]

/-- What is no reference stays as it is. -/
theorem get?_eq (hc : ChangedBy deeds h h') {a : Nat} {o : Object Code} (ho : h.get? a = some o)
    (href : ∀ t, o ≠ .ref t) : h'.get? a = some o := by
  have ho' := hc a o ho
  split at ho'
  · exact ho'
  · obtain ⟨⟨t, rfl⟩, -⟩ := ho'
    exact absurd rfl (href t)

/-- A reference stays a reference. -/
theorem exists_ref (hc : ChangedBy deeds h h') {a : Nat} {t : Value}
    (ho : h.get? a = some (.ref t)) : ∃ t', h'.get? a = some (.ref t') := by
  have ho' := hc a _ ho
  split at ho'
  · exact ⟨t, ho'⟩
  · exact ⟨_, ho'.2⟩

theorem size_le (hc : ChangedBy deeds h h') : h.size ≤ h'.size := by
  by_contra hlt
  obtain ⟨o, ho⟩ : ∃ o, h.get? h'.size = some o := by
    rw [← Option.ne_none_iff_exists', ne_eq, Heap.get?_eq_none]
    exact hlt
  have hnone : h'.get? h'.size = none := Heap.get?_eq_none.2 (Nat.le_refl _)
  have ho' := hc _ o ho
  split at ho'
  · cases hnone.symm.trans ho'
  · cases hnone.symm.trans ho'.2

end Heap.ChangedBy

/-! ### What is true of a deed -/

/-- What remains true of a deed that has been done in a heap with at least `n` objects. The update
of a record is another record, at an address that was free, and the record that has been updated is
as it was. -/
def Deed.Holds (n : Nat) (h : Heap Code) : Deed → Prop
  | .operated .. | .negated .. => True
  | .assigned reference _ => ∃ a t, reference = .object a ∧ h.get? a = some (.ref t)
  | .extended size base entries news record => n ≤ size ∧ record = .object size
    ∧ news.map Prod.fst = entries.names ∧ ∃ b fields, base = .object b ∧ b < size
      ∧ h.get? b = some (.record fields) ∧ h.get? size = some (.record (fields.updated news))

theorem Deed.Holds.mono {n n' : Nat} {deeds : List Deed} {h h' : Heap Code} {d : Deed}
    (hd : d.Holds n h) (hn : n' ≤ n) (hc : h.ChangedBy deeds h') : d.Holds n' h' := by
  cases d with
  | operated => exact trivial
  | negated => exact trivial
  | assigned =>
    obtain ⟨a, t, hr, ha⟩ := hd
    obtain ⟨t', ha'⟩ := hc.exists_ref ha
    exact ⟨a, t', hr, ha'⟩
  | extended =>
    obtain ⟨hsize, hr, hnames, b, fields, hb, hlt, hbase, hrecord⟩ := hd
    exact ⟨Nat.le_trans hn hsize, hr, hnames, b, fields, hb, hlt, hc.get?_eq hbase nofun,
      hc.get?_eq hrecord nofun⟩

end Toplevel
