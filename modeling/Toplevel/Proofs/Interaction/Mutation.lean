import Mathlib.Data.List.Chain
import Toplevel.Proofs.Interaction.Language

/-!
# Only references change

Records and tagged values are for ever what they were made. Between two points of an interaction
nothing that is there changes but the references that are assigned to, and an update of a record
leaves it as it is and makes another one (`Interaction.only_references_change`). What an object but
a reference leads to is older than the object itself, and so a value can lead back to itself only
through a reference (`Machine.Native.cycle_meets_ref`).
-/

namespace Toplevel

variable {deeds : List Deed} {m : Machine Code}

/-! ### Cycles -/

/-- Values that lead from one to the next, and from the last back to the first. -/
def Heap.Cycle (h : Heap Code) (vs : List Value) : Prop :=
  vs ≠ [] ∧ (vs ++ vs.head?.toList).IsChain h.IsPart

def Heap.IsRef (h : Heap Code) (v : Value) : Prop := ∃ t, h.object? v = some (.ref t)

/-- One more than the address of an object, and less for all else. -/
def Value.rank : Value → Nat
  | .object a => a + 1
  | _ => 0

theorem Value.Native.rank_le {v : Value} {n : Nat} (h : v.Native deeds n) : v.rank ≤ n := by
  cases v <;> first | exact Nat.zero_le n | exact h

/-- What an object but a reference leads to is older. -/
theorem Machine.Native.rank_lt (hm : m.Native deeds) {v w : Value} (hv : ¬m.heap.IsRef v)
    (h : m.heap.IsPart v w) : w.rank < v.rank := by
  obtain ⟨o, ho, hw⟩ := h
  obtain ⟨a, rfl, -, hnative⟩ := hm.object? ho
  suffices h : w.Native deeds a from Nat.lt_succ_of_le h.rank_le
  cases o with
  | ref t => exact absurd ⟨t, ho⟩ hv
  | tagged tag payload =>
    rw [List.mem_singleton.1 hw]
    exact hnative.2
  | record fields =>
    obtain ⟨e, he, rfl⟩ := List.mem_map.1 hw
    obtain ⟨d, hd, rfl⟩ := Members.exists_of_mem_entries he
    exact hnative.2.2 d hd
  | closure => cases hw
  | list | tuple | mapping | attributes => cases hnative

/-- A value can lead back to itself only through a reference. -/
theorem Machine.Native.cycle_meets_ref (hm : m.Native deeds) {vs : List Value}
    (h : m.heap.Cycle vs) : ∃ v ∈ vs, m.heap.IsRef v := by
  obtain ⟨hne, hchain⟩ := h
  by_contra hnone
  have hmem : ∀ v ∈ vs ++ vs.head?.toList, v ∈ vs := by
    intro v hv
    rcases List.mem_append.1 hv with hv | hv
    · exact hv
    · exact List.mem_of_mem_head? (Option.mem_toList.1 hv)
  have hranks : (vs ++ vs.head?.toList).IsChain fun v w => w.rank < v.rank :=
    hchain.imp_of_mem_imp fun v w hv _ hpart =>
      hm.rank_lt (fun href => hnone ⟨v, hmem v hv, href⟩) hpart
  obtain ⟨v, vs, rfl⟩ := List.exists_cons_of_ne_nil hne
  have : IsTrans Value fun v w => w.rank < v.rank := ⟨fun _ _ _ h h' => Nat.lt_trans h' h⟩
  have hpairwise := List.isChain_iff_pairwise.1 hranks
  rw [List.cons_append, List.pairwise_cons] at hpairwise
  exact Nat.lt_irrefl v.rank (hpairwise.1 v (List.mem_append_right _ List.mem_cons_self))

/-- A reference to itself. -/
example : Heap.Cycle ⟨#[.ref (.object 0)]⟩ [.object 0] :=
  ⟨List.cons_ne_nil _ _,
    .cons_cons ⟨.ref (.object 0), rfl, List.mem_singleton.2 rfl⟩ (.singleton _)⟩

/-! ### Interactions -/

/-- Between two points of an interaction, `after` behind `before`: records and tagged values stay
as they are, references are pointed at what they were assigned last, and nothing else changes; and
every update of a record is a record of its own. -/
theorem Interaction.only_references_change (before after : List Action) :
    let i := (start .empty).acts .standard before
    let h := i.engine.machine.heap
    let h' := (i.acts .standard after).engine.machine.heap
    (∀ a fields, h.get? a = some (.record fields) → h'.get? a = some (.record fields))
      ∧ (∀ a tag payload, h.get? a = some (.tagged tag payload) →
        h'.get? a = some (.tagged tag payload))
      ∧ h.ChangedBy (i.deeds after) h'
      ∧ (∀ d ∈ i.deeds after, d.Holds h.size h')
      ∧ ∀ vs, h.Cycle vs → ∃ v ∈ vs, h.IsRef v := by
  intro i h h'
  have hempty : (start EngineState.empty).engine.machine.Native
      ((start .empty).deeds before ++ i.deeds after) := .empty
  have hi := (acts_evolves before hempty (List.subset_append_left _ _)).native
  have hevolves := acts_evolves after hi (List.subset_append_right _ _)
  exact ⟨fun a fields ha => hevolves.heap.get?_eq ha nofun,
    fun a tag payload ha => hevolves.heap.get?_eq ha nofun, hevolves.heap, hevolves.deeds,
    fun vs hvs => hi.cycle_meets_ref hvs⟩

end Toplevel
