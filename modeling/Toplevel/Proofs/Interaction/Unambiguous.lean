import Toplevel.Proofs.Interaction.Batch
import Toplevel.Proofs.Interaction.Language
import Toplevel.Proofs.Syntax.Rendering
import Toplevel.Proofs.Value.Ambiguity

/-!
# What a display tells of a value

In an interaction fields are called by names and tags are tags, so that a value that unfolds to
plain data is told from its display, but for a reference to an atom behind a tag
(`Interaction.display_eq_iff`). The two displays of the exception are alike indeed
(`Interaction.display_ambiguous`).
-/

namespace Toplevel

section

variable {deeds : List Deed} {h : Heap Code} {n : Nat}

mutual

theorem PlainData.named_of_heldAt (hheap : ∀ a o, h.get? a = some o → o.Native deeds n a) :
    ∀ {d : PlainData} {v : Value} {as : List Nat}, d.HeldAt h v as → d.Named
  | _, _, _, .bool _ | _, _, _, .number _ | _, _, _, .string _ => trivial
  | _, _, _, .record ha hfields =>
    PlainFields.named_of_heldAt hheap hfields (hheap _ _ ha).1
  | _, _, _, .tagged ha hpayload =>
    ⟨(hheap _ _ ha).1, PlainData.named_of_heldAt hheap hpayload⟩
  | _, _, _, .ref _ hcontent => (PlainData.named_of_heldAt hheap hcontent :)

theorem PlainFields.named_of_heldAt (hheap : ∀ a o, h.get? a = some o → o.Native deeds n a) :
    ∀ {fs : PlainFields} {members : Members} {as : List Nat}, fs.HeldAt h members as →
      (∀ e ∈ members, e.1.IsName) → fs.Named
  | _, _, _, .nil, _ => trivial
  | _, _, _, .cons hd hrest, hnames => by
    obtain ⟨hx, hnames⟩ := List.forall_mem_cons.1 hnames
    exact ⟨hx, PlainData.named_of_heldAt hheap hd, PlainFields.named_of_heldAt hheap hrest hnames⟩

end

end

/-- Plain data that a value unfolds to in an interaction is made of names and tags. -/
theorem Interaction.named_of_unfolds {as : List Action} {v : Value} {d : PlainData}
    (hv : ((start .empty).acts .standard as).engine.machine.heap.Unfolds v d) : d.Named := by
  obtain ⟨_, hd, -⟩ := hv
  exact PlainData.named_of_heldAt (start_evolves as).native.heap hd

/-! ### Two values that are displayed alike -/

/-- A reference to an atom behind a tag, and the atom behind the tag with the word of the reference
at its end. -/
def PlainData.refBehindTag : PlainData := .tagged "`A" (.ref (.bool true))

@[inherit_doc PlainData.refBehindTag]
def PlainData.tagWithRef : PlainData := .tagged "`Aref" (.bool true)

theorem Program.render_denotes {p : Program} (hp : p.Writable) : p.render.Denotes p.statements := by
  obtain ⟨q, hq, hunplaced⟩ := (Program.render_laysOut hp).parse (Program.writes hp)
  rw [Program.unplaced_unplaced] at hunplaced
  exact ⟨q.statements, hq, congrArg Program.statements hunplaced⟩

theorem Program.render_denotes_expr {e : Expr} (he : e.Writable) :
    (Program.render ⟨[.expr e]⟩).Denotes [.expr e] :=
  render_denotes ⟨List.cons_ne_nil _ _, List.forall_mem_singleton.2 he⟩

theorem Interaction.unfolds_refBehindTag : ∃ v,
    ((start .empty).acts .standard [.execute "`A ( ref true )"]).engine.machine.heap.Unfolds v
      .refBehindTag := by
  have he : (Expr.tagged "`A" (.newRef (.bool true))).Writable := ⟨rfl, trivial⟩
  have htext : ("`A ( ref true )" : Text)
      = Program.render ⟨[.expr (.tagged "`A" (.newRef (.bool true)))]⟩ := by decide +kernel
  have hmachine :=
    (act_expr (i := start .empty) (Program.render_denotes_expr he) rfl (by decide) rfl).2
  rw [← htext] at hmachine
  rw [acts, List.foldl_cons, List.foldl_nil, hmachine]
  exact ⟨.object 1, [1, 0], .tagged rfl (.ref rfl (.bool true)), by decide⟩

theorem Interaction.unfolds_tagWithRef : ∃ v,
    ((start .empty).acts .standard [.execute "`Aref true"]).engine.machine.heap.Unfolds v
      .tagWithRef := by
  have he : (Expr.tagged "`Aref" (.bool true)).Writable := ⟨rfl, trivial⟩
  have htext : ("`Aref true" : Text) = Program.render ⟨[.expr (.tagged "`Aref" (.bool true))]⟩ := by
    decide +kernel
  have hmachine :=
    (act_expr (i := start .empty) (Program.render_denotes_expr he) rfl (by decide) rfl).2
  rw [← htext] at hmachine
  rw [acts, List.foldl_cons, List.foldl_nil, hmachine]
  exact ⟨.object 0, [0], .tagged rfl (.bool true), by decide⟩

/-! ### What a display tells -/

/-- Values that unfold to plain data with finite numbers are displayed, in one interaction or in
two. They are displayed alike exactly if the data is the same once a reference to an atom has left
its word to the tag in front of it; so where no tag has a reference to an atom for its payload,
values that are displayed alike are the same data. -/
theorem Interaction.display_eq_iff (as bs : List Action) {v w : Value} {d e : PlainData}
    (hv : ((start .empty).acts .standard as).engine.machine.heap.Unfolds v d)
    (hw : ((start .empty).acts .standard bs).engine.machine.heap.Unfolds w e)
    (hd : d.Finite) (he : e.Finite) :
    let h := ((start .empty).acts .standard as).engine.machine.heap
    let h' := ((start .empty).acts .standard bs).engine.machine.heap
    h.display v = .ok d.text ∧ h'.display w = .ok e.text
      ∧ (h.display v = h'.display w ↔ d.merged = e.merged)
      ∧ (d.Apart → e.Apart → h.display v = h'.display w → d = e) := by
  have hiff : d.text = e.text ↔ d.merged = e.merged :=
    PlainData.text_eq_iff hd (named_of_unfolds hv) he (named_of_unfolds hw)
  simp only [hv.display, hw.display, Except.ok.injEq, true_and]
  refine ⟨hiff, fun hd' he' htext => ?_⟩
  rw [← d.merged_of_apart hd', ← e.merged_of_apart he', hiff.1 htext]

theorem Interaction.display_eq_iff_refBehindTag : ∃ v w,
    ((start .empty).acts .standard [.execute "`A ( ref true )"]).engine.machine.heap.Unfolds v
        .refBehindTag
      ∧ ((start .empty).acts .standard [.execute "`Aref true"]).engine.machine.heap.Unfolds w
        .tagWithRef
      ∧ PlainData.refBehindTag.Finite ∧ PlainData.tagWithRef.Finite
      ∧ PlainData.refBehindTag.merged = PlainData.tagWithRef.merged
      ∧ ((start .empty).acts .standard
          [.execute "`A ( ref true )"]).engine.machine.heap.display v
        = ((start .empty).acts .standard [.execute "`Aref true"]).engine.machine.heap.display w := by
  obtain ⟨v, hv⟩ := unfolds_refBehindTag
  obtain ⟨w, hw⟩ := unfolds_tagWithRef
  obtain ⟨-, -, hiff, -⟩ := display_eq_iff _ _ hv hw trivial trivial
  exact ⟨v, w, hv, hw, trivial, trivial, rfl, hiff.2 rfl⟩

/-- Values of plain data may be displayed alike and differ: a reference to an atom behind a tag is
displayed as the atom behind a longer tag. -/
theorem Interaction.display_ambiguous :
    ¬ ∀ (as bs : List Action) (v w : Value) (d e : PlainData),
      ((start .empty).acts .standard as).engine.machine.heap.Unfolds v d →
      ((start .empty).acts .standard bs).engine.machine.heap.Unfolds w e →
      d.Finite → e.Finite →
      ((start .empty).acts .standard as).engine.machine.heap.display v
        = ((start .empty).acts .standard bs).engine.machine.heap.display w → d = e := by
  intro hall
  obtain ⟨v, hv⟩ := unfolds_refBehindTag
  obtain ⟨w, hw⟩ := unfolds_tagWithRef
  have hdisplay := hall _ _ v w _ _ hv hw trivial trivial (by rw [hv.display, hw.display]; rfl)
  cases hdisplay

end Toplevel
