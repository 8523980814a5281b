import Mathlib.Data.List.Nodup
import Mathlib.Data.List.Perm.Subperm
import Toplevel.Proofs.Eval.Link

/-!
# The text of a value does not depend on places

A value is displayed alike by two heaps that correspond (`Heap.display_rename`). The displays go
over corresponding stacks of work, and have seen corresponding objects. The heaps need not be of
one size, and so the budgets need not agree: neither display uses up its own, for each object is
met for the first time once.
-/

namespace Toplevel

open Link

section

variable (place : Nat → Nat)

def Work.rename : Work → Work
  | .text t => .text t
  | .value v => .value (v.rename place)

theorem entriesWork_rename {key key' : Value → Except DisplayError Text}
    (hkey : ∀ v, key' (v.rename place) = key v) (before : Text) (es : List (Value × Value)) :
    entriesWork key' before (es.map (Prod.map (Value.rename place) (Value.rename place)))
      = (entriesWork key before es).map (List.map (Work.rename place)) := by
  induction es generalizing before with
  | nil => rfl
  | cons e es ih =>
    obtain ⟨k, v⟩ := e
    simp only [List.map_cons, Prod.map, entriesWork, ih, hkey]
    rcases entriesWork key "; " es with e | rest
    · rfl
    · rcases key k with e | t <;> rfl

theorem Members.entries_rename (ms : Members) :
    (ms.rename place).entries
      = ms.entries.map (Prod.map (Value.rename place) (Value.rename place)) := by
  simp [entries, rename, Function.comp_def, Value.rename]

theorem itemEntries_rename (items : List Value) :
    itemEntries (items.map (Value.rename place))
      = (itemEntries items).map (Prod.map (Value.rename place) (Value.rename place)) := by
  simp [itemEntries, List.zipIdx_map, Function.comp_def, Value.rename]

/-- Displays that have written the same, and seen corresponding objects. -/
structure Display.Matches (d d' : Display) : Prop where
  pieces : d'.pieces = d.pieces
  seen : ∀ a, d'.seen.contains (place a) = d.seen.contains a

variable {place}

theorem Display.Matches.empty : Display.Matches place Display.empty Display.empty :=
  ⟨rfl, fun a => by simp [Display.empty]⟩

theorem Display.Matches.write {d d' : Display} (h : d.Matches place d') (t : Text) :
    (d.write t).Matches place (d'.write t) :=
  ⟨by rw [Display.write, h.pieces]; rfl, h.seen⟩

theorem Display.Matches.mark {d d' : Display} (h : d.Matches place d')
    (hp : Function.Injective place) (a : Nat) : (d.mark a).Matches place (d'.mark (place a)) where
  pieces := h.pieces
  seen b := by
    have hab : (place a == place b) = (a == b) := by
      rw [Bool.eq_iff_iff, beq_iff_eq, beq_iff_eq, hp.eq_iff]
    simp only [Display.mark, Std.HashSet.contains_insert, hab, h.seen]

end

variable {β γ : Type} {L : Link β γ} {h : Heap β} {h' : Heap γ}

theorem Link.Heaps.size_le (H : L.Heaps h h') : h.size ≤ h'.size := by
  have hnodup := List.nodup_range (n := h.size) |>.map L.injective
  have hsub : (List.range h.size).map L.place ⊆ List.range h'.size := by
    intro b hb
    obtain ⟨a, ha, rfl⟩ := List.mem_map.1 hb
    rw [List.mem_range] at ha ⊢
    rcases H.get?_cases a with ⟨h1, -⟩ | ⟨_, _, -, h2, -⟩
    · rw [Heap.get?_eq_none] at h1
      omega
    · exact Heap.lt_of_get? h2
  have hle := (hnodup.subperm hsub).length_le
  rwa [List.length_map, List.length_range, List.length_range] at hle

theorem Object.work_rename (H : L.Heaps h h') {key key' : Value → Except DisplayError Text}
    (hkey : ∀ v, key' (v.rename L.place) = key v) {o : Object β} {o' : Object γ}
    (ho : L.Objects o o') :
    o'.work h' key' = (o.work h key).map (List.map (Work.rename L.place)) := by
  have hbraced : ∀ es : List (Value × Value),
      Object.work.braced key' (es.map (Prod.map (Value.rename L.place) (Value.rename L.place)))
        = (Object.work.braced key es).map (List.map (Work.rename L.place)) := by
    intro es
    simp only [Object.work.braced, entriesWork_rename L.place hkey]
    rcases entriesWork key [] es with e | rest <;> rfl
  cases ho with
  | tagged tag payload =>
    simp only [Object.work, H.isStructured]
    rfl
  | ref target => rfl
  | closure _ => rfl
  | record fields => simp only [Object.work, Members.entries_rename, hbraced]
  | attributes members => simp only [Object.work, Members.entries_rename, hbraced]
  | list items => simp only [Object.work, itemEntries_rename, hbraced]
  | tuple items => simp only [Object.work, itemEntries_rename, hbraced]
  | mapping entries => exact hbraced entries

/-- How displays stand that have written up to the next new object, having seen `seen` before. -/
inductive Drained (L : Link β γ) (h : Heap β) (seen : Std.HashSet Nat) :
    Except DisplayError (Display × Option (Nat × List Work)) →
      Except DisplayError (Display × Option (Nat × List Work)) → Prop
  | failed (e : DisplayError) : Drained L h seen (.error e) (.error e)
  | finished {d d' : Display} (hd : d.Matches L.place d') :
    Drained L h seen (.ok (d, none)) (.ok (d', none))
  | new {d d' : Display} (hd : d.Matches L.place d') {a : Nat} {o : Object β}
    (ho : h.get? a = some o) (hseen : d.seen = seen) (hnew : seen.contains a = false)
    (rest : List Work) :
    Drained L h seen (.ok (d, some (a, rest)))
      (.ok (d', some (L.place a, rest.map (.rename L.place))))

theorem drain_atom {v : Value} (hv : v.isAtom) (h : Heap β) (d : Display) (stack : List Work) :
    drain h d (.value v :: stack) = (do
      let t ← v.atomText
      drain h (d.write t) stack) := by
  cases v with
  | object a => cases hv
  | _ => rfl

theorem drain_rename (H : L.Heaps h h') (stack : List Work) {d d' : Display}
    (hd : d.Matches L.place d') :
    Drained L h d.seen (drain h d stack) (drain h' d' (stack.map (.rename L.place))) := by
  induction stack generalizing d d' with
  | nil => exact .finished hd
  | cons w stack ih =>
    cases w with
    | text t => exact ih (hd.write t)
    | value v =>
      rw [List.map_cons, Work.rename]
      by_cases hv : v.isAtom
      · rw [Value.rename_of_isAtom L.place hv, drain_atom hv, drain_atom hv]
        rcases v.atomText with e | t
        · exact .failed e
        · exact ih (hd.write t)
      · cases v with
        | object a =>
          have hst := H.isStructured (.object a)
          rw [Value.rename_object] at hst ⊢
          simp only [drain, hst, hd.seen]
          split
          · rename_i hobj
            split
            · exact ih (hd.write _)
            · rename_i hnew
              rcases H.get?_cases a with ⟨h1, -⟩ | ⟨o, o', h1, -, -⟩
              · simp [Heap.isStructured, Heap.object?, h1] at hobj
              · exact .new hd h1 rfl (by simpa using hnew) stack
          · exact ih (hd.write _)
        | _ => exact absurd rfl hv

/-- Neither display comes to the end of its budget: `seen` are the objects met so far, and there are
no more than there are addresses on the left. -/
theorem writeAll_rename (H : L.Heaps h h') {key key' : Value → Except DisplayError Text}
    (hkey : ∀ v, key' (v.rename L.place) = key v) (budget : Nat) {budget' : Nat}
    (hbudget : budget ≤ budget') {d d' : Display} (hd : d.Matches L.place d') (stack : List Work)
    (seen : List Nat) (hnodup : seen.Nodup)
    (hseen : ∀ a ∈ seen, a < h.size ∧ d.seen.contains a)
    (hsize : h.size < budget + seen.length) :
    Except.map Display.text (writeAll h' key' budget' d' (stack.map (.rename L.place)))
      = Except.map Display.text (writeAll h key budget d stack) := by
  induction budget generalizing budget' d d' stack seen with
  | zero =>
    have hsub : seen ⊆ List.range h.size := fun a ha => List.mem_range.2 (hseen a ha).1
    have hle := (hnodup.subperm hsub).length_le
    rw [List.length_range] at hle
    omega
  | succ budget ih =>
    obtain ⟨budget', rfl⟩ : ∃ k, budget' = k + 1 := ⟨budget' - 1, by omega⟩
    have hdrain := drain_rename H stack hd
    simp only [writeAll]
    generalize drain h d stack = r at hdrain
    generalize drain h' d' (stack.map (.rename L.place)) = r' at hdrain
    cases hdrain with
    | failed e => rfl
    | finished hd1 =>
      change Except.ok (Display.text _) = Except.ok (Display.text _)
      rw [Display.text, Display.text, hd1.pieces]
    | @new d1 d1' hd1 a o ho hs hnew rest =>
      obtain ⟨o', ho', hoo⟩ := H.objects a o ho
      have hwork := Object.work_rename H hkey hoo
      simp only [bind, Except.bind, ho, ho', hwork]
      rcases o.work h key with e | work
      · rfl
      · have hnot : a ∉ seen := fun hmem => by
          have hc := (hseen a hmem).2
          rw [hnew] at hc
          cases hc
        change Except.map Display.text (writeAll h' key' budget' (d1'.mark (L.place a))
          (work.map (.rename L.place) ++ rest.map (.rename L.place)))
            = Except.map Display.text (writeAll h key budget (d1.mark a) (work ++ rest))
        rw [← List.map_append]
        refine ih (by omega) (hd1.mark L.injective a) (work ++ rest) (a :: seen)
          (List.nodup_cons.2 ⟨hnot, hnodup⟩) ?_ ?_
        · intro b hb
          rcases List.mem_cons.1 hb with rfl | hb
          · exact ⟨Heap.lt_of_get? ho, by simp [Display.mark]⟩
          · have hc := (hseen b hb).2
            exact ⟨(hseen b hb).1, by simp [Display.mark, hs, hc]⟩
        · rw [List.length_cons]
          omega

theorem Display.addWithin_rename (H : L.Heaps h h') (depth : Nat) (v : Value) :
    Except.map text (addWithin h' depth empty (v.rename L.place))
      = Except.map text (addWithin h depth empty v) := by
  induction depth generalizing v with
  | zero => rfl
  | succ depth ih =>
    have hle := H.size_le
    unfold addWithin
    refine writeAll_rename H (fun w => ?_) (h.size + 1) (by omega) .empty [.value v] []
      List.nodup_nil (by simp) (by simp)
    cases w with
    | string t => rfl
    | _ => exact ih _

/-- Corresponding values have the same text. -/
theorem Heap.display_rename (H : L.Heaps h h') (v : Value) :
    h'.display (v.rename L.place) = h.display v :=
  Display.addWithin_rename H (maxKeyDepth + 1) v

end Toplevel
