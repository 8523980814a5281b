import Toplevel.Proofs.Value.Traversal

/-!
# Which values have a text

Objects may lead to each other in any way, and each is written once. A key of a mapping is
different: it is displayed for itself, by a printer that has seen nothing yet, and its own keys by
further ones. So a value has a text just if what comes up, keys and their keys included, holds no
number with too many digits and stays within the bound on keys of keys (`Heap.display_isOk_iff`). A
key that leads back to its own mapping is outside every bound (`Heap.display_of_key_cycle`).
-/

namespace Toplevel

variable {β : Type}

def Value.isString : Value → Bool
  | .string _ => true
  | _ => false

/-- `w` comes up where `v` is displayed, within `n` keys of keys. A text is written as it is where
it is a key. -/
inductive Heap.Meets (h : Heap β) : Value → Nat → Value → Prop
  | part {v w : Value} (hw : h.Leads v w) : Meets h v 0 w
  | key {v u k w : Value} {a n : Nat} {o : Object β} (hu : h.Leads v u)
    (ho : h.composite? u = some (a, o)) (hk : k ∈ o.keys) (hs : k.isString = false)
    (hw : Meets h k n w) : Meets h v (n + 1) w

namespace Display

variable {h : Heap β}

theorem known_keyWithin_isSome (depth : Nat) (k : Value) :
    (Trail.known (keyWithin h depth) k).isSome
      = (k.isString || (addWithin h depth empty k).toOption.isSome) := by
  have hcases : (∃ t, k = .string t) ∨ k.isString = false
      ∧ keyWithin h depth k = (do return (← addWithin h depth empty k).text) := by
    cases k with
    | string t => exact Or.inl ⟨t, rfl⟩
    | _ => exact Or.inr ⟨rfl, rfl⟩
  rcases hcases with ⟨t, rfl⟩ | ⟨hs, hk⟩
  · rfl
  · rw [Trail.known, hk, hs]
    generalize addWithin h depth empty k = r
    rcases r with e | d <;> rfl

theorem addWithin_succ_isSome_iff (depth : Nat) (v : Value) :
    (addWithin h (depth + 1) empty v).toOption.isSome ↔ ∀ w, h.Leads v w →
      w.isTooLong = false ∧ ∀ a o, h.composite? w = some (a, o) →
        ∀ k ∈ o.keys, k.isString = true ∨ (addWithin h depth empty k).toOption.isSome := by
  have hstand := addWithin_stands (h := h) depth .empty .empty v
  have hsome : (Trail.empty.writeAll? h (Trail.known (keyWithin h depth)) [v]).isSome ↔ _ :=
    Trail.writeAll?_isSome_iff [v]
  simp only [Trail.Writable, Value.text?_isSome, known_keyWithin_isSome, Bool.not_eq_true',
    Bool.or_eq_true, List.mem_singleton, forall_eq] at hsome
  rw [← hsome]
  change _ ↔ ((Trail.empty.write? h _ _ v).bind some).isSome
  rw [Option.bind_fun_some]
  generalize (addWithin h (depth + 1) empty v).toOption = r at hstand
  generalize Trail.empty.write? h (Trail.known (keyWithin h depth)) (h.size + 1) v = r' at hstand
  rcases r with _ | d <;> rcases r' with _ | t
  · exact Iff.rfl
  · cases hstand
  · cases hstand
  · exact Iff.rfl

/-- The room for keys of keys is used up one by one. -/
theorem addWithin_isSome_iff (depth : Nat) (v : Value) :
    (addWithin h depth empty v).toOption.isSome
      ↔ ∀ n w, h.Meets v n w → n < depth ∧ w.isTooLong = false := by
  induction depth generalizing v with
  | zero =>
    constructor
    · intro hsome
      cases hsome
    · intro hall
      exact absurd (hall 0 v (.part .refl)).1 (Nat.lt_irrefl 0)
  | succ depth ih =>
    rw [addWithin_succ_isSome_iff]
    constructor
    · intro hall n w hmeets
      cases hmeets with
      | part hw => exact ⟨Nat.succ_pos depth, (hall w hw).1⟩
      | key hu ho hk hs hw =>
        rcases (hall _ hu).2 _ _ ho _ hk with hstr | hsome
        · rw [hs] at hstr
          cases hstr
        · obtain ⟨hn, hlong⟩ := (ih _).1 hsome _ _ hw
          exact ⟨Nat.succ_lt_succ hn, hlong⟩
    · intro hall w hw
      refine ⟨(hall 0 w (.part hw)).2, fun a o ho k hk => ?_⟩
      rcases hs : k.isString
      · refine Or.inr ((ih k).2 fun n x hx => ?_)
        obtain ⟨hn, hlong⟩ := hall (n + 1) x (.key hw ho hk hs hx)
        exact ⟨Nat.lt_of_succ_lt_succ hn, hlong⟩
      · exact Or.inl rfl

end Display

theorem Heap.display_isOk (h : Heap β) (v : Value) :
    (∃ t, h.display v = .ok t)
      ↔ (Display.addWithin h (maxKeyDepth + 1) Display.empty v).toOption.isSome := by
  rw [display, Display.add]
  generalize Display.addWithin h (maxKeyDepth + 1) Display.empty v = r
  rcases r with e | d
  · exact ⟨fun ⟨t, ht⟩ => by (cases ht), fun hsome => by cases hsome⟩
  · exact ⟨fun _ => rfl, fun _ => ⟨d.text, rfl⟩⟩

/-- A value has a text exactly if no number with too many digits comes up where it is displayed, and
no key of keys beyond the bound. -/
theorem Heap.display_isOk_iff (h : Heap β) (v : Value) :
    (∃ t, h.display v = .ok t)
      ↔ ∀ n w, h.Meets v n w → n ≤ maxKeyDepth ∧ w.isTooLong = false := by
  rw [h.display_isOk, Display.addWithin_isSome_iff]
  simp only [Nat.lt_succ_iff]

theorem Heap.Meets.trans {h : Heap β} {v w x : Value} {m n : Nat} (hv : h.Meets v m w)
    (hw : h.Meets w n x) : h.Meets v (m + n) x := by
  induction hv with
  | part hl =>
    rw [Nat.zero_add]
    cases hw with
    | part hl' => exact .part (.trans hl hl')
    | key hu ho hk hs hx => exact .key (.trans hl hu) ho hk hs hx
  | key hu ho hk hs _ ih =>
    rw [Nat.succ_add]
    exact .key hu ho hk hs (ih hw)

/-- A value that comes up in a key of its own has no text. -/
theorem Heap.display_of_key_cycle {h : Heap β} {v : Value} {n : Nat} (hv : h.Meets v (n + 1) v) :
    ∃ e, h.display v = .error e := by
  have hturns : ∀ k, h.Meets v (k * (n + 1)) v := by
    intro k
    induction k with
    | zero =>
      rw [Nat.zero_mul]
      exact .part .refl
    | succ k ih =>
      rw [Nat.succ_mul]
      exact ih.trans hv
  rcases hd : h.display v with e | t
  · exact ⟨e, rfl⟩
  · have hsome := (h.display_isOk v).1 ⟨t, hd⟩
    have hlt := ((Display.addWithin_isSome_iff _ v).1 hsome _ v (hturns (maxKeyDepth + 1))).1
    have hle : maxKeyDepth + 1 ≤ (maxKeyDepth + 1) * (n + 1) :=
      Nat.le_mul_of_pos_right _ (Nat.succ_pos n)
    omega

end Toplevel
