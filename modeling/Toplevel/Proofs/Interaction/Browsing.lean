import Mathlib.Data.List.DropRight
import Mathlib.Data.List.Induction
import Toplevel.Interaction.Prompt
import Toplevel.Proofs.Interaction.Account

/-!
# Walking over a history

The cursor counts back from the newest command. A step to an older or a newer command adds or takes
away one and stops at both ends (`History.offset_older`, `History.offset_newer`); the first step
onto a history without a cursor goes to the newest command, whatever its direction. What is known of
a history after any calls follows from these two laws and from what the cursor is bounded by
(`History.calls_browse`).
-/

namespace Toplevel

namespace History

/-- A call of a history. -/
inductive Call where
  | record (command : Text)
  | older
  | newer

namespace Call

def command? : Call → Option Text
  | record command => some command
  | older | newer => none

/-- Whether a call walks over the history. -/
def walks (c : Call) : Bool := c.command?.isNone

end Call

def call (h : History) : Call → History
  | .record command => h.record command
  | .older => h.older
  | .newer => h.newer

def calls (h : History) (cs : List Call) : History := cs.foldl call h

theorem calls_concat (h : History) (cs : List Call) (c : Call) :
    h.calls (cs ++ [c]) = (h.calls cs).call c := by
  simp only [calls, List.foldl_append, List.foldl_cons, List.foldl_nil]

/-- The place of the cursor, counted back from the newest command; without a cursor it is -1. -/
def offset (h : History) : Int :=
  match h.cursor with
  | none => -1
  | some i => i

/-! ### The cursor -/

variable {h h' : History}

theorem ext_offset (hentries : h.entries = h'.entries) (hoffset : h.offset = h'.offset) :
    h = h' := by
  obtain ⟨entries, cursor, hlt⟩ := h
  obtain ⟨entries', cursor', hlt'⟩ := h'
  subst hentries
  congr 1
  rcases cursor with _ | i <;> rcases cursor' with _ | j <;> simp only [offset] at hoffset
  · rfl
  · omega
  · omega
  · rw [Int.ofNat_inj.1 hoffset]

theorem neg_one_le_offset (h : History) : -1 ≤ h.offset := by
  unfold offset
  split <;> omega

theorem offset_lt_length (h : History) : h.offset < h.entries.length := by
  unfold offset
  split
  · omega
  · rename_i i hi
    have hlt := h.cursor_lt i hi
    omega

theorem offset_of_nil (hnil : h.entries = []) : h.offset = -1 := by
  have hge := h.neg_one_le_offset
  have hlt := h.offset_lt_length
  rw [hnil, List.length_nil] at hlt
  omega

theorem offset_select (hne : h.entries ≠ []) (i : Nat) :
    (h.select i).offset = min (i : Int) (h.entries.length - 1) := by
  have hpos := List.length_pos_iff.2 hne
  simp only [offset, select, if_neg hne]
  omega

theorem offset_older (hne : h.entries ≠ []) :
    h.older.offset = min (h.offset + 1) (h.entries.length - 1) := by
  have hpos := List.length_pos_iff.2 hne
  unfold older
  split <;> rename_i hcursor <;> rw [offset_select hne] <;> simp only [offset, hcursor] <;> omega

theorem offset_newer (hne : h.entries ≠ []) : h.newer.offset = max (h.offset - 1) 0 := by
  have hlt := h.offset_lt_length
  have hpos := List.length_pos_iff.2 hne
  unfold newer
  split <;> rename_i hcursor <;> rw [offset_select hne] <;>
    simp only [offset, hcursor] at hlt ⊢ <;> omega

theorem older_of_nil (hnil : h.entries = []) : h.older = h := by
  refine ext_offset h.entries_older ?_
  rw [offset_of_nil hnil, offset_of_nil (h.entries_older.trans hnil)]

theorem newer_of_nil (hnil : h.entries = []) : h.newer = h := by
  refine ext_offset h.entries_newer ?_
  rw [offset_of_nil hnil, offset_of_nil (h.entries_newer.trans hnil)]

/-! ### What is selected -/

theorem selected_of_offset {k : Nat} (hk : h.offset = k) :
    h.selected = h.entries[h.entries.length - 1 - k]? := by
  cases hcursor : h.cursor with
  | none =>
    simp only [offset, hcursor] at hk
    omega
  | some i =>
    simp only [offset, hcursor] at hk
    obtain rfl : i = k := by omega
    simp only [selected, hcursor]
    congr 1
    omega

theorem selected_eq_none_iff : h.selected = none ↔ h.offset = -1 := by
  have hlt := h.offset_lt_length
  constructor
  · intro hnone
    by_contra haway
    obtain ⟨k, hk⟩ := Int.eq_ofNat_of_zero_le (a := h.offset) (by
      have hge := h.neg_one_le_offset
      omega)
    rw [selected_of_offset hk, List.getElem?_eq_none_iff] at hnone
    omega
  · intro haway
    cases hcursor : h.cursor with
    | none => simp only [selected, hcursor]
    | some i =>
      simp only [offset, hcursor] at haway
      omega

theorem offset_olders (hne : h.entries ≠ []) (n : Nat) :
    (older^[n] h).entries = h.entries
      ∧ (older^[n] h).offset = min (h.offset + n) (h.entries.length - 1) := by
  induction n with
  | zero =>
    have hlt := h.offset_lt_length
    refine ⟨rfl, ?_⟩
    rw [Function.iterate_zero, id]
    omega
  | succ n ih =>
    obtain ⟨hentries, hoffset⟩ := ih
    rw [Function.iterate_succ_apply']
    refine ⟨(entries_older _).trans hentries, ?_⟩
    rw [offset_older (by rwa [hentries]), hentries, hoffset]
    omega

theorem record_entries_ne_nil (h : History) (command : Text) : (h.record command).entries ≠ [] := by
  rw [entries_record]
  split
  · rename_i hlast
    rintro hnil
    rw [hnil] at hlast
    cases hlast
  · exact List.append_ne_nil_of_right_ne_nil _ (List.cons_ne_nil _ _)

theorem record_entries_pos (h : History) (command : Text) : 0 < (h.record command).entries.length :=
  List.length_pos_iff.2 (h.record_entries_ne_nil command)

/-- So many steps back from the newest command, or the oldest one. -/
theorem selected_olders_record (h : History) (command : Text) (n : Nat) :
    (older^[n + 1] (h.record command)).selected
      = (h.record command).entries[(h.record command).entries.length - (n + 1)]? := by
  have hne := h.record_entries_ne_nil command
  generalize hg : h.record command = g at hne
  have hpos := List.length_pos_iff.2 hne
  obtain ⟨hentries, hoffset⟩ := offset_olders hne (n + 1)
  have haway : g.offset = -1 := by
    rw [← hg]
    rfl
  have hk : (older^[n + 1] g).offset = (min n (g.entries.length - 1) : Nat) := by
    rw [hoffset, haway]
    omega
  rw [selected_of_offset hk, hentries]
  congr 1
  omega

/-- Between the ends two steps of opposite directions lead back. -/
theorem newer_older (hge : 0 ≤ h.offset) (hlt : h.offset < h.entries.length - 1) :
    h.older.newer = h := by
  have hne : h.entries ≠ [] := by
    intro hnil
    rw [offset_of_nil hnil] at hge
    omega
  have hne' : h.older.entries ≠ [] := by rwa [entries_older]
  refine ext_offset (by rw [entries_newer, entries_older]) ?_
  rw [offset_newer hne', offset_older hne]
  omega

theorem older_newer (hlt : 0 < h.offset) : h.newer.older = h := by
  have hbound := h.offset_lt_length
  have hne : h.entries ≠ [] := by
    intro hnil
    rw [offset_of_nil hnil] at hlt
    omega
  have hne' : h.newer.entries ≠ [] := by rwa [entries_newer]
  refine ext_offset (by rw [entries_older, entries_newer]) ?_
  rw [offset_older hne', offset_newer hne, entries_newer]
  omega

/-- A step onto a history with commands selects one of them. -/
theorem offset_walk_ne (hne : h.entries ≠ []) : h.older.offset ≠ -1 ∧ h.newer.offset ≠ -1 := by
  have hge := h.neg_one_le_offset
  have hpos := List.length_pos_iff.2 hne
  rw [offset_older hne, offset_newer hne]
  constructor <;> omega

/-! ### Keys -/

variable {σ : Type}

/-- What a key does to a history. -/
def walk (h : History) : Arrow → History
  | .up => h.older
  | .down => h.newer

/-- A key shows what the history has selected then. -/
theorem press_eq (key : Arrow) (i : Interaction σ) (b : EditBuffer) :
    i.press key b
      = (b.fill (i.history.walk key).selected, { i with history := i.history.walk key }) := by
  cases key <;> rfl

theorem press_of_nil (key : Arrow) (i : Interaction σ) (b : EditBuffer)
    (hnil : i.history.entries = []) : i.press key b = (b, i) := by
  have hstill : i.history.walk key = i.history := by
    cases key with
    | up => exact older_of_nil hnil
    | down => exact newer_of_nil hnil
  rw [press_eq, hstill, selected_eq_none_iff.2 (offset_of_nil hnil)]
  rfl

theorem press_of_ne_nil (key : Arrow) (i : Interaction σ) (b : EditBuffer)
    (hne : i.history.entries ≠ []) : ∃ text,
      (i.press key b).2.history.selected = some text
        ∧ (i.press key b).1.text = text ∧ (i.press key b).1.cursor = text.length := by
  have hsome : (i.history.walk key).selected ≠ none := by
    rw [ne_eq, selected_eq_none_iff]
    cases key with
    | up => exact (offset_walk_ne hne).1
    | down => exact (offset_walk_ne hne).2
  obtain ⟨text, htext⟩ := Option.ne_none_iff_exists'.1 hsome
  refine ⟨text, ?_⟩
  simp only [press_eq, htext, EditBuffer.fill, and_self]

/-! ### Any calls -/

theorem calls_entries (cs : List Call) :
    (empty.calls cs).entries = (cs.filterMap Call.command?).destutter (· ≠ ·) := by
  induction cs using List.reverseRecOn with
  | nil => rfl
  | append_singleton cs c ih =>
    rw [calls_concat, List.filterMap_append]
    cases c with
    | record command =>
      simp only [call, entries_record, ih, Call.command?, List.filterMap_cons, List.filterMap_nil,
        destutter_concat]
    | older | newer =>
      simp only [call, entries_older, entries_newer, ih, Call.command?, List.filterMap_cons,
        List.filterMap_nil, List.append_nil]

/-- A call that walks onto a history with commands leaves a cursor there. -/
theorem offset_call_walk {c : Call} (hwalks : c.walks = true) :
    (h.call c).offset = -1 ↔ (h.call c).entries = [] := by
  refine ⟨fun haway => ?_, offset_of_nil⟩
  by_contra hne
  cases c with
  | record command => cases hwalks
  | older => exact (offset_walk_ne (h.entries_older ▸ hne)).1 haway
  | newer => exact (offset_walk_ne (h.entries_newer ▸ hne)).2 haway

/-- There is no cursor just if there is nothing to walk over, or if no call has walked since the
last command. -/
theorem calls_offset_eq (cs : List Call) : (empty.calls cs).offset = -1
    ↔ (empty.calls cs).entries = [] ∨ cs.rtakeWhile Call.walks = [] := by
  induction cs using List.reverseRecOn with
  | nil => exact iff_of_true rfl (.inl rfl)
  | append_singleton cs c _ =>
    rw [calls_concat]
    cases hwalks : c.walks with
    | true =>
      have hsome : (cs ++ [c]).rtakeWhile Call.walks ≠ [] := by
        rw [List.rtakeWhile_concat_pos _ _ _ hwalks]
        exact List.append_ne_nil_of_right_ne_nil _ (List.cons_ne_nil _ _)
      rw [or_iff_left hsome, offset_call_walk hwalks]
    | false =>
      cases c with
      | record command =>
        exact iff_of_true rfl (.inr (List.rtakeWhile_concat_neg _ _ _ Bool.false_ne_true))
      | older | newer => cases hwalks

/-- What is known of a history after the calls `cs`. -/
structure Browses (cs : List Call) (h : History) : Prop where
  entries : h.entries = (cs.filterMap Call.command?).destutter (· ≠ ·)
  /-- No command repeats the one before it. -/
  distinct : h.entries.IsChain (· ≠ ·)
  bounds : -1 ≤ h.offset ∧ h.offset ≤ h.entries.length - 1
  away : h.offset = -1 ↔ h.entries = [] ∨ cs.rtakeWhile Call.walks = []
  unselected : h.selected = none ↔ h.offset = -1
  /-- The selected command is looked up in range. -/
  selected : ∀ k : Nat, h.offset = k → ∃ hlt : h.entries.length - 1 - k < h.entries.length,
    k < h.entries.length ∧ h.selected = some h.entries[h.entries.length - 1 - k]
  walked : h.older.entries = h.entries ∧ h.newer.entries = h.entries
  shows : h.entries ≠ [] → h.older.selected ≠ none ∧ h.newer.selected ≠ none
  hides : h.entries = [] → h.older.selected = none ∧ h.newer.selected = none
  /-- Steps back right after a command stop at the oldest one. -/
  back : ∀ command n, (older^[n + 1] (h.record command)).selected
    = some ((h.record command).entries.get ⟨(h.record command).entries.length - (n + 1),
      Nat.sub_lt (h.record_entries_pos command) n.succ_pos⟩)
  undoOlder : 0 ≤ h.offset → h.offset < h.entries.length - 1 → h.older.newer = h
  undoNewer : 0 < h.offset → h.newer.older = h
  /-- A key shows the selected command, with the cursor of the line at its end. -/
  keys : ∀ {σ : Type} (i : Interaction σ) (key : Arrow) (b : EditBuffer), i.history = h →
    (h.entries = [] → i.press key b = (b, i))
      ∧ (h.entries ≠ [] → ∃ text, (i.press key b).2.history.selected = some text
        ∧ (i.press key b).1.text = text ∧ (i.press key b).1.cursor = text.length)

theorem calls_browse (cs : List Call) : Browses cs (empty.calls cs) := by
  generalize hh : empty.calls cs = h
  have hentries : h.entries = _ := hh ▸ calls_entries cs
  have hlt := h.offset_lt_length
  constructor
  case entries => exact hentries
  case distinct =>
    rw [hentries]
    exact List.isChain_destutter _ _
  case bounds => exact ⟨h.neg_one_le_offset, by omega⟩
  case away => exact hh ▸ calls_offset_eq cs
  case unselected => exact selected_eq_none_iff
  case selected =>
    intro k hk
    have hrange : h.entries.length - 1 - k < h.entries.length := by omega
    refine ⟨hrange, by omega, ?_⟩
    rw [selected_of_offset hk, List.getElem?_eq_getElem hrange]
  case walked => exact ⟨h.entries_older, h.entries_newer⟩
  case shows =>
    intro hne
    rw [ne_eq, ne_eq, selected_eq_none_iff, selected_eq_none_iff]
    exact offset_walk_ne hne
  case hides =>
    intro hnil
    rw [older_of_nil hnil, newer_of_nil hnil, selected_eq_none_iff]
    exact ⟨offset_of_nil hnil, offset_of_nil hnil⟩
  case back =>
    intro command n
    rw [selected_olders_record]
    exact List.getElem?_eq_getElem _
  case undoOlder => exact newer_older
  case undoNewer => exact older_newer
  case keys =>
    rintro σ i key b rfl
    refine ⟨press_of_nil key i b, fun hne => ?_⟩
    exact press_of_ne_nil key i b hne

end History

end Toplevel
