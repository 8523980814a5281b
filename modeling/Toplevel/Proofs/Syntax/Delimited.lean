import Toplevel.Code.Compile
import Toplevel.Proofs.Host.Token
import Toplevel.Proofs.Syntax.Reading
import Toplevel.Proofs.Value.Ambiguity

/-!
# Where string literals end

In a source, a string literal is the shortest piece that goes from a quote to a quote with an even
run of backslashes before it, all on one line (`Lexeme.string?_eq_some_iff`). A displayed string is
such a piece, whatever is put behind it, and so is the literal that a string has in code
(`Text.literals_delimited`).
-/

namespace Toplevel

namespace Lexeme

def slashes (n : Nat) : Text := List.replicate n ('\\' : CodePoint)

/-- The pattern of a string literal: between its quotes there is a piece of one line that does not
end in a backslash, and behind it any number of pairs of backslashes. -/
def IsLiteral (w : Text) : Prop :=
  ∃ (piece : Text) (pairs : Nat), w = Text.between '"' (piece ++ slashes (2 * pairs))
    ∧ ('\n' : CodePoint) ∉ piece ∧ piece.getLast? ≠ some ('\\' : CodePoint)

/-- A literal at the front of a source, and no shorter piece of the source is one. -/
structure IsFirstLiteral (w s : Text) : Prop where
  front : w <+: s
  literal : IsLiteral w
  first : ∀ w', w' <+: s → IsLiteral w' → w.length ≤ w'.length

/-! ### What backslashes escape -/

/-- Whether what follows a text is escaped, if the text itself begins so. -/
def escapes (escaped : Bool) (t : Text) : Bool :=
  t.foldl (fun escaped c => !escaped && decide (c = ('\\' : CodePoint))) escaped

theorem escapes_cons (escaped : Bool) (c : CodePoint) (t : Text) :
    escapes escaped (c :: t) = escapes (!escaped && decide (c = ('\\' : CodePoint))) t :=
  rfl

theorem escapes_append (escaped : Bool) (s t : Text) :
    escapes escaped (s ++ t) = escapes (escapes escaped s) t :=
  List.foldl_append

theorem escapes_slashes (escaped : Bool) (n : Nat) :
    escapes escaped (slashes n) = (escaped ^^ decide (n % 2 = 1)) := by
  induction n generalizing escaped with
  | zero => simp [slashes, escapes]
  | succ n ih =>
    have hn : slashes (n + 1) = ('\\' : CodePoint) :: slashes n := List.replicate_succ
    rw [hn, escapes_cons, ih]
    rcases Nat.mod_two_eq_zero_or_one n with hn | hn <;> cases escaped <;> simp [hn, Nat.add_mod]

/-- Behind anything but a backslash nothing is escaped. -/
theorem escapes_of_getLast? {t : Text} (h : t.getLast? ≠ some ('\\' : CodePoint)) :
    escapes false t = false := by
  rcases List.eq_nil_or_concat t with rfl | ⟨s, c, rfl⟩
  · rfl
  · rw [List.concat_eq_append, List.getLast?_concat, ne_eq, Option.some.injEq] at h
    rw [List.concat_eq_append, escapes_append, escapes_cons, decide_eq_false h, Bool.and_false]
    rfl

theorem exists_slashes (t : Text) :
    ∃ (piece : Text) (n : Nat), t = piece ++ slashes n
      ∧ piece.getLast? ≠ some ('\\' : CodePoint) := by
  induction t using List.reverseRecOn with
  | nil => exact ⟨[], 0, rfl, nofun⟩
  | append_singleton s c ih =>
    by_cases hc : c = '\\'
    · obtain ⟨piece, n, rfl, hpiece⟩ := ih
      refine ⟨piece, n + 1, ?_, hpiece⟩
      rw [List.append_assoc, hc, slashes, slashes, ← List.replicate_succ']
    · exact ⟨s ++ [c], 0, (List.append_nil _).symm, by simpa using hc⟩

/-- In other words, the quote at the end is not escaped by what is before it. -/
theorem isLiteral_iff {w : Text} : IsLiteral w ↔
    ∃ t, w = Text.between '"' t ∧ ('\n' : CodePoint) ∉ t ∧ escapes false t = false := by
  constructor
  · rintro ⟨piece, pairs, rfl, hline, hlast⟩
    refine ⟨_, rfl, ?_, ?_⟩
    · have hslashes : ('\n' : CodePoint) ∉ slashes (2 * pairs) :=
        fun h => absurd (List.eq_of_mem_replicate h) (by decide)
      simp [hline, hslashes]
    · rw [escapes_append, escapes_of_getLast? hlast, escapes_slashes]
      simp
  · rintro ⟨t, rfl, hline, ht⟩
    obtain ⟨piece, n, rfl, hlast⟩ := exists_slashes t
    rw [escapes_append, escapes_of_getLast? hlast, escapes_slashes, Bool.false_xor,
      decide_eq_false_iff_not] at ht
    have hn : n = 2 * (n / 2) := by omega
    exact ⟨piece, n / 2, by rw [← hn], fun h => hline (List.mem_append_left _ h), hlast⟩

/-! ### The literal at the front of a source -/

/-- Behind the quote that opens it, a literal ends at the first quote that is not escaped. -/
theorem stringRest?_first {s w u : Text} (h : stringRest? s = some (w, u)) :
    ∃ t, w = t ++ [('"' : CodePoint)] ∧ ('\n' : CodePoint) ∉ t ∧ escapes false t = false
      ∧ ∀ t', t' ++ [('"' : CodePoint)] <+: s → escapes false t' = false →
        t.length ≤ t'.length := by
  fun_induction stringRest? s generalizing w with
  | case2 =>
    cases h
    exact ⟨[], rfl, List.not_mem_nil, rfl, fun t' _ _ => Nat.zero_le _⟩
  | case6 d s hd _ _ ih =>
    obtain ⟨⟨w, u⟩, hw, hpair⟩ := Option.map_eq_some_iff.1 h
    cases hpair
    obtain ⟨t, rfl, hline, ht, hfirst⟩ := ih hw
    refine ⟨'\\' :: d :: t, rfl, ?_, by rw [escapes_cons, escapes_cons]; exact ht, ?_⟩
    · simp only [List.mem_cons, not_or]
      exact ⟨by decide, Ne.symm hd, hline⟩
    · intro t' hfront ht'
      rcases t' with _ | ⟨c, _ | ⟨d', t'⟩⟩
      · exact absurd (List.cons_prefix_cons.1 hfront).1 (by decide)
      -- a quote right behind the backslash is escaped
      · rw [(List.cons_prefix_cons.1 hfront).1] at ht'
        cases ht'
      · obtain ⟨rfl, hfront'⟩ := List.cons_prefix_cons.1 hfront
        have hle := hfirst t' (List.cons_prefix_cons.1 hfront').2 ht'
        simp only [List.length_cons]
        omega
  | case7 c s hquote hline hslash ih =>
    obtain ⟨⟨w, u⟩, hw, hpair⟩ := Option.map_eq_some_iff.1 h
    cases hpair
    obtain ⟨t, rfl, hline', ht, hfirst⟩ := ih hw
    refine ⟨c :: t, rfl, ?_, by rw [escapes_cons, decide_eq_false hslash]; exact ht, ?_⟩
    · simp only [List.mem_cons, not_or]
      exact ⟨Ne.symm hline, hline'⟩
    · intro t' hfront ht'
      cases t' with
      | nil => exact absurd (List.cons_prefix_cons.1 hfront).1.symm hquote
      | cons c' t' =>
        obtain ⟨rfl, hfront'⟩ := List.cons_prefix_cons.1 hfront
        rw [escapes_cons, decide_eq_false hslash] at ht'
        exact Nat.succ_le_succ (hfirst t' hfront' ht')
  | _ => cases h

theorem stringRest?_ne_none : ∀ {t : Text}, ('\n' : CodePoint) ∉ t → escapes false t = false →
    ∀ u, stringRest? (t ++ ('"' : CodePoint) :: u) ≠ none
  | [], _, _, u => by
    rw [List.nil_append, stringRest?_cons, if_pos rfl]
    exact nofun
  | c :: t, hline, ht, u => by
    simp only [List.mem_cons, not_or] at hline
    rw [List.cons_append, stringRest?_cons, if_neg (Ne.symm hline.1)]
    split_ifs with hquote hslash
    · exact nofun
    · match t, hline.2, ht with
      | [], _, ht =>
        rw [hslash] at ht
        cases ht
      | d :: t, hline, ht =>
        simp only [List.mem_cons, not_or] at hline
        rw [hslash, escapes_cons, escapes_cons] at ht
        simp only [List.cons_append, if_neg (Ne.symm hline.1), ne_eq, Option.map_eq_none_iff]
        exact stringRest?_ne_none hline.2 ht u
    · rw [escapes_cons, decide_eq_false hslash] at ht
      rw [ne_eq, Option.map_eq_none_iff]
      exact stringRest?_ne_none hline.2 ht u

/-- The token of a string is the first literal at the front of the source. -/
theorem string?_eq_some_iff {s w u : Text} :
    string? s = some (w, u) ↔ w ++ u = s ∧ IsFirstLiteral w s := by
  have isFirst : ∀ {w u : Text}, string? s = some (w, u) → IsFirstLiteral w s := by
    intro w u h
    match s, h with
    | c :: s, h =>
      rw [string?] at h
      split at h
      case isFalse => cases h
      case isTrue hc =>
        obtain ⟨⟨v, u⟩, hv, hpair⟩ := Option.map_eq_some_iff.1 h
        cases hpair
        have hsplit := (stringRest?_append hv).1.2
        obtain ⟨t, rfl, hline, ht, hfirst⟩ := stringRest?_first hv
        refine ⟨⟨u, congrArg (c :: ·) hsplit⟩, isLiteral_iff.2 ⟨t, by rw [hc]; rfl, hline, ht⟩, ?_⟩
        intro w' hfront hw'
        obtain ⟨t', rfl, -, ht'⟩ := isLiteral_iff.1 hw'
        have hle := hfirst t' (List.cons_prefix_cons.1 hfront).2 ht'
        simp only [Text.between, List.length_cons, List.length_append, List.length_nil]
        omega
  constructor
  · intro h
    exact ⟨(string?_eq_some h).1.2, isFirst h⟩
  · rintro ⟨rfl, hw⟩
    obtain ⟨t, rfl, hline, ht⟩ := isLiteral_iff.1 hw.literal
    have hrest := stringRest?_ne_none hline ht u
    obtain ⟨⟨v, u'⟩, hv⟩ := Option.ne_none_iff_exists'.1 hrest
    have hstring : string? (Text.between '"' t ++ u) = some (('"' : CodePoint) :: v, u') := by
      simp only [Text.between, List.cons_append, List.append_assoc, List.nil_append, string?,
        if_pos, hv, Option.map_some]
      rfl
    -- Neither of the two literals is longer than the other, and both are at the front.
    have hfirst := isFirst hstring
    have hlength : (('"' : CodePoint) :: v).length = (Text.between '"' t).length :=
      Nat.le_antisymm (hfirst.first _ hw.front hw.literal) (hw.first _ hfirst.front hfirst.literal)
    have hw' : ('"' : CodePoint) :: v = Text.between '"' t :=
      (List.prefix_of_prefix_length_le hfirst.front hw.front hlength.le).eq_of_length hlength
    have hsplit := (string?_eq_some hstring).1.2
    simp only [hw'] at hsplit hstring
    rw [hstring, List.append_cancel_left hsplit]

end Lexeme

/-! ### Displayed strings and strings in code -/

theorem Heap.display_string {β : Type} (h : Heap β) (s : Text) :
    h.display (.string s) = .ok s.jsonQuoted :=
  congrArg Except.ok (List.append_nil s.jsonQuoted)

theorem Cursor.token?_jsonQuoted {admitted : Terminal → Bool} (h : admitted .string = true)
    {c : Cursor} {s rest : Text} (hc : c.rest = s.jsonQuoted ++ rest) :
    c.token? admitted = some (⟨.string, s.jsonQuoted, c.offset, c.position⟩,
      c.after (s.jsonQuoted, rest)) := by
  have hstring : Lexeme.string? c.rest = some (s.jsonQuoted, rest) := by
    rw [hc, Text.string?_jsonQuoted_append]
  refine Cursor.token?_of_first h hstring fun t ht _ => ?_
  have hstart : t.canStart '"' = false := by
    rw [Bool.eq_false_iff]
    intro hstart
    rw [Terminal.canStart_quote hstart] at ht
    exact Nat.lt_irrefl _ ht
  exact Terminal.lexeme?_eq_none (by rw [hc]; rfl) hstart

end Toplevel
