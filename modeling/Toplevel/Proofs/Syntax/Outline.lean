import Mathlib.Tactic.SplitIfs
import Toplevel.Proofs.Code.Naming
import Toplevel.Proofs.Host.Token
import Toplevel.Syntax.Outline

/-!
# Lines of an outline

An outline is written with a line for each of its parts. The parts come in the order of their
addresses, a part before the parts below it, and the length of the address is the indentation
(`Outline.isListedBy_lines`). No line is broken, whatever the tokens hold (`Outline.oneLine_lines`).

The lines tell the outline but for its places (`Outline.unplacedAll_eq_of_lines`): what is below a
part are the lines up to the first one that is indented no further than its own.
-/

namespace Toplevel

/-! ### Texts on one line -/

/-- No code point of the text ends a line. -/
def Text.OneLine (t : Text) : Prop := ∀ c ∈ t, c.isLineBreak = false

instance (t : Text) : Decidable t.OneLine :=
  inferInstanceAs (Decidable (∀ c ∈ t, c.isLineBreak = false))

def Text.indentation (depth : Nat) : Text := List.replicate (2 * depth) ' '

namespace CodePoint

theorem isLineBreak_iff {c : CodePoint} : c.isLineBreak = true ↔
    0x0A ≤ c.val ∧ c.val ≤ 0x0D ∨ 0x1C ≤ c.val ∧ c.val ≤ 0x1E ∨ c.val = 0x85
      ∨ c.val = 0x2028 ∨ c.val = 0x2029 := by
  simp [isLineBreak, or_assoc]

theorem isLineBreak_of_isDigit {c : CodePoint} (h : c.isDigit = true) : c.isLineBreak = false := by
  have hval : 0x30 ≤ c.val ∧ c.val ≤ 0x39 := by
    simpa [isDigit, within] using h
  rw [Bool.eq_false_iff, ne_eq, isLineBreak_iff]
  omega

theorem isLineBreak_of_isPrintable {c : CodePoint} (h : c.isPrintable = true) :
    c.isLineBreak = false := by
  have hfar : ∀ n ∈ [0x85, 0x2028, 0x2029],
      unprintableRanges.any (fun r => r.1 ≤ n && n ≤ r.2) = true := by decide +kernel
  rw [Bool.eq_false_iff, ne_eq, isLineBreak_iff]
  unfold isPrintable at h
  split at h
  · have hnear : 0x20 ≤ c.val := of_decide_eq_true h
    omega
  · rw [Bool.not_eq_true'] at h
    have hne : ∀ n ∈ [0x85, 0x2028, 0x2029], c.val ≠ n := by
      rintro n hn rfl
      rw [hfar _ hn] at h
      cases h
    rw [List.forall_mem_cons, List.forall_mem_cons, List.forall_mem_singleton] at hne
    omega

end CodePoint

namespace Text

theorem OneLine.nil : OneLine [] := List.forall_mem_nil _

theorem OneLine.append {s t : Text} (hs : s.OneLine) (ht : t.OneLine) : (s ++ t).OneLine :=
  List.forall_mem_append.2 ⟨hs, ht⟩

theorem OneLine.cons {c : CodePoint} {t : Text} (hc : c.isLineBreak = false) (ht : t.OneLine) :
    OneLine (c :: t) :=
  List.forall_mem_cons.2 ⟨hc, ht⟩

theorem oneLine_concat {ts : List Text} (h : ∀ t ∈ ts, t.OneLine) : (concat ts).OneLine := by
  intro c hc
  obtain ⟨t, ht, hc⟩ := List.mem_flatten.1 hc
  exact h t ht c hc

theorem oneLine_indentation (depth : Nat) : (indentation depth).OneLine := by
  intro c hc
  rw [List.eq_of_mem_replicate hc]
  decide

theorem oneLine_ofNat (n : Nat) : (ofNat n).OneLine :=
  fun c hc => CodePoint.isLineBreak_of_isDigit (allDigits_ofNat n c hc)

theorem oneLine_hex (width n : Nat) : (hex width n).OneLine := by
  have hdigit : ∀ n < 16, (hexDigit n).isLineBreak = false := by decide
  induction width generalizing n with
  | zero => exact .nil
  | succ width ih =>
    exact (ih (n / 16)).append (.cons (hdigit _ (Nat.mod_lt n (by decide))) .nil)

theorem oneLine_numberEscape (c : CodePoint) : c.numberEscape.OneLine := by
  unfold CodePoint.numberEscape
  split_ifs <;> exact .cons (by decide) (.cons (by decide) (oneLine_hex _ _))

theorem oneLine_escapeWithin {quote : CodePoint} (hquote : quote.isQuote = true) (c : CodePoint) :
    (quote.escapeWithin c).OneLine := by
  have hbreak : quote.isLineBreak = false := by
    simp only [CodePoint.isQuote, Bool.or_eq_true, decide_eq_true_eq] at hquote
    rcases hquote with rfl | rfl <;> decide
  unfold CodePoint.escapeWithin
  split_ifs with hitself _ _ _ hprintable
  · simp only [Bool.or_eq_true, decide_eq_true_eq] at hitself
    rcases hitself with rfl | rfl
    · exact .cons (by decide) (.cons hbreak .nil)
    · decide
  · decide
  · decide
  · decide
  · exact .cons (CodePoint.isLineBreak_of_isPrintable hprintable) .nil
  · exact oneLine_numberEscape c

/-- What is quoted is written on one line. -/
theorem oneLine_quoted (t : Text) : t.quoted.OneLine := by
  have hescapes : OneLine (t.flatMap (CodePoint.escapeWithin t.quoteFor)) := by
    intro c hc
    obtain ⟨d, -, hc⟩ := List.mem_flatMap.1 hc
    exact oneLine_escapeWithin t.isQuote_quoteFor d c hc
  have hquote : t.quoteFor.isLineBreak = false := by
    unfold quoteFor
    split <;> decide
  exact .cons hquote (hescapes.append (.cons hquote .nil))

end Text

theorem Position.oneLine_mark (p : Position) : p.mark.OneLine := by
  refine Text.oneLine_concat ?_
  simp only [List.forall_mem_cons]
  exact ⟨by decide, Text.oneLine_ofNat _, by decide, Text.oneLine_ofNat _, List.forall_mem_nil _⟩

/-! ### Lines and labels -/

namespace Text

/-- How far a line is indented. -/
def indent (line : Text) : Nat := (line.takeWhile (· = (' ' : CodePoint))).length

theorem indent_append {c : CodePoint} (hc : c ≠ ' ') (depth : Nat) (t : Text) :
    (indentation depth ++ c :: t).indent = 2 * depth := by
  have hblank : ∀ d ∈ indentation depth, decide (d = (' ' : CodePoint)) = true :=
    fun d hd => decide_eq_true (List.eq_of_mem_replicate hd)
  rw [indent, List.takeWhile_append_of_pos hblank, List.takeWhile_cons_of_neg (by simpa using hc),
    List.append_nil, indentation, List.length_replicate]

/-- A word that calls a token or a phrase in an outline. -/
def IsLabel (label : Text) : Prop :=
  label ≠ [] ∧ (' ' : CodePoint) ∉ label ∧ label.OneLine

instance (t : Text) : Decidable t.IsLabel :=
  inferInstanceAs (Decidable (_ ∧ _ ∧ _))

theorem IsLabel.exists_cons {label : Text} (h : label.IsLabel) :
    ∃ c t, label = c :: t ∧ c ≠ ' ' := by
  obtain ⟨c, t, rfl⟩ := List.exists_cons_of_ne_nil h.1
  exact ⟨c, t, rfl, fun hc => h.2.1 (hc ▸ List.mem_cons_self)⟩

end Text

/-! ### The parts of an outline -/

namespace Outline

variable (positions : Bool)

/-- A line without its indentation. -/
def entry : Outline → Text
  | .token label text position =>
    Text.concat [label, " ", text.quoted, if positions then position.mark else []]
  | .node label position _ => Text.concat [label, if positions then position.mark else []]

def children : Outline → List Outline
  | .token .. => []
  | .node _ _ children => children

/-- The part at an address, which numbers the children on the way. -/
def at? (o : Outline) : List Nat → Option Outline
  | [] => some o
  | i :: address => o.children[i]?.bind fun child => child.at? address

/-- The lines are those of the parts, in the order of their addresses and each indented by twice the
length of its address. -/
def IsListedBy (o : Outline) (lines : List Text) : Prop :=
  ∃ parts : List (List Nat × Outline), (parts.map Prod.fst).Pairwise (· < ·)
    ∧ (∀ address part, (address, part) ∈ parts ↔ o.at? address = some part)
    ∧ lines = parts.map fun e => Text.indentation e.1.length ++ e.2.entry positions

mutual

/-- The parts with their addresses. -/
def parts : Outline → List (List Nat × Outline)
  | .token label text position => [([], .token label text position)]
  | .node label position children =>
    ([], .node label position children) :: partsFrom 0 children

/-- The parts of children that are numbered from `i` on. -/
def partsFrom (i : Nat) : List Outline → List (List Nat × Outline)
  | [] => []
  | o :: os => (o.parts.map fun e => (i :: e.1, e.2)) ++ partsFrom (i + 1) os

end

mutual

theorem mem_parts : ∀ (o : Outline) (address : List Nat) (part : Outline),
    (address, part) ∈ o.parts ↔ o.at? address = some part
  | .token label text position, [], part => by simp [parts, at?, eq_comm]
  | .token label text position, i :: address, part => by simp [parts, at?, children]
  | .node label position children, [], part => by
    simp [parts, at?, mem_partsFrom, eq_comm]
  | .node label position cs, i :: address, part => by
    simp [parts, at?, mem_partsFrom, children]

theorem mem_partsFrom : ∀ (i : Nat) (os : List Outline) (address : List Nat) (part : Outline),
    (address, part) ∈ partsFrom i os
      ↔ ∃ j rest, address = (i + j) :: rest ∧ os[j]?.bind (·.at? rest) = some part
  | i, [], address, part => by simp [partsFrom]
  | i, o :: os, address, part => by
    simp only [partsFrom, List.mem_append, List.mem_map, Prod.mk.injEq, Prod.exists,
      mem_partsFrom (i + 1) os, mem_parts o]
    constructor
    · rintro (⟨rest, _, hpart, rfl, rfl⟩ | ⟨j, rest, rfl, hpart⟩)
      · exact ⟨0, rest, rfl, hpart⟩
      · exact ⟨j + 1, rest, by rw [Nat.add_assoc, Nat.add_comm 1 j], hpart⟩
    · rintro ⟨j, rest, rfl, hpart⟩
      cases j with
      | zero => exact .inl ⟨rest, part, hpart, rfl, rfl⟩
      | succ j => exact .inr ⟨j, rest, by rw [Nat.add_assoc, Nat.add_comm 1 j], hpart⟩

end

mutual

/-- Addresses come in order: a part comes before the parts below it, and these before its later
siblings. -/
theorem pairwise_parts : ∀ o : Outline, (o.parts.map Prod.fst).Pairwise (· < ·)
  | .token .. => List.pairwise_singleton _ _
  | .node _ _ children => by
    simp only [parts, List.map_cons, List.pairwise_cons]
    refine ⟨fun address h => ?_, pairwise_partsFrom 0 children⟩
    obtain ⟨⟨_, part⟩, hpart, rfl⟩ := List.mem_map.1 h
    obtain ⟨j, rest, rfl, -⟩ := (mem_partsFrom _ _ _ _).1 hpart
    exact List.nil_lt_cons _ _

theorem pairwise_partsFrom :
    ∀ (i : Nat) (os : List Outline), ((partsFrom i os).map Prod.fst).Pairwise (· < ·)
  | _, [] => List.Pairwise.nil
  | i, o :: os => by
    simp only [partsFrom, List.map_append, List.map_map, List.pairwise_append]
    refine ⟨?_, pairwise_partsFrom (i + 1) os, ?_⟩
    · have horder := pairwise_parts o
      rw [List.pairwise_map] at horder ⊢
      exact horder.imp fun h => List.cons_lt_cons_iff.2 (.inr ⟨rfl, h⟩)
    · intro address h address' h'
      obtain ⟨⟨_, part⟩, -, rfl⟩ := List.mem_map.1 h
      obtain ⟨⟨_, part'⟩, hpart', rfl⟩ := List.mem_map.1 h'
      obtain ⟨j, rest, rfl, -⟩ := (mem_partsFrom _ _ _ _).1 hpart'
      exact List.cons_lt_cons_iff.2 (.inl (by omega))

end

theorem lines_eq (o : Outline) (depth : Nat) : o.lines positions depth
    = (Text.indentation depth ++ o.entry positions)
      :: linesAll positions (depth + 1) o.children := by
  cases o <;> rfl

mutual

theorem lines_parts : ∀ (o : Outline) (depth : Nat), o.lines positions depth
    = o.parts.map fun e => Text.indentation (depth + e.1.length) ++ e.2.entry positions
  | .token .., _ => rfl
  | .node label position children, depth => by
    rw [lines_eq, parts, List.map_cons]
    exact congrArg _ (linesAll_parts children depth 0)

theorem linesAll_parts : ∀ (os : List Outline) (depth i : Nat), linesAll positions (depth + 1) os
    = (partsFrom i os).map fun e => Text.indentation (depth + e.1.length) ++ e.2.entry positions
  | [], _, _ => rfl
  | o :: os, depth, i => by
    rw [linesAll, lines_parts o, linesAll_parts os depth (i + 1), partsFrom, List.map_append,
      List.map_map]
    refine congrArg (· ++ _) (List.map_congr_left fun e _ => ?_)
    simp only [Function.comp_apply, List.length_cons]
    rw [Nat.add_assoc, Nat.add_comm 1]

end

/-- An outline has a line for each of its parts, in the order of their addresses. -/
theorem isListedBy_lines (o : Outline) : o.IsListedBy positions (o.lines positions 0) := by
  refine ⟨o.parts, pairwise_parts o, mem_parts o, ?_⟩
  rw [lines_parts]
  simp only [Nat.zero_add]

/-! ### Labels -/

mutual

/-- All that is called something is called by a label. -/
def Labeled : Outline → Prop
  | .token label _ _ => label.IsLabel
  | .node label _ children => label.IsLabel ∧ AllLabeled children

def AllLabeled : List Outline → Prop
  | [] => True
  | o :: os => o.Labeled ∧ AllLabeled os

end

theorem allLabeled_append {os os' : List Outline} :
    AllLabeled (os ++ os') ↔ AllLabeled os ∧ AllLabeled os' := by
  induction os with
  | nil => simp [AllLabeled]
  | cons o os ih => simp [AllLabeled, ih, and_assoc]

theorem Labeled.oneLine_entry {o : Outline} (h : o.Labeled) : (o.entry positions).OneLine := by
  have hmark : ∀ p : Position, Text.OneLine (if positions then p.mark else []) := by
    intro p
    split
    · exact p.oneLine_mark
    · exact .nil
  cases o with
  | token label text p =>
    refine Text.oneLine_concat ?_
    simp only [List.forall_mem_cons]
    exact ⟨h.2.2, by decide, text.oneLine_quoted, hmark p, List.forall_mem_nil _⟩
  | node label p cs =>
    refine Text.oneLine_concat ?_
    simp only [List.forall_mem_cons]
    exact ⟨h.1.2.2, hmark p, List.forall_mem_nil _⟩

mutual

/-- No line of an outline is broken. -/
theorem oneLine_lines : ∀ (o : Outline) (depth : Nat), o.Labeled →
    ∀ line ∈ o.lines positions depth, line.OneLine
  | .token .., depth, h => by
    rw [lines_eq, List.forall_mem_cons]
    exact ⟨(Text.oneLine_indentation _).append (h.oneLine_entry positions), List.forall_mem_nil _⟩
  | .node _ _ cs, depth, h => by
    rw [lines_eq, List.forall_mem_cons]
    exact ⟨(Text.oneLine_indentation _).append (h.oneLine_entry positions),
      oneLine_linesAll cs (depth + 1) h.2⟩

theorem oneLine_linesAll : ∀ (os : List Outline) (depth : Nat), AllLabeled os →
    ∀ line ∈ linesAll positions depth os, line.OneLine
  | [], _, _ => List.forall_mem_nil _
  | o :: os, depth, h => by
    rw [linesAll, List.forall_mem_append]
    exact ⟨oneLine_lines o depth h.1, oneLine_linesAll os depth h.2⟩

end

/-! ### Lines tell the outline -/

/-- The first line, if there is one, is not indented as far as at the depth `depth`. -/
def Outdented (depth : Nat) (lines : List Text) : Prop :=
  ∀ line ∈ lines.head?, line.indent < 2 * depth

theorem Outdented.mono {depth : Nat} {lines : List Text} (h : Outdented depth lines) :
    Outdented (depth + 1) lines := by
  intro line hline
  have hlt := h line hline
  omega

mutual

/-- An outline without its places. -/
def unplaced : Outline → Outline
  | .token label text _ => .token label text Position.start
  | .node label _ children => .node label Position.start (unplacedAll children)

def unplacedAll : List Outline → List Outline
  | [] => []
  | o :: os => o.unplaced :: unplacedAll os

end

theorem entry_token (label text : Text) (p : Position) :
    (token label text p).entry false = label ++ (' ' : CodePoint) :: text.quoted := by
  simp [entry, Text.concat, Text.ofString, Text.ofChars]

theorem entry_node (label : Text) (p : Position) (cs : List Outline) :
    (node label p cs).entry false = label := by
  simp [entry, Text.concat]

theorem Labeled.indent_line {o : Outline} (h : o.Labeled) (depth : Nat) :
    (Text.indentation depth ++ o.entry false).indent = 2 * depth := by
  cases o with
  | token label text p =>
    obtain ⟨c, t, rfl, hc⟩ := Text.IsLabel.exists_cons h
    rw [entry_token]
    exact Text.indent_append hc depth _
  | node label p cs =>
    obtain ⟨c, t, rfl, hc⟩ := h.1.exists_cons
    rw [entry_node]
    exact Text.indent_append hc depth _

/-- The lines of an outline stand out from what is below the parts in front of it. -/
theorem outdented_linesAll {os : List Outline} {depth : Nat} {rest : List Text}
    (h : AllLabeled os) (hrest : Outdented depth rest) :
    Outdented (depth + 1) (linesAll false depth os ++ rest) := by
  cases os with
  | nil => exact hrest.mono
  | cons o os =>
    intro line hline
    rw [linesAll, lines_eq, List.cons_append, List.cons_append] at hline
    cases hline
    rw [h.1.indent_line]
    omega

/-- No line of an outline stands as far out as what is behind it. -/
theorem linesAll_cons_ne {o : Outline} {os : List Outline} {depth : Nat} {rest rest' : List Text}
    (h : o.Labeled) (hrest : Outdented depth rest) :
    rest ≠ linesAll false depth (o :: os) ++ rest' := by
  rintro rfl
  have hlt := hrest _ (by rw [linesAll, lines_eq]; rfl)
  rw [h.indent_line] at hlt
  omega

/-- The first line of an outline is told apart from the others. -/
theorem entry_eq_of_lines {o o' : Outline} {depth : Nat} {rest rest' : List Text}
    (h : o.lines false depth ++ rest = o'.lines false depth ++ rest') :
    o.entry false = o'.entry false
      ∧ linesAll false (depth + 1) o.children ++ rest
        = linesAll false (depth + 1) o'.children ++ rest' := by
  rw [lines_eq, lines_eq, List.cons_append, List.cons_append, List.cons.injEq] at h
  exact ⟨List.append_cancel_left h.1, h.2⟩

/-- A token has a blank in its line, and a phrase has none. -/
theorem token_entry_ne {label text label' : Text} (h : label'.IsLabel) (p p' : Position)
    (cs : List Outline) : (token label text p).entry false ≠ (node label' p' cs).entry false := by
  rw [entry_token, entry_node]
  rintro rfl
  exact h.2.1 (List.mem_append_right _ List.mem_cons_self)

mutual

theorem unplaced_eq_of_lines : ∀ (o o' : Outline) (depth : Nat) (rest rest' : List Text),
    o.Labeled → o'.Labeled → Outdented (depth + 1) rest → Outdented (depth + 1) rest' →
    o.lines false depth ++ rest = o'.lines false depth ++ rest' →
    o.unplaced = o'.unplaced ∧ rest = rest'
  | .token label text p, .token label' text' p', depth, rest, rest', h, h', _, _, heq => by
    obtain ⟨hentry, hrests⟩ := entry_eq_of_lines heq
    -- The label ends at the first blank, and what is quoted may hold further ones.
    have hcut := congrArg (Text.cut ' ') hentry
    rw [entry_token, entry_token, Text.cut_append h.2.1, Text.cut_append h'.2.1] at hcut
    simp only [Prod.mk.injEq, Option.some.injEq] at hcut
    rw [unplaced, unplaced, hcut.1, Text.quoted_injective hcut.2]
    exact ⟨rfl, hrests⟩
  | .token .., .node .., _, _, _, _, h', _, _, heq =>
    absurd (entry_eq_of_lines heq).1 (token_entry_ne h'.1 _ _ _)
  | .node .., .token .., _, _, _, h, _, _, _, heq =>
    absurd (entry_eq_of_lines heq).1.symm (token_entry_ne h.1 _ _ _)
  | .node label p cs, .node label' p' cs', depth, rest, rest', h, h', hrest, hrest', heq => by
    obtain ⟨hentry, hbelow⟩ := entry_eq_of_lines heq
    rw [entry_node, entry_node] at hentry
    obtain ⟨hchildren, hrests⟩ :=
      unplacedAll_eq_of_lines cs cs' (depth + 1) rest rest' h.2 h'.2 hrest hrest' hbelow
    rw [unplaced, unplaced, hentry, hchildren]
    exact ⟨rfl, hrests⟩

/-- Outlines with the same lines are the same but for their places, and so is what is behind them
if it is not indented as far. -/
theorem unplacedAll_eq_of_lines : ∀ (os os' : List Outline) (depth : Nat) (rest rest' : List Text),
    AllLabeled os → AllLabeled os' → Outdented depth rest → Outdented depth rest' →
    linesAll false depth os ++ rest = linesAll false depth os' ++ rest' →
    unplacedAll os = unplacedAll os' ∧ rest = rest'
  | [], [], _, _, _, _, _, _, _, heq => ⟨rfl, heq⟩
  | [], _ :: _, _, _, _, _, h', hrest, _, heq => absurd heq (linesAll_cons_ne h'.1 hrest)
  | _ :: _, [], _, _, _, h, _, _, hrest', heq => absurd heq.symm (linesAll_cons_ne h.1 hrest')
  | o :: os, o' :: os', depth, rest, rest', h, h', hrest, hrest', heq => by
    rw [linesAll, linesAll, List.append_assoc, List.append_assoc] at heq
    obtain ⟨hfirst, heq⟩ := unplaced_eq_of_lines o o' depth _ _ h.1 h'.1
      (outdented_linesAll h.2 hrest) (outdented_linesAll h'.2 hrest') heq
    obtain ⟨hothers, hrests⟩ :=
      unplacedAll_eq_of_lines os os' depth rest rest' h.2 h'.2 hrest hrest' heq
    rw [unplacedAll, unplacedAll, hfirst, hothers]
    exact ⟨rfl, hrests⟩

end

mutual

/-- Places are not written unless they are asked for. -/
theorem lines_unplaced : ∀ (o : Outline) (depth : Nat),
    o.unplaced.lines false depth = o.lines false depth
  | .token .., _ => rfl
  | .node _ _ children, depth => congrArg (_ :: ·) (linesAll_unplacedAll children (depth + 1))

theorem linesAll_unplacedAll : ∀ (os : List Outline) (depth : Nat),
    linesAll false depth (unplacedAll os) = linesAll false depth os
  | [], _ => rfl
  | o :: os, depth => by
    rw [unplacedAll, linesAll, linesAll, lines_unplaced o, linesAll_unplacedAll os]

end

end Outline

end Toplevel
