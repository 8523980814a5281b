import Toplevel.Syntax.Lexeme

/-!
# What lexemes have in common

A lexeme is a piece at the front of a text (`Terminal.lexeme?_splits`) whose first code point tells
much of its kind (`Terminal.lexeme?_eq_some`). White space, a semicolon or a parenthesis that opens
ends it: with one of them behind it, a text starts with the same lexemes as without
(`Terminal.lexeme?_append`).
-/

namespace Toplevel

/-! ### Texts that break off -/

/-- What stands between tokens that are set apart: it is part of no token but of itself and of
strings. -/
def CodePoint.isBreak (c : CodePoint) : Bool :=
  c.isSpace || c = (';' : CodePoint) || c = ('(' : CodePoint)

theorem CodePoint.isBreak_iff {c : CodePoint} :
    c.isBreak = true ↔ c.isSpace = true ∨ c = ';' ∨ c = '(' := by
  rw [isBreak, Bool.or_eq_true, Bool.or_eq_true, decide_eq_true_eq, decide_eq_true_eq, or_assoc]

/-- A text that ends any token right before it. -/
def Text.Breaks (u : Text) : Prop := ∀ c ∈ u.head?, c.isBreak = true

/-- A text that does not start with a code point of some kind. -/
def Text.Avoids (p : CodePoint → Bool) (u : Text) : Prop := ∀ c ∈ u.head?, p c = false

/-- A property of the code points inside tokens. -/
def CodePoint.Joins (p : CodePoint → Bool) : Prop := ∀ c, c.isBreak = true → p c = false

namespace CodePoint

/-- White space lies apart from the code points of ASCII that can be seen. -/
theorem isSpace_val {c : CodePoint} (h : c.isSpace = true) : c.val ≤ 32 ∨ 127 ≤ c.val := by
  simp only [isSpace, Bool.or_eq_true, Bool.and_eq_true, decide_eq_true_eq, beq_iff_eq] at h
  omega

theorem joins_of {p : CodePoint → Bool} (hseen : ∀ c, p c = true → 32 < c.val ∧ c.val < 127)
    (hmarks : p ';' = false ∧ p '(' = false) : Joins p := by
  intro c hc
  rcases isBreak_iff.1 hc with hc | rfl | rfl
  · have hval := isSpace_val hc
    rw [Bool.eq_false_iff]
    intro hp
    have hseen := hseen c hp
    omega
  · exact hmarks.1
  · exact hmarks.2

theorem isDigit_val {c : CodePoint} (h : c.isDigit = true) : 32 < c.val ∧ c.val < 127 := by
  have hcodes : '0'.toNat = 48 ∧ '9'.toNat = 57 := by decide
  simp only [isDigit, within, Bool.and_eq_true, decide_eq_true_eq] at h
  omega

theorem isWord_val {c : CodePoint} (h : c.isWord = true) : 32 < c.val ∧ c.val < 127 := by
  have hcodes : 'a'.toNat = 97 ∧ 'z'.toNat = 122 ∧ 'A'.toNat = 65 ∧ 'Z'.toNat = 90
      ∧ '_'.toNat = 95 := by decide
  rw [isWord, Bool.or_eq_true, Bool.or_eq_true, Bool.or_eq_true, beq_iff_eq] at h
  rcases h with ((h | h) | h) | h
  · simp only [isLower, within, Bool.and_eq_true, decide_eq_true_eq] at h
    omega
  · simp only [isUpper, within, Bool.and_eq_true, decide_eq_true_eq] at h
    omega
  · exact isDigit_val h
  · omega

theorem joins_isWord : Joins isWord := joins_of (fun _ => isWord_val) (by decide)

theorem joins_eq {d : CodePoint} (hd : d.isBreak = false) : Joins fun c => decide (c = d) := by
  intro c hc
  refine decide_eq_false ?_
  rintro rfl
  rw [hd] at hc
  cases hc

end CodePoint

namespace Text

variable {u : Text}

namespace Avoids

variable {p : CodePoint → Bool}

theorem nil : Avoids p [] := fun _ h => by cases h

theorem cons {c : CodePoint} {t : Text} (hc : p c = false) : Avoids p (c :: t) := by
  intro d hd
  cases hd
  exact hc

theorem mono {p' : CodePoint → Bool} (h : ∀ c, p' c = true → p c = true) (hu : u.Avoids p) :
    u.Avoids p' := by
  intro c hc
  rw [Bool.eq_false_iff]
  intro hp'
  cases (h c hp').symm.trans (hu c hc)

theorem ne {c d : CodePoint} (hu : u.Avoids p) (hc : c ∈ u.head?) (hd : p d = true) : c ≠ d := by
  rintro rfl
  rw [hu c hc] at hd
  cases hd

theorem takeWhile_append (hu : u.Avoids p) (s : Text) :
    (s ++ u).takeWhile p = s.takeWhile p := by
  induction s with
  | nil =>
    cases u with
    | nil => rfl
    | cons c t =>
      rw [List.nil_append, List.takeWhile_cons, hu c rfl]
      rfl
  | cons c s ih => rw [List.cons_append, List.takeWhile_cons, List.takeWhile_cons, ih]

theorem dropWhile_append (hu : u.Avoids p) (s : Text) :
    (s ++ u).dropWhile p = s.dropWhile p ++ u := by
  induction s with
  | nil =>
    cases u with
    | nil => rfl
    | cons c t =>
      rw [List.nil_append, List.dropWhile_cons, hu c rfl]
      rfl
  | cons c s ih =>
    rw [List.cons_append, List.dropWhile_cons, List.dropWhile_cons, ih]
    split <;> rfl

theorem any_head?_append (hu : u.Avoids p) (s : Text) :
    (s ++ u).head?.any p = s.head?.any p := by
  cases s with
  | nil =>
    cases u with
    | nil => rfl
    | cons c t => exact hu c rfl
  | cons c s => rfl

theorem head?_append_beq (hu : u.Avoids p) {d : CodePoint} (hd : p d = true) (s : Text) :
    ((s ++ u).head? == some d) = (s.head? == some d) := by
  cases s with
  | nil =>
    cases u with
    | nil => rfl
    | cons c t => exact beq_eq_false_iff_ne.2 fun h => hu.ne rfl hd (Option.some.inj h)
  | cons c s => rfl

end Avoids

namespace Breaks

open CodePoint

theorem nil : Breaks [] := fun _ h => by cases h

theorem cons {c : CodePoint} {t : Text} (hc : c.isBreak = true) : Breaks (c :: t) := by
  intro d hd
  cases hd
  exact hc

theorem avoids (hu : u.Breaks) {p : CodePoint → Bool} (hp : Joins p) : u.Avoids p :=
  fun c hc => hp c (hu c hc)

theorem isPrefixOf_append (hu : Breaks u) {w : Text} (hw : ∀ c ∈ w, c.isBreak = false)
    (s : Text) : w.isPrefixOf (s ++ u) = w.isPrefixOf s := by
  induction w generalizing s with
  | nil => rw [List.isPrefixOf_nil_left, List.isPrefixOf_nil_left]
  | cons a w ih =>
    cases s with
    | nil =>
      cases u with
      | nil => rfl
      | cons c t =>
        have hne : c ≠ a := of_decide_eq_false (joins_eq (hw a List.mem_cons_self) c (hu c rfl))
        rw [List.nil_append, List.isPrefixOf_cons_cons, beq_eq_false_iff_ne.2 hne.symm]
        rfl
    | cons c s =>
      rw [List.cons_append, List.isPrefixOf_cons_cons, List.isPrefixOf_cons_cons,
        ih fun d hd => hw d (List.mem_cons_of_mem _ hd)]

end Breaks

end Text

/-! ### The kinds of lexemes -/

namespace Lexeme

/-- A piece that is not empty, and the rest. -/
def Splits (x : Lexeme) (s : Text) : Prop := x.1 ≠ [] ∧ x.1 ++ x.2 = s

/-- A lexeme with more text behind what follows it. -/
def before (u : Text) (x : Lexeme) : Lexeme := (x.1, x.2 ++ u)

theorem Splits.prepend {x : Lexeme} {s : Text} (h : Splits x s) (cs : Text) :
    Splits (prepend cs x) (cs ++ s) :=
  ⟨List.append_ne_nil_of_right_ne_nil cs h.1, by rw [Lexeme.prepend, List.append_assoc, h.2]⟩

theorem Splits.length_lt {x : Lexeme} {s : Text} (h : Splits x s) : x.2.length < s.length := by
  have hpos := List.length_pos_iff.2 h.1
  rw [← h.2, List.length_append]
  omega

theorem Splits.ne_nil {x : Lexeme} {s : Text} (h : Splits x s) : s ≠ [] := by
  rw [← h.2]
  exact List.append_ne_nil_of_left_ne_nil h.1 _

variable {s u : Text} {x : Lexeme}

/-! #### Words and tags -/

theorem word?_splits (h : word? s = some x) : Splits x s := by
  cases s with
  | nil => cases h
  | cons c t =>
    rw [word?] at h
    split at h
    · cases h
      exact ⟨List.cons_ne_nil _ _, by rw [List.cons_append, List.takeWhile_append_dropWhile]⟩
    · cases h

theorem word?_head (h : word? s = some x) :
    s.head?.any (fun c => c.isLower || c = ('_' : CodePoint)) = true := by
  cases s with
  | nil => cases h
  | cons c t =>
    rw [word?] at h
    split at h
    · assumption
    · cases h

theorem word?_append (hs : s ≠ []) (hu : u.Avoids CodePoint.isWord) :
    word? (s ++ u) = (word? s).map (before u) := by
  cases s with
  | nil => exact absurd rfl hs
  | cons c t =>
    rw [List.cons_append, word?, word?, hu.takeWhile_append, hu.dropWhile_append]
    split <;> rfl

theorem tag?_splits (h : tag? s = some x) : Splits x s := by
  cases s with
  | nil => cases h
  | cons c t =>
    rw [tag?] at h
    split at h
    · cases h
      exact ⟨List.cons_ne_nil _ _, by rw [List.cons_append, List.takeWhile_append_dropWhile]⟩
    · cases h

theorem tag?_head (h : tag? s = some x) :
    s.head?.any (fun c => c = ('`' : CodePoint)) = true := by
  cases s with
  | nil => cases h
  | cons c t =>
    rw [tag?] at h
    split at h
    · rename_i hc
      exact (Bool.and_eq_true_iff.1 hc).1
    · cases h

theorem tag?_append (hs : s ≠ []) (hu : u.Avoids CodePoint.isWord) :
    tag? (s ++ u) = (tag? s).map (before u) := by
  cases s with
  | nil => exact absurd rfl hs
  | cons c t =>
    rw [List.cons_append, tag?, tag?, hu.takeWhile_append, hu.dropWhile_append,
      hu.any_head?_append]
    split <;> rfl

/-! #### Operators and marks -/

theorem oneOf?_eq_some {ws : List Text} (h : oneOf? ws s = some x) :
    x.1 ∈ ws ∧ x.1 ++ x.2 = s := by
  obtain ⟨w, hw, h⟩ := List.exists_of_findSome?_eq_some h
  split at h
  · rename_i hprefix
    cases h
    exact ⟨hw, List.prefix_iff_eq_append.1 (List.isPrefixOf_iff_prefix.1 hprefix)⟩
  · cases h

theorem oneOf?_cons (w : Text) (ws : List Text) (s : Text) : oneOf? (w :: ws) s
    = if w.isPrefixOf s then some (w, s.drop w.length) else oneOf? ws s := by
  rw [oneOf?, List.findSome?_cons]
  split <;> rename_i h <;> split at h <;> rename_i hw
  · rw [if_pos hw, h]
  · cases h
  · cases h
  · rw [if_neg hw]
    rfl

theorem oneOf?_append {ws : List Text} (hws : ∀ w ∈ ws, ∀ c ∈ w.tail, c.isBreak = false)
    (hs : s ≠ []) (hu : u.Breaks) : oneOf? ws (s ++ u) = (oneOf? ws s).map (before u) := by
  induction ws with
  | nil => rfl
  | cons w ws ih =>
    have hprefix : w.isPrefixOf (s ++ u) = w.isPrefixOf s := by
      cases w with
      | nil => rw [List.isPrefixOf_nil_left, List.isPrefixOf_nil_left]
      | cons a w =>
        cases s with
        | nil => exact absurd rfl hs
        | cons c s =>
          have hrest := hu.isPrefixOf_append (w := w) (hws _ List.mem_cons_self) s
          rw [List.cons_append, List.isPrefixOf_cons_cons, List.isPrefixOf_cons_cons, hrest]
    rw [oneOf?_cons, oneOf?_cons, hprefix, ih fun v hv => hws v (List.mem_cons_of_mem _ hv)]
    split
    · rename_i hw
      rw [List.drop_append_of_le_length (List.isPrefixOf_iff_prefix.1 hw).length_le]
      rfl
    · rfl

/-! #### Strings -/

theorem stringRest?_cons (c : CodePoint) (t : Text) : stringRest? (c :: t)
    = if c = ('"' : CodePoint) then some ([c], t)
      else if c = ('\n' : CodePoint) then none
      else if c = ('\\' : CodePoint) then
        match t with
        | [] => none
        | d :: t => if d = ('\n' : CodePoint) then none else (stringRest? t).map (prepend [c, d])
      else (stringRest? t).map (prepend [c]) := by
  rw [stringRest?.eq_def]
  rfl

theorem stringRest?_append (h : stringRest? s = some x) :
    Splits x s ∧ ∀ u, stringRest? (s ++ u) = some (before u x) := by
  fun_induction stringRest? s generalizing x with
  | case2 =>
    cases h
    refine ⟨⟨List.cons_ne_nil _ _, rfl⟩, fun u => ?_⟩
    rw [List.cons_append, stringRest?_cons, if_pos rfl]
    rfl
  | case6 d t hd _ _ ih =>
    obtain ⟨y, hy, rfl⟩ := Option.map_eq_some_iff.1 h
    obtain ⟨hsplits, hrest⟩ := ih hy
    refine ⟨hsplits.prepend [_, d], fun u => ?_⟩
    rw [List.cons_append, stringRest?_cons, if_neg (by decide), if_neg (by decide), if_pos rfl]
    simp only [List.cons_append, if_neg hd, hrest u, Option.map_some]
    rfl
  | case7 c t h1 h2 h3 ih =>
    obtain ⟨y, hy, rfl⟩ := Option.map_eq_some_iff.1 h
    obtain ⟨hsplits, hrest⟩ := ih hy
    refine ⟨hsplits.prepend [c], fun u => ?_⟩
    rw [List.cons_append, stringRest?_cons, if_neg h1, if_neg h2, if_neg h3, hrest u]
    rfl
  | _ => cases h

theorem string?_eq_some (h : string? s = some x) : Splits x s ∧ s.head? = some '"' := by
  cases s with
  | nil => cases h
  | cons c t =>
    rw [string?] at h
    split at h
    · rename_i hc
      obtain ⟨y, hy, rfl⟩ := Option.map_eq_some_iff.1 h
      exact ⟨(stringRest?_append hy).1.prepend [c], by rw [hc]; rfl⟩
    · cases h

theorem string?_append (h : string? s = some x) (u : Text) :
    string? (s ++ u) = some (before u x) := by
  cases s with
  | nil => cases h
  | cons c t =>
    rw [string?] at h
    split at h
    · rename_i hc
      obtain ⟨y, hy, rfl⟩ := Option.map_eq_some_iff.1 h
      rw [List.cons_append, string?, if_pos hc, (stringRest?_append hy).2 u]
      rfl
    · cases h

end Lexeme

/-! #### Numbers -/

/-- The code points that numbers are written with. -/
def CodePoint.inNumber (c : CodePoint) : Bool :=
  c.isDigit || [('.' : CodePoint), 'e', 'E', '+', '-'].contains c

theorem CodePoint.inNumber_of_isDigit {c : CodePoint} (h : c.isDigit = true) :
    c.inNumber = true := by
  rw [inNumber, h, Bool.true_or]

theorem CodePoint.joins_inNumber : Joins inNumber := by
  refine joins_of (fun c hc => ?_) (by decide)
  rw [inNumber, Bool.or_eq_true, List.contains_iff_mem] at hc
  rcases hc with hc | hc
  · exact isDigit_val hc
  · have hall : ∀ d ∈ [('.' : CodePoint), 'e', 'E', '+', '-'], 32 < d.val ∧ d.val < 127 := by decide
    exact hall c hc

namespace Decimal

variable {s u : Text}

theorem avoids_isDigit (hu : u.Avoids CodePoint.inNumber) : u.Avoids CodePoint.isDigit :=
  hu.mono fun _ => CodePoint.inNumber_of_isDigit

theorem scanFraction_append (hu : u.Avoids CodePoint.inNumber) (s : Text) :
    scanFraction (s ++ u) = ((scanFraction s).1, (scanFraction s).2 ++ u) := by
  cases s with
  | nil =>
    cases u with
    | nil => rfl
    | cons c t =>
      have hne : c ≠ '.' := hu.ne rfl (by decide)
      simp only [List.nil_append, scanFraction, if_neg hne]
  | cons c t =>
    rw [List.cons_append, scanFraction, scanFraction, (avoids_isDigit hu).takeWhile_append,
      (avoids_isDigit hu).dropWhile_append]
    split <;> rfl

/-- The digits of an exponent, behind its sign if it has one. -/
def unsigned (t : Text) : Text :=
  if t.head? == some ('-' : CodePoint) || t.head? == some ('+' : CodePoint) then t.drop 1 else t

theorem unsigned_append (hu : u.Avoids CodePoint.inNumber) (t : Text) :
    unsigned (t ++ u) = unsigned t ++ u := by
  rw [unsigned, unsigned, hu.head?_append_beq (by decide), hu.head?_append_beq (by decide)]
  cases t with
  | nil => rfl
  | cons c t => split <;> rfl

theorem unsigned_splits (t : Text) : ∃ p, p ++ unsigned t = t := by
  rw [unsigned]
  split
  · exact ⟨t.take 1, List.take_append_drop 1 t⟩
  · exact ⟨[], rfl⟩

theorem scanExponent_cons (c : CodePoint) (t : Text) : scanExponent (c :: t)
    = if (c = ('e' : CodePoint) || c = ('E' : CodePoint))
        && !((unsigned t).takeWhile CodePoint.isDigit).isEmpty then
      (if t.head? == some ('-' : CodePoint) then
          -(Text.digitsValue ((unsigned t).takeWhile CodePoint.isDigit) : Int)
        else (Text.digitsValue ((unsigned t).takeWhile CodePoint.isDigit) : Int),
        (unsigned t).dropWhile CodePoint.isDigit)
      else (0, c :: t) := by
  rw [scanExponent]
  change (if _ then if ((unsigned t).takeWhile CodePoint.isDigit).isEmpty then _ else _ else _) = _
  cases ((unsigned t).takeWhile CodePoint.isDigit).isEmpty with
  | true => rw [if_pos rfl, ite_self, Bool.not_true, Bool.and_false, if_neg Bool.false_ne_true]
  | false =>
    rw [if_neg Bool.false_ne_true, Bool.not_false, Bool.and_true]
    rfl

theorem scanExponent_append (hu : u.Avoids CodePoint.inNumber) (s : Text) :
    scanExponent (s ++ u) = ((scanExponent s).1, (scanExponent s).2 ++ u) := by
  cases s with
  | nil =>
    cases u with
    | nil => rfl
    | cons c t =>
      have hsmall : decide (c = ('e' : CodePoint)) = false :=
        decide_eq_false (hu.ne rfl (by decide))
      have hlarge : decide (c = ('E' : CodePoint)) = false :=
        decide_eq_false (hu.ne rfl (by decide))
      rw [List.nil_append, scanExponent_cons, hsmall, hlarge]
      rfl
  | cons c t =>
    rw [List.cons_append, scanExponent_cons, scanExponent_cons, unsigned_append hu,
      hu.head?_append_beq (by decide), (avoids_isDigit hu).takeWhile_append,
      (avoids_isDigit hu).dropWhile_append]
    generalize (_ && _ : Bool) = b
    cases b <;> rfl

theorem scan?_append (hu : u.Avoids CodePoint.inNumber) (s : Text) :
    scan? (s ++ u) = (scan? s).map fun r => (r.1, r.2 ++ u) := by
  simp only [scan?, (avoids_isDigit hu).takeWhile_append, (avoids_isDigit hu).dropWhile_append,
    scanFraction_append hu, scanExponent_append hu]
  split <;> rfl

theorem scanFraction_splits (s : Text) : ∃ p, p ++ (scanFraction s).2 = s
    ∧ ((scanFraction s).1 ≠ [] → p.head? = some '.') := by
  cases s with
  | nil => exact ⟨[], rfl, fun h => absurd rfl h⟩
  | cons c t =>
    rw [scanFraction]
    split
    · rename_i hc
      refine ⟨c :: t.takeWhile CodePoint.isDigit, ?_, fun _ => by rw [hc]; rfl⟩
      rw [List.cons_append, List.takeWhile_append_dropWhile]
    · exact ⟨[], rfl, fun h => absurd rfl h⟩

theorem scanExponent_splits (s : Text) : ∃ p, p ++ (scanExponent s).2 = s := by
  cases s with
  | nil => exact ⟨[], rfl⟩
  | cons c t =>
    rw [scanExponent_cons]
    generalize (_ && _ : Bool) = b
    cases b with
    | false => exact ⟨[], rfl⟩
    | true =>
      obtain ⟨p, hp⟩ := unsigned_splits t
      refine ⟨c :: (p ++ (unsigned t).takeWhile CodePoint.isDigit), ?_⟩
      rw [if_pos rfl, List.cons_append, List.append_assoc, List.takeWhile_append_dropWhile, hp]

theorem any_head?_takeWhile {p : CodePoint → Bool} {t : Text} (h : t.takeWhile p ≠ []) :
    (t.takeWhile p).head?.any p = true := by
  cases t with
  | nil => exact absurd rfl h
  | cons c t =>
    rw [List.takeWhile_cons] at h ⊢
    split at h
    · rename_i hc
      rw [if_pos hc]
      exact hc
    · exact absurd rfl h

/-- A decimal starts with a digit or the point. -/
theorem scan?_splits {r : Decimal × Text} (h : scan? s = some r) :
    ∃ p, p ++ r.2 = s ∧ p.head?.any (fun c => c.isDigit || c = ('.' : CodePoint)) = true := by
  simp only [scan?] at h
  split at h
  · cases h
  · rename_i hempty
    cases h
    obtain ⟨p, hp, hpoint⟩ := scanFraction_splits (s.dropWhile CodePoint.isDigit)
    obtain ⟨q, hq⟩ := scanExponent_splits (scanFraction (s.dropWhile CodePoint.isDigit)).2
    refine ⟨s.takeWhile CodePoint.isDigit ++ (p ++ q), ?_, ?_⟩
    · rw [List.append_assoc, List.append_assoc, hq, hp, List.takeWhile_append_dropWhile]
    · by_cases hwhole : s.takeWhile CodePoint.isDigit = []
      · have hfraction : (scanFraction (s.dropWhile CodePoint.isDigit)).1 ≠ [] := by
          intro hnil
          rw [hwhole, hnil] at hempty
          exact hempty rfl
        rw [hwhole, List.nil_append, List.head?_append, hpoint hfraction]
        rfl
      · have hdigit := any_head?_takeWhile hwhole
        rw [List.head?_append]
        cases hhead : (s.takeWhile CodePoint.isDigit).head? with
        | none => exact absurd (List.head?_eq_none_iff.1 hhead) hwhole
        | some c =>
          rw [hhead, Option.any_some] at hdigit
          rw [Option.some_or, Option.any_some, hdigit, Bool.true_or]

end Decimal

namespace Lexeme

variable {s u : Text} {x : Lexeme}

theorem number?_eq_some (h : number? s = some x) : Splits x s
    ∧ s.head?.any (fun c => c.isDigit || c = ('.' : CodePoint)) = true := by
  obtain ⟨r, hr, rfl⟩ := Option.map_eq_some_iff.1 h
  obtain ⟨p, rfl, hhead⟩ := Decimal.scan?_splits hr
  have hp : p ≠ [] := by
    rintro rfl
    cases hhead
  have htake : (p ++ r.2).take ((p ++ r.2).length - r.2.length) = p :=
    List.take_left' (by rw [List.length_append, Nat.add_sub_cancel])
  refine ⟨⟨?_, ?_⟩, ?_⟩
  · exact fun hnil => hp (htake.symm.trans hnil)
  · exact congrArg (· ++ r.2) htake
  · cases p with
    | nil => exact absurd rfl hp
    | cons c p => exact hhead

theorem number?_append (hu : u.Avoids CodePoint.inNumber) (s : Text) :
    number? (s ++ u) = (number? s).map (before u) := by
  rw [number?, number?, Decimal.scan?_append hu]
  cases h : Decimal.scan? s with
  | none => rfl
  | some r =>
    obtain ⟨p, rfl, -⟩ := Decimal.scan?_splits h
    have hlength : (p ++ r.2 ++ u).length - (r.2 ++ u).length = (p ++ r.2).length - r.2.length := by
      simp only [List.length_append]
      omega
    simp only [Option.map_some, hlength, before]
    rw [List.take_append_of_le_length (Nat.sub_le _ _)]

end Lexeme

namespace Terminal

theorem kinds (t : Terminal) : t = number ∨ t = string ∨ t = name ∨ t = tag
    ∨ (∃ w, t.keyword? = some w) ∨ t.marks ≠ [] := by
  cases t <;> simp [keyword?, marks]

theorem lexeme?_of_keyword {t : Terminal} {w : Text} (h : t.keyword? = some w) (s : Text) :
    t.lexeme? s = (Lexeme.word? s).filter fun x => x.1 = w := by
  cases t <;> cases h <;> rfl

theorem lexeme?_of_marks {t : Terminal} (h : t.marks ≠ []) (s : Text) :
    t.lexeme? s = Lexeme.oneOf? t.marks s := by
  cases t <;> first | rfl | exact absurd rfl h

/-- The code points with which a token of a kind can start. -/
def canStart (t : Terminal) (c : CodePoint) : Bool :=
  match t with
  | number => c.isDigit || c = ('.' : CodePoint)
  | string => c = ('"' : CodePoint)
  | tag => c = ('`' : CodePoint)
  | t => if t.marks = [] then c.isLower || c = ('_' : CodePoint)
    else t.marks.any fun w => w.head? = some c

theorem canStart_of_marks {t : Terminal} (h : t.marks ≠ []) (c : CodePoint) :
    t.canStart c = t.marks.any fun w => w.head? = some c := by
  cases t <;> first | rfl | exact absurd rfl h

theorem canStart_of_keyword {t : Terminal} {w : Text} (h : t.keyword? = some w) (c : CodePoint) :
    t.canStart c = (c.isLower || c = ('_' : CodePoint)) := by
  cases t <;> cases h <;> rfl

theorem nil_not_mem_marks (t : Terminal) : [] ∉ t.marks := by
  cases t <;> decide

/-- What breaks off does so inside no mark. -/
theorem tail_marks {t : Terminal} {w : Text} (h : w ∈ t.marks) :
    ∀ c ∈ w.tail, c.isBreak = false := by
  revert w
  cases t <;> decide

variable {t : Terminal} {s u : Text} {x : Lexeme}

/-- A lexeme is a piece at the front of a text, and its first code point goes with its kind. -/
theorem lexeme?_eq_some (h : t.lexeme? s = some x) :
    x.Splits s ∧ s.head?.any t.canStart = true := by
  rcases t.kinds with rfl | rfl | rfl | rfl | ⟨w, hw⟩ | hmarks
  · exact Lexeme.number?_eq_some h
  · obtain ⟨hsplits, hhead⟩ := Lexeme.string?_eq_some h
    exact ⟨hsplits, by rw [hhead]; rfl⟩
  · exact ⟨Lexeme.word?_splits h, Lexeme.word?_head h⟩
  · exact ⟨Lexeme.tag?_splits h, Lexeme.tag?_head h⟩
  · rw [lexeme?_of_keyword hw, Option.filter_eq_some_iff] at h
    refine ⟨Lexeme.word?_splits h.1, ?_⟩
    rw [funext (canStart_of_keyword hw)]
    exact Lexeme.word?_head h.1
  · rw [lexeme?_of_marks hmarks] at h
    obtain ⟨hmem, hsplits⟩ := Lexeme.oneOf?_eq_some h
    have hne : x.1 ≠ [] := fun hnil => t.nil_not_mem_marks (hnil ▸ hmem)
    refine ⟨⟨hne, hsplits⟩, ?_⟩
    obtain ⟨c, w, hx⟩ := List.exists_cons_of_ne_nil hne
    rw [funext (canStart_of_marks hmarks), ← hsplits, hx, List.cons_append, List.head?_cons,
      Option.any_some, List.any_eq_true]
    exact ⟨c :: w, hx ▸ hmem, decide_eq_true rfl⟩

/-- Text that breaks off does not change the lexemes before it, but it may close a string. -/
theorem lexeme?_append (ht : t ≠ string) (hs : s ≠ []) (hu : u.Breaks) :
    t.lexeme? (s ++ u) = (t.lexeme? s).map (Lexeme.before u) := by
  rcases t.kinds with rfl | rfl | rfl | rfl | ⟨w, hw⟩ | hmarks
  · exact Lexeme.number?_append (hu.avoids CodePoint.joins_inNumber) s
  · exact absurd rfl ht
  · exact Lexeme.word?_append hs (hu.avoids CodePoint.joins_isWord)
  · exact Lexeme.tag?_append hs (hu.avoids CodePoint.joins_isWord)
  · rw [lexeme?_of_keyword hw, lexeme?_of_keyword hw,
      Lexeme.word?_append hs (hu.avoids CodePoint.joins_isWord)]
    cases Lexeme.word? s with
    | none => rfl
    | some y =>
      simp only [Option.map_some, Option.filter_some, Lexeme.before]
      split <;> rfl
  · rw [lexeme?_of_marks hmarks, lexeme?_of_marks hmarks]
    exact Lexeme.oneOf?_append (fun w hw => tail_marks hw) hs hu

theorem lexeme?_append_of_eq_some (h : t.lexeme? s = some x) (hu : u.Breaks) :
    t.lexeme? (s ++ u) = some (x.before u) := by
  by_cases ht : t = string
  · subst ht
    exact Lexeme.string?_append h u
  · rw [lexeme?_append ht (lexeme?_eq_some h).1.ne_nil hu, h]
    rfl

/-! ### Whole tokens -/

/-- The spellings of a kind of tokens that has but a few. -/
def spellings (t : Terminal) : List Text :=
  match t.keyword? with
  | some w => [w]
  | none => t.marks

/-- No other kind of token that is tried earlier is spelled like this. -/
theorem lexeme?_of_spelling {t t' : Terminal} {w : Text} (hw : w ∈ t.spellings)
    (hlt : t'.ctorIdx < t.ctorIdx) : t'.lexeme? w = none := by
  have hall : ∀ t ∈ all, ∀ w ∈ t.spellings, ∀ t' ∈ all, t'.ctorIdx < t.ctorIdx →
      t'.lexeme? w = none := by decide
  exact hall t t.mem_all w hw t' t'.mem_all hlt

/-- The whole text is a token of the kind `t`; a name is none of the keywords. -/
def Spells (t : Terminal) (w : Text) : Prop :=
  t.lexeme? w = some (w, []) ∧ (t = name → ∀ t' : Terminal, t'.keyword? ≠ some w)

instance (t : Terminal) (w : Text) : Decidable (t.Spells w) :=
  decidable_of_iff (t.lexeme? w = some (w, []) ∧ (t = name → ∀ t' ∈ all, t'.keyword? ≠ some w))
    ⟨fun h => ⟨h.1, fun ht t' => h.2 ht t' t'.mem_all⟩, fun h => ⟨h.1, fun ht t' _ => h.2 ht t'⟩⟩

theorem canStart_quote {t : Terminal} (h : t.canStart '"' = true) : t = string := by
  cases t <;> first | rfl | exact absurd h (by decide)

theorem canStart_backquote {t' : Terminal} (hlt : t'.ctorIdx < tag.ctorIdx) :
    t'.canStart '`' = false := by
  revert hlt
  cases t' <;> decide

theorem name_before_marks {t : Terminal} (h : t.marks ≠ []) : ¬ t.ctorIdx < name.ctorIdx := by
  cases t <;> first | decide | exact absurd rfl h

theorem canStart_leftParen {t : Terminal} (h : t.canStart '(' = true) : t = leftParen := by
  cases t <;> first | rfl | exact absurd h (by decide)

theorem canStart_star {t : Terminal} (h : t.canStart '*' = true) : t = productOp := by
  cases t <;> first | rfl | exact absurd h (by decide)

/-- What starts a word starts neither a number nor a string. -/
theorem not_canStart_of_word {c : CodePoint} (h : (c.isLower || c = ('_' : CodePoint)) = true) :
    number.canStart c = false ∧ string.canStart c = false := by
  have hval : 97 ≤ c.val ∨ c.val = 95 := by
    rw [Bool.or_eq_true, decide_eq_true_eq] at h
    rcases h with h | rfl
    · rw [CodePoint.isLower, CodePoint.within, Bool.and_eq_true, decide_eq_true_eq] at h
      exact Or.inl h.1
    · exact Or.inr rfl
  have hne : ∀ d : CodePoint, d.val < 95 → c ≠ d := by
    rintro d hd rfl
    omega
  refine ⟨?_, decide_eq_false (hne '"' (by decide))⟩
  rw [canStart, Bool.or_eq_false_iff]
  refine ⟨?_, decide_eq_false (hne '.' (by decide))⟩
  rw [CodePoint.isDigit, CodePoint.within, Bool.and_eq_false_iff]
  refine Or.inr (decide_eq_false ?_)
  change ¬ c.val ≤ 57
  omega

/-- What starts like a word is a word. -/
theorem keyword_of_canStart {t : Terminal} {c : CodePoint}
    (hc : (c.isLower || c = ('_' : CodePoint)) = true) (h : t.canStart c = true) :
    t = name ∨ ∃ w, t.keyword? = some w := by
  obtain ⟨hnumber, hstring⟩ := not_canStart_of_word hc
  have hmarks : ∀ t ∈ all, ∀ w ∈ t.marks,
      w.head?.all (fun c => !(c.isLower || c = ('_' : CodePoint))) = true := by decide
  rcases t.kinds with rfl | rfl | rfl | rfl | ht | ht
  · cases hnumber.symm.trans h
  · cases hstring.symm.trans h
  · exact .inl rfl
  · have hbackquote : c = '`' := of_decide_eq_true h
    rw [hbackquote] at hc
    exact absurd hc (by decide)
  · exact .inr ht
  · rw [canStart_of_marks ht, List.any_eq_true] at h
    obtain ⟨w, hw, hhead⟩ := h
    have hword := hmarks t t.mem_all w hw
    rw [of_decide_eq_true hhead, Option.all_some, hc] at hword
    cases hword

theorem lexeme?_eq_none {c : CodePoint} (hs : s.head? = some c) (h : t.canStart c = false) :
    t.lexeme? s = none := by
  rw [Option.eq_none_iff_forall_ne_some]
  intro x hx
  have hhead := (lexeme?_eq_some hx).2
  rw [hs, Option.any_some, h] at hhead
  cases hhead

/-- A whole word is a name or the keyword that is spelled like it. -/
theorem lexeme?_of_word {t : Terminal} {w : Text} (hw : Lexeme.word? w = some (w, []))
    (hlt : t.ctorIdx < name.ctorIdx) (hne : t.keyword? ≠ some w) : t.lexeme? w = none := by
  obtain ⟨c, w, rfl⟩ := List.exists_cons_of_ne_nil (Lexeme.word?_splits hw).1
  obtain ⟨hnumber, hstring⟩ := not_canStart_of_word (Lexeme.word?_head hw)
  rcases t.kinds with rfl | rfl | rfl | rfl | ⟨v, hv⟩ | hmarks
  · exact lexeme?_eq_none rfl hnumber
  · exact lexeme?_eq_none rfl hstring
  · exact absurd hlt (Nat.lt_irrefl _)
  · exact absurd hlt (by decide)
  · rw [lexeme?_of_keyword hv, hw]
    exact if_neg fun heq => hne (hv.trans (congrArg some (of_decide_eq_true heq).symm))
  · exact absurd hlt (name_before_marks hmarks)

/-- A token that is spelled by itself is not taken for one of a kind that is tried earlier. -/
theorem Spells.lexeme?_earlier {w : Text} (h : t.Spells w) {t' : Terminal}
    (hlt : t'.ctorIdx < t.ctorIdx) : t'.lexeme? w = none := by
  obtain ⟨hlexeme, hname⟩ := h
  obtain ⟨hsplits, hhead⟩ := lexeme?_eq_some hlexeme
  obtain ⟨c, w', rfl⟩ := List.exists_cons_of_ne_nil hsplits.1
  have hspelling : ∀ w ∈ t.spellings, w = c :: w' → t'.lexeme? (c :: w') = none := by
    rintro w hw rfl
    exact lexeme?_of_spelling hw hlt
  rcases t.kinds with rfl | rfl | rfl | rfl | ⟨w, hw⟩ | hmarks
  · exact absurd hlt (Nat.not_lt_zero _)
  · have hc : c = '"' := of_decide_eq_true hhead
    subst hc
    refine lexeme?_eq_none rfl (Bool.eq_false_iff.2 fun hstart => ?_)
    rw [canStart_quote hstart] at hlt
    exact absurd hlt (Nat.lt_irrefl _)
  · exact lexeme?_of_word hlexeme hlt (hname rfl t')
  · have hc : c = '`' := of_decide_eq_true hhead
    subst hc
    exact lexeme?_eq_none rfl (canStart_backquote hlt)
  · rw [lexeme?_of_keyword hw, Option.filter_eq_some_iff, decide_eq_true_eq] at hlexeme
    refine hspelling w ?_ hlexeme.2.symm
    rw [spellings, hw]
    exact List.mem_singleton_self w
  · rw [lexeme?_of_marks hmarks] at hlexeme
    refine hspelling _ ?_ rfl
    rw [spellings, show t.keyword? = none by cases t <;> first | rfl | exact absurd rfl hmarks]
    exact (Lexeme.oneOf?_eq_some hlexeme).1

/-- Only a string starts with a quote, so what closes a string does not change the other tokens. -/
theorem eq_string_of_append {y : Lexeme} (hx : t.lexeme? s = some x)
    (hy : string.lexeme? (s ++ u) = some y) : t = string := by
  obtain ⟨hsplits, hhead⟩ := lexeme?_eq_some hx
  obtain ⟨c, s, rfl⟩ := List.exists_cons_of_ne_nil hsplits.ne_nil
  have hc : c = '"' := of_decide_eq_true (lexeme?_eq_some hy).2
  subst hc
  exact canStart_quote hhead

/-- No token of a kind that is tried earlier comes up because of text that breaks off. -/
theorem lexeme?_append_eq_none {t' : Terminal} (h : t.lexeme? s = some x) (hu : u.Breaks)
    (hlt : t'.ctorIdx < t.ctorIdx) (hnone : t'.lexeme? s = none) : t'.lexeme? (s ++ u) = none := by
  by_cases hstring : t' = string
  · subst hstring
    rw [Option.eq_none_iff_forall_ne_some]
    intro y hy
    rw [eq_string_of_append h hy] at hlt
    exact absurd hlt (Nat.lt_irrefl _)
  · rw [lexeme?_append hstring (lexeme?_eq_some h).1.ne_nil hu, hnone]
    rfl

/-- A token that is spelled by itself is found in front of text that breaks off, and no token of a
kind that is tried earlier is. -/
theorem Spells.lexeme?_append {w u : Text} (h : t.Spells w) (hu : u.Breaks) :
    t.lexeme? (w ++ u) = some (w, u)
      ∧ ∀ t' : Terminal, t'.ctorIdx < t.ctorIdx → t'.lexeme? (w ++ u) = none :=
  ⟨lexeme?_append_of_eq_some h.1 hu, fun _ hlt =>
    lexeme?_append_eq_none h.1 hu hlt (h.lexeme?_earlier hlt)⟩

end Terminal

/-! ### Blanks -/

namespace Lexeme

variable {s u : Text} {x : Lexeme}

theorem isSpace_of_isBlank {c : CodePoint} (h : isBlank c = true) : c.isSpace = true := by
  simp only [isBlank, Bool.or_eq_true, decide_eq_true_eq] at h
  simp only [CodePoint.isSpace, Bool.or_eq_true, Bool.and_eq_true, decide_eq_true_eq, beq_iff_eq]
  omega

theorem avoids_of_blank?_eq_none (h : blank? s = none) : s.Avoids isBlank := by
  intro c hc
  rw [blank?, Option.mem_def.1 hc, Option.any_some] at h
  split at h
  · cases h
  · rename_i hblank
    exact Bool.eq_false_iff.2 hblank

theorem commentRest?_append (h : commentRest? s = some x) :
    Splits x s ∧ ∀ u, commentRest? (s ++ u) = some (before u x) := by
  induction s generalizing x with
  | nil => cases h
  | cons c t ih =>
    have hhead : t ≠ [] → ∀ u, (t ++ u).head? = t.head? := by
      intro ht u
      cases t with
      | nil => exact absurd rfl ht
      | cons d t => rfl
    rw [commentRest?] at h
    split at h
    · rename_i hc
      cases h
      cases t with
      | nil => cases (Bool.and_eq_true_iff.1 hc).2
      | cons d t =>
        refine ⟨⟨List.cons_ne_nil _ _, rfl⟩, fun u => ?_⟩
        rw [List.cons_append, commentRest?, hhead (List.cons_ne_nil _ _), if_pos hc]
        rfl
    · rename_i hc
      obtain ⟨y, hy, rfl⟩ := Option.map_eq_some_iff.1 h
      obtain ⟨hsplits, hrest⟩ := ih hy
      refine ⟨hsplits.prepend [c], fun u => ?_⟩
      rw [List.cons_append, commentRest?, hhead hsplits.ne_nil, if_neg hc, hrest u]
      rfl

/-- The two code points that open a comment. -/
def opensComment : Text → Bool
  | c :: d :: _ => c = ('(' : CodePoint) && d = ('*' : CodePoint)
  | _ => false

theorem opensComment_iff {s : Text} :
    opensComment s = true ↔ ∃ t, s = ('(' : CodePoint) :: ('*' : CodePoint) :: t := by
  constructor
  · intro h
    match s, h with
    | c :: d :: t, h =>
      rw [opensComment, Bool.and_eq_true, decide_eq_true_eq, decide_eq_true_eq] at h
      exact ⟨t, by rw [h.1, h.2]⟩
  · rintro ⟨t, rfl⟩
    rfl

theorem comment?_open (t : Text) :
    comment? (('(' : CodePoint) :: ('*' : CodePoint) :: t)
      = (commentRest? t).map (prepend ['(', '*']) := rfl

theorem comment?_of_not_open (h : opensComment s = false) : comment? s = none := by
  rw [comment?, if_neg]
  intro hprefix
  obtain ⟨t, ht⟩ := List.isPrefixOf_iff_prefix.1 hprefix
  have hopen : opensComment s = true := opensComment_iff.2 ⟨t, ht.symm⟩
  rw [h] at hopen
  cases hopen

theorem comment?_append (h : comment? s = some x) :
    Splits x s ∧ ∀ u, comment? (s ++ u) = some (before u x) := by
  cases hopen : opensComment s with
  | false =>
    rw [comment?_of_not_open hopen] at h
    cases h
  | true =>
    obtain ⟨t, rfl⟩ := opensComment_iff.1 hopen
    rw [comment?_open] at h
    obtain ⟨y, hy, rfl⟩ := Option.map_eq_some_iff.1 h
    obtain ⟨hsplits, hrest⟩ := commentRest?_append hy
    refine ⟨hsplits.prepend _, fun u => ?_⟩
    rw [List.cons_append, List.cons_append, comment?_open, hrest u]
    rfl

theorem opensComment_append (hs : s ≠ []) (hu : u.Breaks) :
    opensComment (s ++ u) = opensComment s := by
  match s, hs with
  | [c], _ =>
    cases u with
    | nil => rfl
    | cons d t =>
      have hd : decide (d = ('*' : CodePoint)) = false :=
        CodePoint.joins_eq (by decide) d (hu d rfl)
      change (_ && decide (d = ('*' : CodePoint))) = false
      rw [hd, Bool.and_false]
  | c :: d :: t, _ => rfl

theorem blank?_splits (h : blank? s = some x) : Splits x s := by
  rw [blank?] at h
  split at h
  · rename_i hblank
    cases h
    refine ⟨?_, List.takeWhile_append_dropWhile⟩
    cases s with
    | nil => cases hblank
    | cons c t =>
      rw [List.head?_cons, Option.any_some] at hblank
      rw [List.takeWhile_cons, if_pos hblank]
      exact List.cons_ne_nil _ _
  · exact (comment?_append h).1

/-- A semicolon, or nothing, after a text. -/
def Ends (u : Text) : Prop := ∀ c ∈ u.head?, c = ';'

theorem Ends.breaks (hu : Ends u) : u.Breaks := by
  intro c hc
  rw [hu c hc]
  rfl

theorem Ends.blank?_eq_none (hu : Ends u) : blank? u = none := by
  cases u with
  | nil => rfl
  | cons c u =>
    rw [hu c rfl]
    rfl

/-- Blanks end at a semicolon. Only a comment that is not closed could go on. -/
theorem blank?_append (hs : s ≠ []) (hu : Ends u)
    (hopen : blank? s = none → opensComment s = false) :
    blank? (s ++ u) = (blank? s).map (before u) := by
  have hblank : u.Avoids isBlank := by
    intro c hc
    rw [hu c hc]
    rfl
  have hhead : (s ++ u).head? = s.head? := by
    cases s with
    | nil => exact absurd rfl hs
    | cons c t => rfl
  rw [blank?] at hopen
  rw [blank?, blank?, hhead, hblank.takeWhile_append, hblank.dropWhile_append]
  split
  · rfl
  · rename_i hblank
    rw [if_neg hblank] at hopen
    cases hc : comment? s with
    | none =>
      rw [comment?_of_not_open (by rw [opensComment_append hs hu.breaks, hopen hc])]
      rfl
    | some x => exact (comment?_append hc).2 u

end Lexeme

end Toplevel
