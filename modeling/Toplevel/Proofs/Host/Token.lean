import Mathlib.Data.List.Forall2
import Mathlib.Tactic.SplitIfs
import Toplevel.Code.Basic
import Toplevel.Proofs.Code.Scope
import Toplevel.Proofs.Number.Numeral
import Toplevel.Proofs.Syntax.Lexeme

/-!
# Tokens of the host

How the host takes a text apart that is to be evaluated (`Text.hostTokens?`), as far as one line of
ASCII goes, string literals apart. Where the host knows more than is told here, no token is read: a
word, a numeral and a literal must be set apart from what follows them, signs that stand together
are one sign, and a literal escapes no more than quoting does.

What is quoted is one literal, whatever it holds (`Text.scansApart_quoted`).
-/

namespace Toplevel

/-- A token of an expression of the host. Of the reserved words there are those that stand for a
truth value or between the parts of an expression. -/
inductive HostToken where
  | name (x : Text)
  | number (numeral : Text)
  | string (value : Text)
  | truth (value : Bool)
  | lambda
  | ifWord
  | elseWord
  | operator (op : Operator)
  | leftParen
  | rightParen
  | leftBracket
  | rightBracket
  | leftBrace
  | rightBrace
  | comma
  | colon
  | dot
deriving DecidableEq

/-! ### Literals -/

namespace CodePoint

def isQuote (c : CodePoint) : Bool := c = ('\'' : CodePoint) || c = ('"' : CodePoint)

theorem isWord_of_isDigit {c : CodePoint} (h : c.isDigit = true) : c.isWord = true := by
  rw [isWord, h, Bool.or_true, Bool.true_or]

theorem ne_of_isWord {c d : CodePoint} (hc : c.isWord = true) (hd : d.isWord = false) :
    c ≠ d := by
  rintro rfl
  rw [hc] at hd
  cases hd

theorem not_isQuote_of_isWord {c : CodePoint} (h : c.isWord = true) : ¬c.isQuote = true := by
  rw [isQuote, decide_eq_false (ne_of_isWord h (by decide)),
    decide_eq_false (ne_of_isWord h (by decide))]
  exact Bool.false_ne_true

/-- What a backslash and one more code point stand for, numbers apart. -/
def letterEscape? (c : CodePoint) : Option CodePoint :=
  if c.isQuote || c = ('\\' : CodePoint) then some c
  else if c = ('n' : CodePoint) then some '\n'
  else if c = ('r' : CodePoint) then some '\r'
  else if c = ('t' : CodePoint) then some '\t'
  else none

end CodePoint

/-- Where the reading of a literal stands: outside of escapes, behind a backslash, or at the first
of `more + 1` hexadecimal digits behind those with the value `value`. -/
inductive QuotePlace where
  | plain
  | escape
  | digits (more value : Nat)

/-- What a literal denotes from some place in it on, up to the quote that closes it, and what
follows the quote. -/
def Text.quotedRest? (quote : CodePoint) : QuotePlace → Text → Option Lexeme
  | _, [] => none
  | .plain, c :: t =>
    if c = quote then some ([], t)
    else if c = ('\\' : CodePoint) then quotedRest? quote .escape t
    else if c = ('\n' : CodePoint) || c = ('\r' : CodePoint) || c.val = 0 then none
    else (quotedRest? quote .plain t).map (Lexeme.prepend [c])
  | .escape, c :: t =>
    if c = ('x' : CodePoint) then quotedRest? quote (.digits 1 0) t
    else if c = ('u' : CodePoint) then quotedRest? quote (.digits 3 0) t
    else if c = ('U' : CodePoint) then quotedRest? quote (.digits 7 0) t
    else c.letterEscape?.bind fun d => (quotedRest? quote .plain t).map (Lexeme.prepend [d])
  | .digits more value, c :: t =>
    c.hexValue?.bind fun d =>
      match more with
      | more + 1 => quotedRest? quote (.digits more (16 * value + d)) t
      | 0 =>
        if 16 * value + d < 0x110000 then
          (quotedRest? quote .plain t).map (Lexeme.prepend [CodePoint.ofNat (16 * value + d)])
        else none

namespace Text

variable {quote : CodePoint}

theorem quotedRest?_plain {c : CodePoint} (hquote : c ≠ quote) (hslash : c ≠ '\\')
    (hline : c ≠ '\n' ∧ c ≠ '\r' ∧ c.val ≠ 0) (t : Text) :
    quotedRest? quote .plain (c :: t) = (quotedRest? quote .plain t).map (Lexeme.prepend [c]) := by
  refine (if_neg hquote).trans ((if_neg hslash).trans (if_neg ?_))
  rw [Bool.or_eq_true, Bool.or_eq_true, decide_eq_true_eq, decide_eq_true_eq, decide_eq_true_eq]
  rintro ((h | h) | h)
  · exact hline.1 h
  · exact hline.2.1 h
  · exact hline.2.2 h

theorem quotedRest?_slash (hquote : quote.isQuote = true) (t : Text) :
    quotedRest? quote .plain (('\\' : CodePoint) :: t) = quotedRest? quote .escape t := by
  refine (if_neg ?_).trans (if_pos rfl)
  rintro rfl
  exact absurd hquote (by decide)

theorem quotedRest?_letter {c d : CodePoint} (h : c.letterEscape? = some d) (t : Text) :
    quotedRest? quote .escape (c :: t) = (quotedRest? quote .plain t).map (Lexeme.prepend [d]) := by
  have hne : ∀ e : CodePoint, e.letterEscape? = none → c ≠ e := by
    rintro e he rfl
    rw [h] at he
    cases he
  change (if _ then _ else if _ then _ else if _ then _ else c.letterEscape?.bind _) = _
  rw [if_neg (hne 'x' (by decide)), if_neg (hne 'u' (by decide)), if_neg (hne 'U' (by decide)), h,
    Option.bind_some]

theorem hexValue?_hexDigit {n : Nat} (hn : n < 16) : (hexDigit n).hexValue? = some n := by
  have hall : ∀ n < 16, (hexDigit n).hexValue? = some n := by decide
  exact hall n hn

theorem quotedRest?_hexDigit (more value n : Nat) (t : Text) :
    quotedRest? quote (.digits (more + 1) value) (hexDigit (n % 16) :: t)
      = quotedRest? quote (.digits more (16 * value + n % 16)) t := by
  change (hexDigit (n % 16)).hexValue?.bind _ = _
  rw [hexValue?_hexDigit (Nat.mod_lt n (by decide)), Option.bind_some]

/-- Digits in front of the last one. -/
theorem quotedRest?_hex (width more value n : Nat) (t : Text) :
    quotedRest? quote (.digits (width + more) value) (hex width n ++ t)
      = quotedRest? quote (.digits more (16 ^ width * value + n % 16 ^ width)) t := by
  induction width generalizing more n t with
  | zero => rw [hex, List.nil_append, Nat.zero_add, Nat.pow_zero, Nat.one_mul, Nat.mod_one,
      Nat.add_zero]
  | succ width ih =>
    rw [hex, List.append_assoc, List.singleton_append, Nat.add_right_comm, Nat.add_assoc, ih,
      quotedRest?_hexDigit, Nat.mul_add, ← Nat.mul_assoc, Nat.add_assoc, Nat.pow_succ',
      Nat.mod_mul, Nat.add_comm (n % 16)]

theorem quotedRest?_number (width : Nat) {c : CodePoint} (hc : c.val < 16 ^ (width + 1))
    (t : Text) : quotedRest? quote (.digits width 0) (hex (width + 1) c.val ++ t)
      = (quotedRest? quote .plain t).map (Lexeme.prepend [c]) := by
  have hvalue : 16 * (16 ^ width * 0 + c.val / 16 % 16 ^ width) + c.val % 16 = c.val := by
    rw [Nat.mul_zero, Nat.zero_add,
      Nat.mod_eq_of_lt (Nat.div_lt_of_lt_mul (by rwa [← Nat.pow_succ'])), Nat.div_add_mod]
  have hdigits : quotedRest? quote (.digits width 0) (hex width (c.val / 16)
      ++ hexDigit (c.val % 16) :: t) = _ := quotedRest?_hex width 0 0 (c.val / 16) _
  rw [hex, List.append_assoc, List.singleton_append, hdigits]
  change (hexDigit (c.val % 16)).hexValue?.bind _ = _
  rw [hexValue?_hexDigit (Nat.mod_lt _ (by decide)), Option.bind_some]
  simp only [hvalue, if_pos c.isLt, CodePoint.ext (CodePoint.val_ofNat c.isLt)]

theorem quotedRest?_numberEscape (hquote : quote.isQuote = true) (c : CodePoint) (t : Text) :
    quotedRest? quote .plain (c.numberEscape ++ t)
      = (quotedRest? quote .plain t).map (Lexeme.prepend [c]) := by
  have hc := c.isLt
  rw [CodePoint.numberEscape]
  split_ifs with hbyte hshort
  · exact (quotedRest?_slash hquote _).trans (quotedRest?_number 1 hbyte t)
  · exact (quotedRest?_slash hquote _).trans (quotedRest?_number 3 hshort t)
  · exact (quotedRest?_slash hquote _).trans (quotedRest?_number 7 (by omega) t)

/-- A code point as it is written in a literal denotes itself. -/
theorem quotedRest?_escapeWithin (hquote : quote.isQuote = true) (c : CodePoint) (t : Text) :
    quotedRest? quote .plain (quote.escapeWithin c ++ t)
      = (quotedRest? quote .plain t).map (Lexeme.prepend [c]) := by
  rw [CodePoint.escapeWithin]
  split_ifs with hitself hn hr ht hprintable
  · rw [Bool.or_eq_true, decide_eq_true_eq, decide_eq_true_eq] at hitself
    refine (quotedRest?_slash hquote _).trans (quotedRest?_letter ?_ t)
    rcases hitself with rfl | rfl
    · rw [CodePoint.letterEscape?, hquote, Bool.true_or, if_pos rfl]
    · exact if_pos (by decide)
  · exact (quotedRest?_slash hquote _).trans (quotedRest?_letter (hn ▸ (by decide)) t)
  · exact (quotedRest?_slash hquote _).trans (quotedRest?_letter (hr ▸ (by decide)) t)
  · exact (quotedRest?_slash hquote _).trans (quotedRest?_letter (ht ▸ (by decide)) t)
  · rw [Bool.or_eq_true, decide_eq_true_eq, decide_eq_true_eq, not_or] at hitself
    refine quotedRest?_plain hitself.1 hitself.2 ⟨hn, hr, ?_⟩ t
    intro hzero
    rw [CodePoint.isPrintable, if_pos (by omega), decide_eq_true_eq] at hprintable
    omega
  · exact quotedRest?_numberEscape hquote c t

theorem isQuote_quoteFor (s : Text) : s.quoteFor.isQuote = true := by
  rw [quoteFor]
  split <;> decide

/-- What stands between quotes denotes the text that is quoted. -/
theorem quotedRest?_flatMap (hquote : quote.isQuote = true) (s t : Text) :
    quotedRest? quote .plain (s.flatMap (CodePoint.escapeWithin quote) ++ quote :: t)
      = some (s, t) := by
  induction s with
  | nil => exact if_pos rfl
  | cons c s ih =>
    rw [List.flatMap_cons, List.append_assoc, quotedRest?_escapeWithin hquote, ih]
    rfl

/-- The literal of one line at the front of a text: what it denotes, and what follows it. -/
def hostLiteral? : Text → Option Lexeme
  | [] => none
  | c :: t => if c.isQuote then quotedRest? c .plain t else none

theorem hostLiteral?_quoted (s rest : Text) : hostLiteral? (s.quoted ++ rest) = some (s, rest) := by
  have hrest := quotedRest?_flatMap s.isQuote_quoteFor s rest
  simpa [quoted, between, hostLiteral?, s.isQuote_quoteFor] using hrest

theorem quoted_injective : Function.Injective quoted := by
  intro s t h
  have hs := hostLiteral?_quoted s []
  rw [h, hostLiteral?_quoted] at hs
  exact (Prod.mk.inj (Option.some.inj hs)).1.symm

end Text

/-! ### Tokens -/

namespace CodePoint

def isSign (c : CodePoint) : Bool := (Text.ofString "+-*/%@&|^~<>=!:.").contains c

theorem isSign_of_isWord {c : CodePoint} (h : c.isWord = true) : c.isSign = false := by
  have hall : ∀ d ∈ Text.ofString "+-*/%@&|^~<>=!:.", d.isWord = false := by decide
  rw [isSign, Bool.eq_false_iff]
  exact fun hc => ne_of_isWord h (hall c (List.contains_iff_mem.1 hc)) rfl

/-- What goes on with a word or makes one of it and a literal. -/
def joinsWord (c : CodePoint) : Bool := c.isWord || c.isQuote

/-- What goes on with a word, a numeral or a literal. -/
def joinsHost (c : CodePoint) : Bool := c.joinsWord || c.inNumber

end CodePoint

namespace HostToken

/-- The reserved words that no token stands for. -/
def otherWords : List Text :=
  ["None", "and", "as", "assert", "async", "await", "break", "class", "continue", "def", "del",
    "elif", "except", "finally", "for", "from", "global", "import", "in", "is", "nonlocal", "not",
    "or", "pass", "raise", "return", "try", "while", "with", "yield"]

def reserved : List (Text × HostToken) :=
  [("True", truth true), ("False", truth false), ("lambda", lambda), ("if", ifWord),
    ("else", elseWord)]

def ofWord? (w : Text) : Option HostToken :=
  match reserved.lookup w with
  | some token => some token
  | none => if w ∈ otherWords then none else some (name w)

def brackets : List (CodePoint × HostToken) :=
  [('(', leftParen), (')', rightParen), ('[', leftBracket), (']', rightBracket),
    ('\x7b', leftBrace), ('\x7d', rightBrace), (',', comma)]

def operators : List Operator :=
  [.less, .lessEqual, .greater, .greaterEqual, .equal, .notEqual, .plus, .minus, .times, .divide]

def signs : List (Text × HostToken) :=
  (":", colon) :: (".", dot) :: operators.map fun op => (op.text, operator op)

/-- A token is read only if what follows it does not join it. -/
def apart (joins : CodePoint → Bool) (r : HostToken × Text) : Option (HostToken × Text) :=
  if r.2.head?.any joins then none else some r

/-- The token at the front of a text, and what follows it. -/
def read? : Text → Option (HostToken × Text)
  | [] => none
  | c :: t =>
    if c.isQuote then
      (Text.quotedRest? c .plain t).bind fun r => apart CodePoint.joinsHost (string r.1, r.2)
    else if c.isDigit then
      (Lexeme.number? (c :: t)).bind fun r => apart CodePoint.joinsHost (number r.1, r.2)
    else if c.isWord then
      (ofWord? (c :: t.takeWhile CodePoint.isWord)).bind fun token =>
        apart CodePoint.joinsWord (token, t.dropWhile CodePoint.isWord)
    else if c.isSign then
      (signs.lookup (c :: t.takeWhile CodePoint.isSign)).map fun token =>
        (token, t.dropWhile CodePoint.isSign)
    else (brackets.lookup c).map fun token => (token, t)

end HostToken

/-- The tokens of a text that has nothing but spaces between them. -/
def Text.hostTokens? : Text → Option (List HostToken)
  | [] => some []
  | c :: t =>
    if c = (' ' : CodePoint) then hostTokens? t
    else
      (HostToken.read? (c :: t)).bind fun r =>
        if r.2.length ≤ t.length then (hostTokens? r.2).map (r.1 :: ·) else none
termination_by t => t.length

/-! ### One token after another -/

namespace Text

theorem hostTokens?_space (t : Text) :
    hostTokens? ((' ' : CodePoint) :: t) = hostTokens? t := by
  rw [hostTokens?, if_pos rfl]

theorem hostTokens?_of_read? {c : CodePoint} {t rest : Text} {token : HostToken}
    (hc : c ≠ ' ') (h : HostToken.read? (c :: t) = some (token, rest))
    (hlength : rest.length ≤ t.length) :
    hostTokens? (c :: t) = (hostTokens? rest).map (token :: ·) := by
  rw [hostTokens?, if_neg hc, h, Option.bind_some]
  exact if_pos hlength

theorem apart_of_avoids {joins : CodePoint → Bool} {rest : Text} (h : rest.Avoids joins)
    (token : HostToken) : HostToken.apart joins (token, rest) = some (token, rest) := by
  rw [HostToken.apart, if_neg]
  cases rest with
  | nil => exact nofun
  | cons c t => exact Bool.eq_false_iff.1 (h c rfl)

/-- A word that is no numeral. -/
def isHostWord : Text → Bool
  | [] => false
  | c :: t => c.isWord && !c.isDigit && t.all CodePoint.isWord

theorem hostTokens?_word {w : Text} (hw : w.isHostWord = true) {token : HostToken}
    (htoken : HostToken.ofWord? w = some token) {rest : Text}
    (hrest : rest.Avoids CodePoint.joinsWord) :
    hostTokens? (w ++ rest) = (hostTokens? rest).map (token :: ·) := by
  match w, hw with
  | c :: t, hw =>
    rw [isHostWord, Bool.and_eq_true, Bool.and_eq_true, Bool.not_eq_true', List.all_eq_true] at hw
    obtain ⟨⟨hword, hdigit⟩, hall⟩ := hw
    have havoids : rest.Avoids CodePoint.isWord :=
      hrest.mono fun d hd => by rw [CodePoint.joinsWord, hd, Bool.true_or]
    rw [List.cons_append]
    refine hostTokens?_of_read? (CodePoint.ne_of_isWord hword (by decide)) ?_
      (List.suffix_append t rest).length_le
    rw [HostToken.read?, if_neg (CodePoint.not_isQuote_of_isWord hword),
      if_neg (Bool.eq_false_iff.1 hdigit), if_pos hword, havoids.takeWhile_append,
      havoids.dropWhile_append, List.takeWhile_eq_self_iff.2 hall,
      List.dropWhile_eq_nil_iff.2 hall, htoken]
    exact apart_of_avoids hrest token

theorem hostTokens?_numeral {w : Text} (hw : w.IsNumeral) {rest : Text}
    (hrest : rest.Avoids CodePoint.joinsHost) :
    hostTokens? (w ++ rest) = (hostTokens? rest).map (.number w :: ·) := by
  have hnumber : Lexeme.number? w = some (w, []) := hw.spells.1
  obtain ⟨c, t, rfl, hdigit⟩ := hw.exists_cons
  have hword := CodePoint.isWord_of_isDigit hdigit
  have havoids : rest.Avoids CodePoint.inNumber :=
    hrest.mono fun d hd => by rw [CodePoint.joinsHost, hd, Bool.or_true]
  rw [List.cons_append]
  refine hostTokens?_of_read? (CodePoint.ne_of_isWord hword (by decide)) ?_
    (List.suffix_append t rest).length_le
  rw [HostToken.read?, if_neg (CodePoint.not_isQuote_of_isWord hword), if_pos hdigit,
    ← List.cons_append, Lexeme.number?_append havoids, hnumber]
  exact apart_of_avoids hrest _

theorem hostTokens?_quoted (s : Text) {rest : Text} (hrest : rest.Avoids CodePoint.joinsHost) :
    hostTokens? (s.quoted ++ rest) = (hostTokens? rest).map (.string s :: ·) := by
  have hquote := s.isQuote_quoteFor
  have hrest? := quotedRest?_flatMap hquote s rest
  rw [quoted, between, List.cons_append, List.append_assoc, List.singleton_append]
  refine hostTokens?_of_read? ?_ ?_ ?_
  · rintro h
    rw [h] at hquote
    exact absurd hquote (by decide)
  · rw [HostToken.read?, if_pos hquote, hrest?, Option.bind_some]
    exact apart_of_avoids hrest _
  · rw [List.length_append, List.length_cons]
    omega

theorem hostTokens?_bracket {c : CodePoint} {token : HostToken}
    (h : HostToken.brackets.lookup c = some token) (rest : Text) :
    hostTokens? (c :: rest) = (hostTokens? rest).map (token :: ·) := by
  have hall : ∀ e ∈ HostToken.brackets, e.1 ≠ (' ' : CodePoint) ∧ e.1.isQuote = false
      ∧ e.1.isDigit = false ∧ e.1.isWord = false ∧ e.1.isSign = false := by decide
  obtain ⟨hspace, hquote, hdigit, hword, hsign⟩ := hall _ (mem_of_lookup h)
  refine hostTokens?_of_read? hspace ?_ (Nat.le_refl _)
  rw [HostToken.read?, if_neg (Bool.eq_false_iff.1 hquote), if_neg (Bool.eq_false_iff.1 hdigit),
    if_neg (Bool.eq_false_iff.1 hword), if_neg (Bool.eq_false_iff.1 hsign), h]
  rfl

theorem hostTokens?_sign {w : Text} {token : HostToken}
    (h : HostToken.signs.lookup w = some token) {rest : Text}
    (hrest : rest.Avoids CodePoint.isSign) :
    hostTokens? (w ++ rest) = (hostTokens? rest).map (token :: ·) := by
  have hall : ∀ e ∈ HostToken.signs, e.1 ≠ [] ∧ ∀ c ∈ e.1, c ≠ (' ' : CodePoint)
      ∧ c.isQuote = false ∧ c.isDigit = false ∧ c.isWord = false ∧ c.isSign = true := by decide
  obtain ⟨hne, hcs⟩ := hall _ (mem_of_lookup h)
  match w, hne with
  | c :: t, _ =>
    obtain ⟨⟨hspace, hquote, hdigit, hword, hsign⟩, ht⟩ := List.forall_mem_cons.1 hcs
    have hsigns : ∀ d ∈ t, d.isSign = true := fun d hd => (ht d hd).2.2.2.2
    rw [List.cons_append]
    refine hostTokens?_of_read? hspace ?_ (List.suffix_append t rest).length_le
    rw [HostToken.read?, if_neg (Bool.eq_false_iff.1 hquote), if_neg (Bool.eq_false_iff.1 hdigit),
      if_neg (Bool.eq_false_iff.1 hword), if_pos hsign, hrest.takeWhile_append,
      hrest.dropWhile_append, List.takeWhile_eq_self_iff.2 hsigns,
      List.dropWhile_eq_nil_iff.2 hsigns, h]
    rfl

end Text

/-! ### Texts from pieces -/

namespace Text

/-- The text is taken apart into `ts`, whatever stands behind it. -/
structure ScansAs (w : Text) (ts : List HostToken) : Prop where
  tokens : ∀ rest, hostTokens? (w ++ rest) = (hostTokens? rest).map (ts ++ ·)

/-- The text is taken apart into `ts` if nothing joins it from behind, and is no part of a sign. -/
structure ScansApart (w : Text) (ts : List HostToken) : Prop where
  head : w.head?.any (fun c => !c.isSign) = true
  tokens : ∀ rest, rest.Avoids CodePoint.joinsHost →
    hostTokens? (w ++ rest) = (hostTokens? rest).map (ts ++ ·)

/-- The text sets apart what stands before it. -/
def setsApart (w : Text) : Bool := w.head?.any fun c => !c.joinsHost

variable {w w' : Text} {ts ts' : List HostToken}

theorem any_head?_append_left {p : CodePoint → Bool} (h : w.head?.any p = true) (rest : Text) :
    (w ++ rest).head?.any p = true := by
  match w, h with
  | _ :: _, h => exact h

theorem avoids_of_head? {p : CodePoint → Bool} (h : w.head?.any (fun c => !p c) = true)
    (rest : Text) : Avoids p (w ++ rest) := by
  match w, h with
  | c :: t, h => exact .cons ((Bool.not_eq_true' _).mp h)

theorem append_comp (ts ts' : List HostToken) :
    (ts ++ ·) ∘ (ts' ++ ·) = ((ts ++ ts') ++ ·) :=
  funext fun us => (List.append_assoc ts ts' us).symm

namespace ScansAs

theorem nil : ScansAs [] [] := ⟨fun rest => (congrFun Option.map_id (hostTokens? rest)).symm⟩

theorem append (h : w.ScansAs ts) (h' : w'.ScansAs ts') : (w ++ w').ScansAs (ts ++ ts') := by
  refine ⟨fun rest => ?_⟩
  rw [List.append_assoc, h.tokens, h'.tokens, Option.map_map]
  exact congrFun (congrArg Option.map (append_comp ts ts')) _

theorem apart (h : w.ScansAs ts) (hhead : w.head?.any (fun c => !c.isSign) = true) :
    w.ScansApart ts :=
  ⟨hhead, fun rest _ => h.tokens rest⟩

theorem append_apart (h : w.ScansAs ts) (h' : w'.ScansApart ts')
    (hhead : w.head?.any (fun c => !c.isSign) = true) : (w ++ w').ScansApart (ts ++ ts') := by
  refine ⟨any_head?_append_left hhead w', fun rest hrest => ?_⟩
  rw [List.append_assoc, h.tokens, h'.tokens rest hrest, Option.map_map]
  exact congrFun (congrArg Option.map (append_comp ts ts')) _

theorem space : ScansAs " " [] :=
  ⟨fun rest => (hostTokens?_space rest).trans (congrFun Option.map_id (hostTokens? rest)).symm⟩

theorem bracket {c : CodePoint} {token : HostToken}
    (h : HostToken.brackets.lookup c = some token) : ScansAs [c] [token] :=
  ⟨hostTokens?_bracket h⟩

theorem leftParen : ScansAs "(" [.leftParen] := bracket (c := '(') rfl

theorem rightParen : ScansAs ")" [.rightParen] := bracket (c := ')') rfl

theorem leftBrace : ScansAs "\x7b" [.leftBrace] := bracket (c := '\x7b') rfl

theorem rightBrace : ScansAs "\x7d" [.rightBrace] := bracket (c := '\x7d') rfl

theorem comma : ScansAs ", " [.comma] := (bracket (c := ',') rfl).append space

theorem sign {token : HostToken} (h : HostToken.signs.lookup w = some token)
    (h' : w'.ScansAs ts') (hhead : w'.head?.any (fun c => !c.isSign) = true) :
    (w ++ w').ScansAs (token :: ts') := by
  refine ⟨fun rest => ?_⟩
  rw [List.append_assoc, hostTokens?_sign h (avoids_of_head? hhead rest), h'.tokens,
    Option.map_map]
  rfl

theorem colon : ScansAs ": " [.colon] := sign (w := [':']) rfl space rfl

theorem operator (op : Operator) (h' : w'.ScansAs ts') :
    ScansAs (" " ++ (op.text ++ (" " ++ w'))) (.operator op :: ts') := by
  refine space.append (sign ?_ (space.append h') rfl)
  cases op <;> rfl

end ScansAs

namespace ScansApart

theorem append (h : w.ScansApart ts) (h' : w'.ScansAs ts') (hapart : w'.setsApart = true) :
    (w ++ w').ScansAs (ts ++ ts') := by
  refine ⟨fun rest => ?_⟩
  rw [List.append_assoc, h.tokens _ (avoids_of_head? hapart rest), h'.tokens, Option.map_map]
  exact congrFun (congrArg Option.map (append_comp ts ts')) _

theorem word {token : HostToken} (hw : w.isHostWord = true)
    (htoken : HostToken.ofWord? w = some token) : w.ScansApart [token] where
  head := by
    match w, hw with
    | c :: t, hw =>
      rw [isHostWord, Bool.and_eq_true, Bool.and_eq_true] at hw
      rw [List.head?_cons, Option.any_some, CodePoint.isSign_of_isWord hw.1.1]
      rfl
  tokens _ hrest := hostTokens?_word hw htoken
    (hrest.mono fun c hc => by rw [CodePoint.joinsHost, hc, Bool.true_or])

theorem numeral (hw : w.IsNumeral) : w.ScansApart [.number w] where
  head := by
    obtain ⟨c, t, rfl, hdigit⟩ := hw.exists_cons
    rw [List.head?_cons, Option.any_some,
      CodePoint.isSign_of_isWord (CodePoint.isWord_of_isDigit hdigit)]
    rfl
  tokens _ hrest := hostTokens?_numeral hw hrest

theorem quoted (s : Text) : s.quoted.ScansApart [.string s] where
  head := by
    rw [Text.quoted, between, quoteFor]
    split <;> rfl
  tokens _ hrest := hostTokens?_quoted s hrest

end ScansApart

/-- What is taken of a name. -/
theorem ScansAs.member {x y : Text} (hx : x.isHostWord = true)
    (hname : HostToken.ofWord? x = some (.name x)) (hy : y.ScansApart [.name y])
    (h : w.ScansAs ts) (hapart : w.setsApart = true) :
    (x ++ ("." ++ (y ++ w))).ScansAs (.name x :: .dot :: .name y :: ts) := by
  have hdot : ScansAs ("." ++ (y ++ w)) (.dot :: .name y :: ts) :=
    sign rfl (hy.append h hapart) (any_head?_append_left hy.head w)
  refine ⟨fun rest => ?_⟩
  have hjoins : Avoids CodePoint.joinsWord (("." ++ (y ++ w)) ++ rest) := .cons (by decide)
  rw [List.append_assoc, hostTokens?_word hx hname hjoins, hdot.tokens, Option.map_map]
  rfl

theorem ScansAs.keyword {token : HostToken} (hw : w.isHostWord = true)
    (htoken : HostToken.ofWord? w = some token) : ScansAs (" " ++ (w ++ " ")) [token] :=
  space.append ((ScansApart.word hw htoken).append space rfl)

theorem ScansApart.entry (x : Text) (h : w.ScansApart ts) :
    (Text.concat [x.quoted, ": ", w]).ScansApart (.string x :: .colon :: ts) := by
  have hkey := (ScansApart.quoted x).append ScansAs.colon rfl
  have hentry := hkey.append_apart h (any_head?_append_left (ScansApart.quoted x).head _)
  rw [List.append_assoc, List.append_assoc] at hentry
  rw [Text.concat, List.flatten_cons, List.flatten_cons, List.flatten_cons, List.flatten_nil,
    List.append_nil]
  exact hentry

/-- Further items, each behind a comma, in front of more text. -/
theorem ScansAs.further {ws : List Text} {tss : List (List HostToken)}
    (h : List.Forall₂ ScansApart ws tss) (h' : w'.ScansAs ts') (hapart : w'.setsApart = true) :
    ScansAs ((ws.flatMap fun w => (", " : Text) ++ w) ++ w') (tss.flatMap (.comma :: ·) ++ ts')
      ∧ setsApart ((ws.flatMap fun w => (", " : Text) ++ w) ++ w') = true := by
  induction h with
  | nil => exact ⟨h', hapart⟩
  | cons h _ ih =>
    rw [List.flatMap_cons, List.flatMap_cons, List.append_assoc, List.append_assoc,
      List.append_assoc]
    exact ⟨comma.append (h.append ih.1 ih.2), rfl⟩

/-- Items with commas between them, in front of more text. -/
theorem ScansAs.join {w : Text} {ws : List Text} {ts : List HostToken}
    {tss : List (List HostToken)} (h : List.Forall₂ ScansApart (w :: ws) (ts :: tss))
    (h' : w'.ScansAs ts') (hapart : w'.setsApart = true) :
    ScansAs (Text.join ", " (w :: ws) ++ w') (ts ++ (tss.flatMap (.comma :: ·) ++ ts')) := by
  obtain ⟨hfirst, hfurther⟩ := List.forall₂_cons.1 h
  obtain ⟨hscans, hapart⟩ := ScansAs.further hfurther h' hapart
  rw [join_cons, List.append_assoc]
  exact hfirst.append hscans hapart

end Text

end Toplevel
