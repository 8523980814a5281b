import Toplevel.Proofs.Code.Names
import Toplevel.Proofs.Number.Distinct
import Toplevel.Proofs.Syntax.Layout
import Toplevel.Proofs.Syntax.Quoted
import Toplevel.Proofs.Value.PlainData

/-!
# Plain data with the same text

A tag is written right in front of a payload with a structure, and a reference is one: so the word
`ref` is read together with the tag. What stands behind the word then tells a reference to an atom
from nothing: it is displayed as the atom behind the longer tag. Apart from that, the text of plain
data tells what the data is (`PlainData.text_eq_iff`).
-/

namespace Toplevel

namespace Text

variable {s t u v : Text}

/-! ### Words, numerals and strings at the front of a text -/

theorem IsName.word?_append (hs : s.IsName) (hu : u.Avoids CodePoint.isWord) :
    Lexeme.word? (s ++ u) = some (s, u) := by
  have hword : Lexeme.word? s = some (s, []) := hs
  rw [Lexeme.word?_append (Lexeme.word?_splits hword).ne_nil hu, hword]
  rfl

theorem IsTag.tag?_append (hs : s.IsTag) (hu : u.Avoids CodePoint.isWord) :
    Lexeme.tag? (s ++ u) = some (s, u) := by
  have htag : Lexeme.tag? s = some (s, []) := hs
  rw [Lexeme.tag?_append (Lexeme.tag?_splits htag).ne_nil hu, htag]
  rfl

theorem IsNumeral.number?_append (hs : s.IsNumeral) (hu : u.Avoids CodePoint.inNumber) :
    Lexeme.number? (s ++ u) = some (s, u) := by
  have hnumber : Lexeme.number? s = some (s, []) := hs.spells.1
  rw [Lexeme.number?_append hu, hnumber]
  rfl

theorem string?_jsonQuoted_append (s u : Text) :
    Lexeme.string? (s.jsonQuoted ++ u) = some (s.jsonQuoted, u) := by
  have hstring : Lexeme.string? s.jsonQuoted = some (s.jsonQuoted, []) := s.spells_jsonQuoted.1
  rw [Lexeme.string?_append hstring]
  rfl

/-- Texts that are read to the same end from the same front are the same. -/
theorem append_inj_of_read {read : Text → Option Lexeme} (hs : read (s ++ u) = some (s, u))
    (ht : read (t ++ v) = some (t, v)) (h : s ++ u = t ++ v) : s = t ∧ u = v := by
  rw [h, ht] at hs
  exact Prod.mk.inj (Option.some.inj hs.symm)

theorem jsonQuoted_injective (h : s.jsonQuoted = t.jsonQuoted) : s = t := by
  have hinside : s.flatMap CodePoint.jsonEscape = t.flatMap CodePoint.jsonEscape := by
    have hrest := congrArg (fun w : Text => (w.drop 1).dropLast) h
    exact (List.dropLast_concat (b := ('"' : CodePoint))).symm.trans
      (hrest.trans List.dropLast_concat)
  exact Option.some.inj (by rw [← unescape?_jsonEscape s, hinside, unescape?_jsonEscape])

theorem IsName.exists_cons (hs : s.IsName) :
    ∃ c w, s = c :: w ∧ (c.isLower || c = ('_' : CodePoint)) = true := by
  have hword : Lexeme.word? s = some (s, []) := hs
  obtain ⟨c, w, rfl⟩ := List.exists_cons_of_ne_nil (Lexeme.word?_splits hword).1
  exact ⟨c, w, rfl, Lexeme.word?_head hword⟩

theorem IsTag.exists_cons (hs : s.IsTag) : ∃ w, s = ('`' : CodePoint) :: w := by
  have hspells : Terminal.tag.Spells s := ⟨hs, fun h => absurd h (by decide)⟩
  obtain ⟨c, w, rfl, hc⟩ := hspells.exists_cons
  exact ⟨w, congrArg (· :: w) (of_decide_eq_true hc)⟩

/-- More of a word behind a tag belongs to it. -/
theorem IsTag.append {w : Text} (hs : s.IsTag) (hw : ∀ c ∈ w, c.isWord = true) :
    (s ++ w).IsTag := by
  have htag : Lexeme.tag? s = some (s, []) := hs
  cases s with
  | nil => cases htag
  | cons c s =>
    rw [Lexeme.tag?] at htag
    split at htag
    · rename_i hc
      obtain ⟨htake, hdrop⟩ := Prod.mk.inj (Option.some.inj htag)
      have hs : ∀ d ∈ s, d.isWord = true := List.dropWhile_eq_nil_iff.1 hdrop
      have hall : ∀ d ∈ s ++ w, d.isWord = true := List.forall_mem_append.2 ⟨hs, hw⟩
      have hhead : (s ++ w).head?.any CodePoint.isWord = true := by
        cases s with
        | nil => simp at hc
        | cons d s => exact hs d List.mem_cons_self
      have hc : c = '`' := of_decide_eq_true (Bool.and_eq_true_iff.1 hc).1
      change Lexeme.tag? (c :: (s ++ w)) = _
      rw [Lexeme.tag?, hhead, hc, List.takeWhile_eq_self_iff.2 hall,
        List.dropWhile_eq_nil_iff.2 hall]
      rfl
    · cases htag

/-! ### Doubles at the front of a text -/

/-- A finite double is written as a numeral, with a sign in front of it or none. -/
theorem exists_isNumeral_ofFloat {x : Float} {negative : Bool} {m : Nat} {q : Int}
    (hx : Binary.ofFloat x = .finite negative m q) :
    ∃ s : Text, s.IsNumeral ∧ ofFloat x = signed negative s := by
  obtain ⟨hm, hlow, hhigh⟩ := Binary.bounds_of_ofFloat hx
  exact ⟨_, isNumeral_ofMagnitude hm hlow hhigh, by rw [ofFloat, ofFloatWith, hx]⟩

theorem signed_append_inj {negative negative' : Bool} (hs : s.IsNumeral) (ht : t.IsNumeral)
    (hu : u.Avoids CodePoint.inNumber) (hv : v.Avoids CodePoint.inNumber)
    (h : signed negative s ++ u = signed negative' t ++ v) :
    signed negative s = signed negative' t ∧ u = v := by
  have hminus : ∀ {s t u v : Text}, t.IsNumeral → ('-' : CodePoint) :: s ++ u ≠ t ++ v := by
    intro s t u v ht h
    obtain ⟨c, w, rfl, hc⟩ := ht.exists_cons
    rw [← (List.cons.inj h).1] at hc
    exact absurd hc (by decide)
  have hnumerals : ∀ {u v : Text}, u.Avoids CodePoint.inNumber → v.Avoids CodePoint.inNumber →
      s ++ u = t ++ v → s = t ∧ u = v := fun hu hv =>
    append_inj_of_read (hs.number?_append hu) (ht.number?_append hv)
  cases negative <;> cases negative'
  · exact hnumerals hu hv h
  · exact absurd h.symm (hminus hs)
  · exact absurd h (hminus ht)
  · obtain ⟨rfl, huv⟩ := hnumerals hu hv (List.cons.inj h).2
    exact ⟨rfl, huv⟩

theorem ofFloat_append_inj {x y : Float} {negative negative' : Bool} {m m' : Nat} {q q' : Int}
    (hx : Binary.ofFloat x = .finite negative m q) (hy : Binary.ofFloat y = .finite negative' m' q')
    (hu : u.Avoids CodePoint.inNumber) (hv : v.Avoids CodePoint.inNumber)
    (h : ofFloat x ++ u = ofFloat y ++ v) : x = y ∧ u = v := by
  obtain ⟨s, hs, hxs⟩ := exists_isNumeral_ofFloat hx
  obtain ⟨t, ht, hyt⟩ := exists_isNumeral_ofFloat hy
  rw [hxs, hyt] at h
  obtain ⟨htext, huv⟩ := signed_append_inj hs ht hu hv h
  exact ⟨eq_of_ofFloat_eq hx hy (by rw [hxs, hyt, htext]), huv⟩

end Text

/-! ### Data that can be told apart -/

/-- The kinds of plain data, which the first code point of its text tells. -/
inductive PlainData.Form where
  | bool
  | number
  | string
  | record
  | tagged
  | ref
deriving DecidableEq

namespace PlainData

def form : PlainData → Form
  | .bool _ => .bool
  | .number _ => .number
  | .string _ => .string
  | .record _ => .record
  | .tagged .. => .tagged
  | .ref _ => .ref

/-- A reference to an atom. -/
def isRefToAtom : PlainData → Bool
  | .ref content => !content.isComposite
  | _ => false

end PlainData

/-- The kind of plain data whose text starts like this. -/
def CodePoint.form (c : CodePoint) : PlainData.Form :=
  if c = 't' ∨ c = 'f' then .bool
  else if c = '"' then .string
  else if c = '\x7b' then .record
  else if c = '`' then .tagged
  else if c = 'r' then .ref
  else .number

theorem CodePoint.form_of_isDigit {c : CodePoint} (hc : c.isDigit = true) : c.form = .number := by
  have hne : ∀ d : CodePoint, d.isDigit = false → c ≠ d := by
    rintro d hd rfl
    cases hc.symm.trans hd
  rw [form, if_neg (not_or.2 ⟨hne _ (by decide), hne _ (by decide)⟩), if_neg (hne _ (by decide)),
    if_neg (hne _ (by decide)), if_neg (hne _ (by decide)), if_neg (hne _ (by decide))]

mutual

/-- Data that can be told from its text: numbers are finite, fields are called by names, and tags
are tags with no reference to an atom for their payload. -/
def PlainData.Clear : PlainData → Prop
  | .bool _ | .string _ => True
  | .number x => ∃ negative m q, Binary.ofFloat x = .finite negative m q
  | .record fields => fields.Clear
  | .tagged tag payload => tag.IsTag ∧ payload.isRefToAtom = false ∧ payload.Clear
  | .ref content => content.Clear

def PlainFields.Clear : PlainFields → Prop
  | .nil => True
  | .cons x d rest => x.IsName ∧ d.Clear ∧ rest.Clear

end

namespace PlainData

variable {d e : PlainData} {u v : Text}

theorem isComposite_eq_of_form (h : d.form = e.form) : d.isComposite = e.isComposite := by
  cases d <;> cases e <;> first | rfl | cases h

theorem tagText_cons (payload : PlainData) (c : CodePoint) (s : Text) :
    ∃ w, payload.tagText (c :: s) = c :: w := by
  rw [tagText]
  split <;> exact ⟨_, rfl⟩

theorem text_ref (content : PlainData) : (ref content).text = "ref " ++ content.text :=
  congrArg (("ref " : Text) ++ ·) (List.append_nil _)

theorem text_starts (hd : d.Clear) : ∃ c s, d.text = c :: s ∧ c.form = d.form := by
  cases d with
  | bool b => cases b <;> exact ⟨_, _, rfl, (by decide : CodePoint.form _ = .bool)⟩
  | number x =>
    obtain ⟨negative, m, q, hx⟩ := hd
    obtain ⟨s, hs, htext⟩ := Text.exists_isNumeral_ofFloat hx
    rw [text, htext]
    cases negative with
    | true => exact ⟨_, _, rfl, (by decide : CodePoint.form '-' = .number)⟩
    | false =>
      obtain ⟨c, w, rfl, hc⟩ := hs.exists_cons
      exact ⟨c, w, rfl, CodePoint.form_of_isDigit hc⟩
  | string t => exact ⟨_, _, rfl, (by decide : CodePoint.form '"' = .string)⟩
  | record fields => exact ⟨_, _, rfl, (by decide : CodePoint.form '\x7b' = .record)⟩
  | tagged tag payload =>
    obtain ⟨s, rfl⟩ := hd.1.exists_cons
    obtain ⟨w, hw⟩ := tagText_cons payload '`' s
    rw [text, hw]
    exact ⟨_, _, rfl, (by decide : CodePoint.form '`' = .tagged)⟩
  | ref content => exact ⟨_, _, rfl, (by decide : CodePoint.form 'r' = .ref)⟩

/-- Texts of plain data start alike only if the data are of one kind. -/
theorem form_eq_of_append (hd : d.Clear) (he : e.Clear) (h : d.text ++ u = e.text ++ v) :
    d.form = e.form := by
  obtain ⟨c, s, hdtext, hc⟩ := text_starts hd
  obtain ⟨c', s', hetext, hc'⟩ := text_starts he
  rw [hdtext, hetext] at h
  rw [← hc, ← hc', (List.cons.inj h).1]

/-- An atom does not start like anything with a structure. -/
theorem text_append_ne (hd : d.Clear) (he : e.Clear) (h : d.isComposite ≠ e.isComposite) :
    d.text ++ u ≠ e.text ++ v :=
  fun heq => h (isComposite_eq_of_form (form_eq_of_append hd he heq))

/-! ### What is read together with a tag -/

/-- What of a payload is read together with the tag in front of it: the word of a reference. -/
def joined : PlainData → Text
  | .ref _ => "ref"
  | _ => []

/-- What stands between a tag, with what is read together with it, and the end of its payload. -/
def behind (d : PlainData) : Text :=
  match d with
  | .ref content => (' ' : CodePoint) :: content.text
  | d => if d.isComposite then d.text else (' ' : CodePoint) :: d.text

/-- How a payload is written: an atom behind a blank, a reference as a word with a blank behind it,
and else with neither. -/
theorem behind_cases (hd : d.Clear) :
    (d.isComposite = false ∧ d.joined = [] ∧ d.behind = (' ' : CodePoint) :: d.text)
      ∨ (∃ content, d = .ref content)
      ∨ (d.isComposite = true ∧ d.joined = [] ∧ d.behind = d.text
        ∧ ∃ c s, d.text = c :: s ∧ c ≠ ' ' ∧ c.isWord = false) := by
  cases d with
  | bool | number | string => exact .inl ⟨rfl, rfl, rfl⟩
  | record fields => exact .inr (.inr ⟨rfl, rfl, rfl, _, _, rfl, by decide, by decide⟩)
  | tagged tag payload =>
    obtain ⟨s, rfl⟩ := hd.1.exists_cons
    obtain ⟨w, hw⟩ := tagText_cons payload '`' s
    refine .inr (.inr ⟨rfl, rfl, rfl, '`', w ++ payload.text, ?_, by decide, by decide⟩)
    rw [text, hw]
    rfl
  | ref content => exact .inr (.inl ⟨content, rfl⟩)

theorem text_tagged (tag : Text) {payload : PlainData} (hpayload : payload.Clear) :
    (tagged tag payload).text = (tag ++ payload.joined) ++ payload.behind := by
  rw [text, tagText]
  rcases behind_cases hpayload with ⟨hatom, hjoined, hbehind⟩ | ⟨content, rfl⟩ |
    ⟨hcomposite, hjoined, hbehind, -⟩
  · rw [hatom, hjoined, hbehind, List.append_nil]
    exact List.append_assoc tag [(' ' : CodePoint)] payload.text
  · rw [text_ref, List.append_assoc]
    rfl
  · rw [hcomposite, hjoined, hbehind, List.append_nil]
    rfl

theorem isTag_joined {tag : Text} (htag : tag.IsTag) (d : PlainData) :
    (tag ++ d.joined).IsTag := by
  refine htag.append fun c hc => ?_
  cases d with
  | ref =>
    have hword : ∀ c ∈ ("ref" : Text), c.isWord = true := by decide
    exact hword c hc
  | _ => cases hc

theorem avoids_behind (hd : d.Clear) (u : Text) :
    Text.Avoids CodePoint.isWord (d.behind ++ u) := by
  rcases behind_cases hd with ⟨-, -, hbehind⟩ | ⟨content, rfl⟩ | ⟨-, -, hbehind, c, s, htext, -, hc⟩
  · rw [hbehind]
    exact .cons (by decide)
  · exact .cons (by decide)
  · rw [hbehind, htext]
    exact .cons hc

/-- A tag and its payload are told from the text. -/
theorem tagged_append_inj {tag tag' : Text} (hd : (tagged tag d).Clear) (he : (tagged tag' e).Clear)
    (h : (tagged tag d).text ++ u = (tagged tag' e).text ++ v) :
    tag = tag' ∧ d.text ++ u = e.text ++ v := by
  obtain ⟨htag, hdref, hd⟩ := hd
  obtain ⟨htag', heref, he⟩ := he
  rw [text_tagged tag hd, text_tagged tag' he, List.append_assoc _ d.behind,
    List.append_assoc _ e.behind] at h
  obtain ⟨hword, hrest⟩ := Text.append_inj_of_read
    ((isTag_joined htag d).tag?_append (avoids_behind hd u))
    ((isTag_joined htag' e).tag?_append (avoids_behind he v)) h
  rcases behind_cases hd with ⟨hatom, hjoined, hbehind⟩ | ⟨content, rfl⟩ |
      ⟨-, hjoined, hbehind, c, s, htext, hc, -⟩ <;>
    rcases behind_cases he with ⟨hatom', hjoined', hbehind'⟩ | ⟨content', rfl⟩ |
      ⟨-, hjoined', hbehind', c', s', htext', hc', -⟩
  · rw [hjoined, hjoined', List.append_nil, List.append_nil] at hword
    rw [hbehind, hbehind'] at hrest
    exact ⟨hword, (List.cons.inj hrest).2⟩
  · rw [hbehind] at hrest
    have hcontent : content'.isComposite = true := by simpa [isRefToAtom] using heref
    exact absurd (List.cons.inj hrest).2 (text_append_ne hd he (by rw [hatom, hcontent]; decide))
  · rw [hbehind, hbehind', htext'] at hrest
    exact absurd (List.cons.inj hrest).1.symm hc'
  · rw [hbehind'] at hrest
    have hcontent : content.isComposite = true := by simpa [isRefToAtom] using hdref
    exact absurd (List.cons.inj hrest).2 (text_append_ne hd he (by rw [hatom', hcontent]; decide))
  · have hcontent : content.text ++ u = content'.text ++ v := (List.cons.inj hrest).2
    rw [text_ref, text_ref, List.append_assoc, List.append_assoc, hcontent]
    exact ⟨List.append_cancel_right hword, rfl⟩
  · rw [hbehind', htext'] at hrest
    exact absurd (List.cons.inj hrest).1.symm hc'
  · rw [hbehind, hbehind', htext] at hrest
    exact absurd (List.cons.inj hrest).1 hc
  · rw [hbehind, htext] at hrest
    exact absurd (List.cons.inj hrest).1 hc
  · rw [hjoined, hjoined', List.append_nil, List.append_nil] at hword
    rw [hbehind, hbehind'] at hrest
    exact ⟨hword, hrest⟩

end PlainData

/-! ### Telling data from its text -/

namespace PlainFields

theorem avoids_text (fs : PlainFields) (u : Text) :
    Text.Avoids CodePoint.inNumber (fs.text "; " ++ u) := by
  cases fs <;> exact .cons (by decide)

theorem text_cons_append (before x : Text) (d : PlainData) (rest : PlainFields) (u : Text) :
    (cons x d rest).text before ++ u
      = before ++ (x ++ ('=' : CodePoint) :: (d.text ++ (rest.text "; " ++ u))) := by
  simp only [text, Text.concat, List.flatten_cons, List.flatten_nil, List.append_assoc,
    List.append_nil]
  rfl

/-- No field starts like the end of the fields. -/
theorem text_ne_close {before x : Text} (hbefore : ('\x7d' : CodePoint) ∉ before) (hx : x.IsName)
    (d : PlainData) (rest : PlainFields) (u v : Text) :
    PlainFields.nil.text before ++ u ≠ (cons x d rest).text before ++ v := by
  intro h
  rw [text_cons_append] at h
  cases before with
  | nil =>
    obtain ⟨c, w, rfl, hc⟩ := hx.exists_cons
    rw [← (List.cons.inj h).1] at hc
    exact absurd hc (by decide)
  | cons c before =>
    have hc : '\x7d' = c := (List.cons.inj h).1
    exact hbefore (hc ▸ List.mem_cons_self)

end PlainFields

mutual

/-- Where data is told from the text, so is the end of it. -/
theorem PlainData.eq_of_append : ∀ {d e : PlainData}, d.Clear → e.Clear → ∀ {u v : Text},
    u.Avoids CodePoint.inNumber → v.Avoids CodePoint.inNumber → d.text ++ u = e.text ++ v →
      d = e ∧ u = v
  | .bool b, e, hd, he, u, v, _, _, h => by
    have hform := PlainData.form_eq_of_append hd he h
    cases e with
    | bool b' =>
      cases b <;> cases b'
      · exact ⟨rfl, List.append_cancel_left h⟩
      · exact absurd (List.cons.inj h).1 (by decide)
      · exact absurd (List.cons.inj h).1 (by decide)
      · exact ⟨rfl, List.append_cancel_left h⟩
    | _ => cases hform
  | .number x, e, hd, he, u, v, hu, hv, h => by
    have hform := PlainData.form_eq_of_append hd he h
    cases e with
    | number y =>
      obtain ⟨_, _, _, hx⟩ := hd
      obtain ⟨_, _, _, hy⟩ := he
      obtain ⟨rfl, huv⟩ := Text.ofFloat_append_inj hx hy hu hv h
      exact ⟨rfl, huv⟩
    | _ => cases hform
  | .string t, e, hd, he, u, v, _, _, h => by
    have hform := PlainData.form_eq_of_append hd he h
    cases e with
    | string t' =>
      obtain ⟨hquoted, huv⟩ := Text.append_inj_of_read (Text.string?_jsonQuoted_append t u)
        (Text.string?_jsonQuoted_append t' v) h
      rw [Text.jsonQuoted_injective hquoted]
      exact ⟨rfl, huv⟩
    | _ => cases hform
  | .record fields, e, hd, he, u, v, _, _, h => by
    have hform := PlainData.form_eq_of_append hd he h
    cases e with
    | record fields' =>
      obtain ⟨rfl, huv⟩ := fields.eq_of_append hd he List.not_mem_nil (List.cons.inj h).2
      exact ⟨rfl, huv⟩
    | _ => cases hform
  | .tagged tag payload, e, hd, he, u, v, hu, hv, h => by
    have hform := PlainData.form_eq_of_append hd he h
    cases e with
    | tagged tag' payload' =>
      obtain ⟨rfl, hrest⟩ := PlainData.tagged_append_inj hd he h
      obtain ⟨rfl, huv⟩ := payload.eq_of_append hd.2.2 he.2.2 hu hv hrest
      exact ⟨rfl, huv⟩
    | _ => cases hform
  | .ref content, e, hd, he, u, v, hu, hv, h => by
    have hform := PlainData.form_eq_of_append hd he h
    cases e with
    | ref content' =>
      rw [PlainData.text_ref, PlainData.text_ref, List.append_assoc, List.append_assoc] at h
      obtain ⟨rfl, huv⟩ := content.eq_of_append (e := content') hd he hu hv
        (List.append_cancel_left h)
      exact ⟨rfl, huv⟩
    | _ => cases hform

theorem PlainFields.eq_of_append : ∀ {fs gs : PlainFields}, fs.Clear → gs.Clear →
    ∀ {before u v : Text}, ('\x7d' : CodePoint) ∉ before →
      fs.text before ++ u = gs.text before ++ v → fs = gs ∧ u = v
  | .nil, .nil, _, _, _, u, v, _, h => ⟨rfl, List.append_cancel_left h⟩
  | .nil, .cons y e gs, _, ⟨hy, _⟩, before, u, v, hbefore, h =>
    absurd h (PlainFields.text_ne_close hbefore hy e gs u v)
  | .cons x d fs, .nil, ⟨hx, _⟩, _, before, u, v, hbefore, h =>
    absurd h.symm (PlainFields.text_ne_close hbefore hx d fs v u)
  | .cons x d fs, .cons y e gs, ⟨hx, hd, hfs⟩, ⟨hy, he, hgs⟩, before, u, v, hbefore, h => by
    rw [PlainFields.text_cons_append, PlainFields.text_cons_append] at h
    have hequals : ∀ w : Text, Text.Avoids CodePoint.isWord (('=' : CodePoint) :: w) :=
      fun _ => .cons (by decide)
    obtain ⟨rfl, hvalue⟩ := Text.append_inj_of_read (hx.word?_append (hequals _))
      (hy.word?_append (hequals _)) (List.append_cancel_left h)
    obtain ⟨rfl, hfields⟩ := d.eq_of_append hd he (fs.avoids_text u) (gs.avoids_text v)
      (List.cons.inj hvalue).2
    have hsemicolon : ('\x7d' : CodePoint) ∉ ("; " : Text) := by decide
    obtain ⟨rfl, huv⟩ := fs.eq_of_append hfs hgs hsemicolon hfields
    exact ⟨rfl, huv⟩

end

/-- Data that can be told from its text is the same if its text is. -/
theorem PlainData.eq_of_text_eq {d e : PlainData} (hd : d.Clear) (he : e.Clear)
    (h : d.text = e.text) : d = e :=
  (d.eq_of_append hd he .nil .nil (congrArg (· ++ []) h)).1

/-! ### Data with the same text -/

/-- A tag in front of a payload: a reference to an atom leaves its word to the tag. -/
def PlainData.under (tag : Text) (payload : PlainData) : PlainData :=
  match payload with
  | .ref content =>
    if content.isComposite then .tagged tag (.ref content)
    else .tagged (Text.concat [tag, "ref"]) content
  | payload => .tagged tag payload

mutual

/-- Data as it is read back from its text: a tag in front of a reference to an atom as the tag with
`ref` at its end in front of the atom. -/
def PlainData.merged : PlainData → PlainData
  | .bool b => .bool b
  | .number x => .number x
  | .string t => .string t
  | .record fields => .record fields.merged
  | .tagged tag payload => payload.merged.under tag
  | .ref content => .ref content.merged

def PlainFields.merged : PlainFields → PlainFields
  | .nil => .nil
  | .cons x d rest => .cons x d.merged rest.merged

end

mutual

/-- No tag has a reference to an atom for its payload. -/
def PlainData.Apart : PlainData → Prop
  | .bool _ | .number _ | .string _ => True
  | .record fields => fields.Apart
  | .tagged _ payload => payload.isRefToAtom = false ∧ payload.Apart
  | .ref content => content.Apart

def PlainFields.Apart : PlainFields → Prop
  | .nil => True
  | .cons _ d rest => d.Apart ∧ rest.Apart

end

theorem PlainData.under_of_apart {payload : PlainData} (h : payload.isRefToAtom = false)
    (tag : Text) : payload.under tag = .tagged tag payload := by
  unfold under
  split
  · rename_i content
    rw [isRefToAtom, Bool.not_eq_false'] at h
    rw [if_pos h]
  · rfl

mutual

/-- Where no tag has a reference to an atom for its payload, nothing is merged. -/
theorem PlainData.merged_of_apart : ∀ d : PlainData, d.Apart → d.merged = d
  | .bool _, _ | .number _, _ | .string _, _ => rfl
  | .record fields, h => congrArg PlainData.record (fields.merged_of_apart h)
  | .tagged tag payload, ⟨href, h⟩ => by
    rw [PlainData.merged, payload.merged_of_apart h, PlainData.under_of_apart href]
  | .ref content, h => congrArg PlainData.ref (content.merged_of_apart h)

theorem PlainFields.merged_of_apart : ∀ fs : PlainFields, fs.Apart → fs.merged = fs
  | .nil, _ => rfl
  | .cons x d rest, ⟨hd, hrest⟩ => by
    rw [PlainFields.merged, d.merged_of_apart hd, rest.merged_of_apart hrest]

end

mutual

/-- All numbers are finite. -/
def PlainData.Finite : PlainData → Prop
  | .bool _ | .string _ => True
  | .number x => ∃ negative m q, Binary.ofFloat x = .finite negative m q
  | .record fields => fields.Finite
  | .tagged _ payload => payload.Finite
  | .ref content => content.Finite

def PlainFields.Finite : PlainFields → Prop
  | .nil => True
  | .cons _ d rest => d.Finite ∧ rest.Finite

end

mutual

/-- Fields are called by names, and tags are tags. -/
def PlainData.Named : PlainData → Prop
  | .bool _ | .number _ | .string _ => True
  | .record fields => fields.Named
  | .tagged tag payload => tag.IsTag ∧ payload.Named
  | .ref content => content.Named

def PlainFields.Named : PlainFields → Prop
  | .nil => True
  | .cons x d rest => x.IsName ∧ d.Named ∧ rest.Named

end

namespace PlainData

theorem isComposite_under (payload : PlainData) (tag : Text) :
    (payload.under tag).isComposite = true := by
  unfold under
  split
  · split <;> rfl
  · rfl

theorem isComposite_merged (d : PlainData) : d.merged.isComposite = d.isComposite := by
  cases d with
  | tagged tag payload => exact isComposite_under _ _
  | _ => rfl

theorem text_under (payload : PlainData) (tag : Text) :
    (payload.under tag).text = (tagged tag payload).text := by
  unfold under
  split
  · rename_i content
    split
    · rfl
    · rename_i hatom
      have hblank : content.tagText (Text.concat [tag, "ref"]) = tag ++ "ref " := by
        rw [tagText, if_neg hatom]
        simp only [Text.concat, List.flatten_cons, List.flatten_nil, List.append_nil,
          List.append_assoc]
        rfl
      rw [text, text, hblank, text_ref, List.append_assoc]
      rfl
  · rfl

theorem clear_under {payload : PlainData} {tag : Text} (htag : tag.IsTag) (hd : payload.Clear) :
    (payload.under tag).Clear := by
  unfold under
  split
  · rename_i content
    split
    · rename_i hcomposite
      exact ⟨htag, by rw [isRefToAtom, hcomposite]; rfl, hd⟩
    · rename_i hatom
      have hword : Text.concat [tag, "ref"] = tag ++ (ref content).joined :=
        congrArg (tag ++ ·) (List.append_nil _)
      refine ⟨hword ▸ isTag_joined htag _, ?_, hd⟩
      cases content <;> first | rfl | exact absurd rfl hatom
  · rename_i href
    refine ⟨htag, ?_, hd⟩
    cases payload <;> first | rfl | exact absurd rfl (href _)

end PlainData

mutual

theorem PlainData.text_merged : ∀ d : PlainData, d.merged.text = d.text
  | .bool _ | .number _ | .string _ => rfl
  | .record fields => congrArg (('\x7b' : CodePoint) :: ·) (fields.text_merged [])
  | .tagged tag payload => by
    rw [PlainData.merged, PlainData.text_under, PlainData.text, PlainData.text, payload.text_merged,
      PlainData.tagText, PlainData.tagText, PlainData.isComposite_merged]
  | .ref content => by
    rw [PlainData.merged, PlainData.text_ref, PlainData.text_ref, content.text_merged]

theorem PlainFields.text_merged : ∀ (fs : PlainFields) (before : Text),
    fs.merged.text before = fs.text before
  | .nil, _ => rfl
  | .cons x d rest, before => by
    rw [PlainFields.merged, PlainFields.text, PlainFields.text, d.text_merged, rest.text_merged]

end

mutual

theorem PlainData.clear_merged : ∀ d : PlainData, d.Finite → d.Named → d.merged.Clear
  | .bool _, _, _ | .string _, _, _ => trivial
  | .number _, hx, _ => hx
  | .record fields, hfinite, hnamed => fields.clear_merged hfinite hnamed
  | .tagged _ payload, hfinite, ⟨htag, hnamed⟩ =>
    PlainData.clear_under htag (payload.clear_merged hfinite hnamed)
  | .ref content, hfinite, hnamed => content.clear_merged hfinite hnamed

theorem PlainFields.clear_merged : ∀ fs : PlainFields, fs.Finite → fs.Named → fs.merged.Clear
  | .nil, _, _ => trivial
  | .cons _ d rest, ⟨hd, hrest⟩, ⟨hx, hd', hrest'⟩ =>
    ⟨hx, d.clear_merged hd hd', rest.clear_merged hrest hrest'⟩

end

/-- Plain data has the same text exactly if it is the same when each tag takes the word of a
reference to an atom along. -/
theorem PlainData.text_eq_iff {d e : PlainData} (hd : d.Finite) (hd' : d.Named) (he : e.Finite)
    (he' : e.Named) : d.text = e.text ↔ d.merged = e.merged := by
  constructor
  · intro h
    refine PlainData.eq_of_text_eq (d.clear_merged hd hd') (e.clear_merged he he') ?_
    rw [d.text_merged, e.text_merged, h]
  · intro h
    rw [← d.text_merged, ← e.text_merged, h]

end Toplevel
