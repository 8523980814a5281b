import Toplevel.Proofs.Syntax.Rendering
import Toplevel.Proofs.Value.Data

/-!
# The text of data is a program

Data is displayed as an expression that has this data for its value. Nothing is in parentheses: a
tag may stand in front of a record, of a literal or of another tag, and the text is read as the
tokens that are displayed (`Data.laysOut`) and these as the expression (`Data.denotes`).
-/

namespace Toplevel

open Toplevel.Tree

/-! ### Data that can be read -/

def DataFields.names : DataFields → List Text
  | .nil => []
  | .cons x _ rest => x :: rest.names

mutual

/-- Numbers are finite and without a sign, and their texts denote them; the names of fields are
names and no keywords, and differ from each other; tags are tags. -/
def Data.WellFormed : Data → Prop
  | .bool _ | .string _ => True
  | .number x =>
    (∃ m q, Binary.ofFloat x = .finite false m q) ∧ floatOfLiteral (Text.ofFloat x) = x
  | .record fields => fields.WellFormed
  | .tagged tag payload => tag.IsTag ∧ payload.WellFormed

def DataFields.WellFormed : DataFields → Prop
  | .nil => True
  | .cons x d rest =>
    Terminal.name.Spells x ∧ x ∉ rest.names ∧ d.WellFormed ∧ rest.WellFormed

end

mutual

/-- The expression for data. -/
def Data.expr : Data → Expr
  | .bool b => .bool b
  | .number x => .number x
  | .string t => .string t
  | .record fields => .record fields.exprs
  | .tagged tag payload => .tagged tag payload.expr

def DataFields.exprs : DataFields → Fields
  | .nil => .nil
  | .cons x d rest => .cons x d.expr rest.exprs

end

mutual

/-- The tokens of data as it is displayed. -/
def Data.words : Data → List Token
  | .bool b => [if b then mark .kwTrue else mark .kwFalse]
  | .number x => [word .number (Text.ofFloat x)]
  | .string t => [word .string t.jsonQuoted]
  | .record fields => mark .leftBrace :: (fields.words [] ++ [mark .rightBrace])
  | .tagged tag payload => word .tag tag :: payload.words

/-- Fields with `before` in front of the first and a semicolon in front of the others. -/
def DataFields.words (before : List Token) : DataFields → List Token
  | .nil => []
  | .cons x d rest =>
    before ++ word .name x :: mark .equals :: (d.words ++ rest.words [mark .semicolon])

end

/-! ### The tokens write the expression -/

mutual

/-- Data is written as a simple expression, or as a tag with what belongs to it. -/
theorem Data.writes : ∀ d : Data, d.WellFormed →
    Nonterminal.simple.Writes d.words d.expr ∨ Nonterminal.tagged.Writes d.words d.expr
  | .bool true, _ => .inl (Production.trueLit.writes (.last (Symbol.writes_mark _ rfl))).simple
  | .bool false, _ => .inl (Production.falseLit.writes (.last (Symbol.writes_mark _ rfl))).simple
  | .number x, ⟨⟨m, q, hx⟩, hback⟩ => by
    have hreads : ReadsBack x := ⟨by rw [hx]; rfl, fun _ => hback⟩
    have hliteral : Text.literal x = Text.ofFloat x := if_neg (by rw [hx]; nofun)
    have hnumber := Expr.writes_number hreads
    rw [hliteral] at hnumber
    exact .inl hnumber.simple
  | .string t, _ => .inl (Production.string.writes (.last (Symbol.writes_jsonQuoted t))).simple
  | .record .nil, _ =>
    .inl (Production.recordEmpty.writes (.mark rfl (.last (Symbol.writes_mark _ rfl)))).simple
  | .record (.cons x d rest), ⟨hx, _, hd, hrest⟩ => by
    have hrecord := (DataFields.further rest hrest).record hx (d.writes_expr hd)
    simp only [Data.words, DataFields.words, List.nil_append, List.cons_append, List.append_assoc]
    exact .inl hrecord.simple
  | .tagged tag payload, ⟨htag, hpayload⟩ => by
    rcases payload.writes hpayload with hsimple | htagged
    · exact .inr (Production.taggedSimple.writes (.word (by decide) ⟨htag, nofun⟩ (.last hsimple)))
    · exact .inr (Production.taggedTagged.writes (.word (by decide) ⟨htag, nofun⟩ (.last htagged)))

theorem Data.writes_expr (d : Data) (hd : d.WellFormed) :
    Nonterminal.expr.Writes d.words d.expr := by
  rcases d.writes hd with hsimple | htagged
  · exact hsimple.call.unary.product.sum.concat.compare.assign.expr
  · exact htagged.callTagged.unary.product.sum.concat.compare.assign.expr

theorem DataFields.further : ∀ fs : DataFields, fs.WellFormed →
    fs.exprs.Further (fs.words [mark .semicolon])
  | .nil, _ => .nil
  | .cons _ d rest, ⟨hx, _, hd, hrest⟩ => (rest.further hrest).cons hx (d.writes_expr hd)

end

/-! ### The text lays out the tokens -/

/-- What data starts with is not read together with an equals sign in front of it, nor with a tag
if it has a structure. -/
theorem Data.text_starts {d : Data} (hd : d.WellFormed) :
    ∃ c s, d.text = c :: s ∧ c ≠ '=' ∧ (d.isComposite = true → c.isWord = false) := by
  cases d with
  | bool b => cases b <;> exact ⟨_, _, rfl, by decide, nofun⟩
  | number x =>
    obtain ⟨⟨m, q, hx⟩, -⟩ := hd
    obtain ⟨c, s, hs, hc⟩ := (Text.isNumeral_ofFloat hx).spells.exists_cons
    refine ⟨c, s, hs, ?_, nofun⟩
    rintro rfl
    cases hc
  | string t => exact ⟨_, _, rfl, by decide, nofun⟩
  | record fields => exact ⟨_, _, rfl, by decide, fun _ => rfl⟩
  | tagged tag payload =>
    have hspells : Terminal.tag.Spells tag := ⟨hd.1, nofun⟩
    obtain ⟨c, s, rfl, hc⟩ := hspells.exists_cons
    have hquote : c = '`' := of_decide_eq_true hc
    subst hquote
    rw [text, tagText]
    split <;> exact ⟨_, _, rfl, by decide, fun _ => rfl⟩

/-- Behind a field stands nothing that a token is read together with. -/
theorem DataFields.text_ends (fs : DataFields) (u : Text) (t : Terminal) :
    Text.Avoids t.continues (fs.text "; " ++ u) := by
  cases fs with
  | nil => exact .cons (Terminal.not_continues_of_ends (Or.inr rfl) t)
  | cons x d rest => exact .cons (Terminal.not_continues_of_ends (Or.inl rfl) t)

theorem Text.LaysOut.field {x s : Text} {ss : List Token} (hx : Terminal.name.Spells x)
    (hs : s.Avoids Terminal.equals.continues) (h : s.LaysOut ss) :
    LaysOut (x ++ ('=' : CodePoint) :: s) (word .name x :: mark .equals :: ss) :=
  .token (word .name x) hx (.cons rfl)
    (.token (mark .equals) (Terminal.spells_of_spelling (by decide)) hs h)

mutual

theorem Data.laysOut : ∀ d : Data, d.WellFormed → ∀ {u : Text} {us : List Token},
    (∀ t : Terminal, u.Avoids t.continues) → u.LaysOut us →
      Text.LaysOut (d.text ++ u) (d.words ++ us)
  | .bool b, _, u, us, hu, h => by
    cases b with
    | true => exact .token (mark .kwTrue) (Terminal.spells_of_spelling (by decide)) (hu _) h
    | false => exact .token (mark .kwFalse) (Terminal.spells_of_spelling (by decide)) (hu _) h
  | .number x, ⟨⟨m, q, hx⟩, _⟩, u, us, hu, h =>
    .token (word .number _) (Text.isNumeral_ofFloat hx).spells (hu _) h
  | .string t, _, u, us, hu, h => .token (word .string _) t.spells_jsonQuoted (hu _) h
  | .record fields, hd, u, us, hu, h => by
    have hfields := fields.laysOut hd [] [] (fun hs => hs) h
    simp only [Data.words, List.cons_append, List.append_assoc]
    exact .token (mark .leftBrace) (Terminal.spells_of_spelling (by decide)) (fun _ _ => rfl)
      hfields
  | .tagged tag payload, ⟨htag, hpayload⟩, u, us, hu, h => by
    have hspells : Terminal.tag.Spells tag := ⟨htag, nofun⟩
    have hrest := payload.laysOut hpayload hu h
    rw [Data.text, Data.tagText, List.append_assoc]
    split
    · rename_i hcomposite
      obtain ⟨c, s, htext, -, hword⟩ := Data.text_starts hpayload
      refine .token (word .tag tag) hspells ?_ hrest
      rw [htext]
      exact .cons (hword hcomposite)
    · have hspace : Text.concat [tag, " "] = tag ++ [(' ' : CodePoint)] := rfl
      rw [hspace, List.append_assoc]
      exact .token (word .tag tag) hspells (Text.avoids_space _ _) hrest.space

theorem DataFields.laysOut : ∀ fs : DataFields, fs.WellFormed →
    ∀ (before : Text) (ts : List Token),
      (∀ {s : Text} {ss : List Token}, s.LaysOut ss → Text.LaysOut (before ++ s) (ts ++ ss)) →
      ∀ {u : Text} {us : List Token}, u.LaysOut us →
        Text.LaysOut (fs.text before ++ u) (fs.words ts ++ mark .rightBrace :: us)
  | .nil, _, before, ts, _, u, us, h =>
    .token (mark .rightBrace) (Terminal.spells_of_spelling (by decide)) (fun _ _ => rfl) h
  | .cons x d rest, ⟨hx, _, hd, hrest⟩, before, ts, hbefore, u, us, h => by
    have hfurther := rest.laysOut hrest "; " [mark .semicolon]
      (fun hs => .token (mark .semicolon) (Terminal.spells_of_spelling (by decide))
        (fun _ _ => rfl) hs.space) h
    have hvalue := d.laysOut hd (rest.text_ends u) hfurther
    obtain ⟨c, s, htext, hc, -⟩ := Data.text_starts hd
    have hequals : Text.Avoids Terminal.equals.continues (d.text ++ (rest.text "; " ++ u)) := by
      rw [htext]
      exact .cons (decide_eq_false hc)
    have hfield := hbefore (hvalue.field hx hequals)
    simp only [DataFields.text, DataFields.words, Text.concat, List.flatten_cons, List.flatten_nil,
      List.append_assoc, List.cons_append, List.append_nil]
    exact hfield

end

/-- The text of data says its expression. -/
theorem Data.denotes (d : Data) (hd : d.WellFormed) : d.text.Denotes [.expr d.expr] := by
  have hlayout := d.laysOut hd (fun _ => .nil) (.nil (List.forall_mem_nil _))
  have hstatement := Production.statementExpr.writes (.last (d.writes_expr hd))
  have hprogram : Nonterminal.program.Writes d.words (⟨[.expr d.expr]⟩ : Program) :=
    Production.program.writes (.last (Production.statementsOne.writes (.last hstatement)))
  rw [List.append_nil, List.append_nil] at hlayout
  obtain ⟨q, hq, hunplaced⟩ := hlayout.parse hprogram
  exact ⟨q.statements, hq, congrArg Program.statements hunplaced⟩

end Toplevel
