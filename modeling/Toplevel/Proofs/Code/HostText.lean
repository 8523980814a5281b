import Toplevel.Proofs.Code.Legible
import Toplevel.Proofs.Code.Naming
import Toplevel.Proofs.Host.Expr

/-!
# What the text of code is for the host

The text of legible code is taken apart at the places where it has been put together, whatever
strings, fields and tags are in it, and the host reads it as the expression that the code is
(`Compiled.hostExpr?_text`).
-/

namespace Toplevel

/-! ### Code as an expression of the host -/

def HostExpr.runtime (x : Text) : HostExpr := .member (.name "_rt") x

mutual

def Code.host : Code → HostExpr
  | .number x =>
    match Binary.ofFloat x with
    | .nan => .name "_nan"
    | .infinite negative => if negative then .negate (.name "_inf") else .name "_inf"
    | .finite .. => .number (Text.ofFloat x)
  | .string s => .string s
  | .bool b => .truth b
  | .localVar x => .name (localText x)
  | .globalVar g => .name g.text
  | .lambda x b => .lambda (localText x) b.host
  | .call f a => .call f.host [a.host]
  | .ifElse c y n => .conditional y.host c.host n.host
  | .matchOn s cs => .call (.runtime "match") (s.host :: .dict cs.hostEntries :: cs.hostOtherwise)
  | .binary op l r => .binary op l.host r.host
  | .remainder l r => .call (.runtime "mod") [l.host, r.host]
  | .neg a => .negate a.host
  | .deref a => .call (.runtime "deref") [a.host]
  | .assign t v => .call (.runtime "assign") [t.host, v.host]
  | .record es => .call (.name "Record") [.dict es.host]
  | .extend b es => .call (.runtime "extend") [b.host, .dict es.host]
  | .field b x => .call (.runtime "field") [b.host, .string x]
  | .tagged t p => .call (.name "Tagged") [.string t, p.host]
  | .newRef a => .call (.name "Ref") [a.host]

def Cases.hostEntries : Cases → List (Text × HostExpr)
  | .nil | .otherwise _ _ => []
  | .cons tag x b rest => (tag, .lambda (localText x) b.host) :: rest.hostEntries

def Cases.hostOtherwise : Cases → List HostExpr
  | .nil => []
  | .otherwise x b => [.lambda (localText x) b.host]
  | .cons _ _ _ rest => rest.hostOtherwise

def Entries.host : Entries → List (Text × HostExpr)
  | .nil => []
  | .cons x v rest => (x, v.host) :: rest.host

end

def Step.host : Step → HostExpr
  | .define g v => .call (.name "_define") [.string g.text, v.host]
  | .expr c => c.host

def Compiled.host (c : Compiled) : HostExpr :=
  match c.steps with
  | [s] => s.host
  | steps => .last (.tuple (steps.map Step.host))

/-! ### Names -/

theorem Text.IsName.isWord {x : Text} (h : x.IsName) : ∀ c ∈ x, c.isWord = true := by
  match x, h with
  | c :: t, h =>
    simp only [IsName, Terminal.lexeme?, Lexeme.word?] at h
    split at h
    · rename_i hc
      have ht : t.takeWhile CodePoint.isWord = t :=
        (List.cons.inj (congrArg Prod.fst (Option.some.inj h))).2
      refine List.forall_mem_cons.2 ⟨?_, List.takeWhile_eq_self_iff.1 ht⟩
      rw [Bool.or_eq_true, decide_eq_true_eq] at hc
      rcases hc with hc | rfl
      · rw [CodePoint.isWord, hc]
        rfl
      · rfl
    · cases h

/-- No reserved word has an underscore. -/
theorem HostToken.ofWord?_of_mem {w : Text} (h : ('_' : CodePoint) ∈ w) :
    ofWord? w = some (name w) := by
  have hreserved : ∀ e ∈ reserved, ('_' : CodePoint) ∉ e.1 := by decide
  have hother : ∀ w ∈ otherWords, ('_' : CodePoint) ∉ w := by decide
  rw [ofWord?, List.lookup_eq_none_iff.2, if_neg fun hw => hother w hw h]
  intro e he
  rw [bne_iff_ne]
  rintro rfl
  exact hreserved e he h

theorem scansApart_localText {x : Text} (h : x.IsName) :
    (localText x).ScansApart [.name (localText x)] := by
  refine .word ?_ (HostToken.ofWord?_of_mem ?_)
  · rw [localText_eq, Text.isHostWord]
    exact (Bool.true_and _).trans (List.all_eq_true.2 (List.forall_mem_cons.2 ⟨rfl, h.isWord⟩))
  · rw [localText_eq]
    exact List.mem_cons_of_mem _ List.mem_cons_self

theorem Global.scansApart_text {g : Global} (h : g.name.IsName) :
    g.text.ScansApart [.name g.text] := by
  refine .word ?_ (HostToken.ofWord?_of_mem ?_)
  · rw [text_eq, Text.isHostWord]
    refine (Bool.true_and _).trans (List.all_eq_true.2 (List.forall_mem_append.2
      ⟨fun c hc => ?_, List.forall_mem_cons.2 ⟨rfl, h.isWord⟩⟩))
    exact CodePoint.isWord_of_isDigit (Text.allDigits_ofNat _ c hc)
  · rw [text_eq]
    exact List.mem_cons_of_mem _ (List.mem_append_right _ List.mem_cons_self)

/-! ### Texts -/

open Text Text.ScansAs

theorem scansApart_numberText {x : Float} (h : (Binary.ofFloat x).Unsigned) :
    (numberText x).ScansApart (Code.number x).host.tokens := by
  rw [Code.host, numberText]
  match hx : Binary.ofFloat x, h with
  | .infinite _, rfl => exact .word rfl rfl
  | .finite _ _ _, rfl => exact .numeral (Text.isNumeral_ofFloat hx)

theorem scansAs_constructor (x : Text) (hword : x.isHostWord = true)
    (hname : HostToken.ofWord? x = some (.name x)) :
    ScansAs (x ++ "(") ((HostExpr.name x).tokens ++ [.leftParen]) :=
  (ScansApart.word hword hname).append leftParen rfl

theorem scansAs_runtime (x : Text) (hword : x.isHostWord = true)
    (hname : HostToken.ofWord? x = some (.name x)) :
    ScansAs ("_rt" ++ ("." ++ (x ++ "("))) ((HostExpr.runtime x).tokens ++ [.leftParen]) :=
  member rfl rfl (.word hword hname) leftParen rfl

/-- A call of what stands in front, with one argument. -/
theorem scansAs_call_one {f a : Text} {g e : HostExpr}
    (hf : f.ScansAs (g.tokens ++ [.leftParen])) (ha : a.ScansApart e.tokens) :
    (f ++ (a ++ ")")).ScansAs (HostExpr.call g [e]).tokens := by
  have h := hf.append (ha.append rightParen rfl)
  rwa [List.append_assoc] at h

theorem scansAs_call_two {f a b : Text} {g e e' : HostExpr}
    (hf : f.ScansAs (g.tokens ++ [.leftParen])) (ha : a.ScansApart e.tokens)
    (hb : b.ScansApart e'.tokens) :
    (f ++ (a ++ (", " ++ (b ++ ")")))).ScansAs (HostExpr.call g [e, e']).tokens := by
  have h := hf.append (ha.append (comma.append (hb.append rightParen rfl)) rfl)
  rw [HostExpr.tokens, HostExpr.furtherTokens, HostExpr.furtherTokens, List.append_nil]
  rwa [List.append_assoc] at h

theorem scansAs_lambda {x body : Text} {ts : List HostToken} (hx : x.IsName)
    (hbody : body.ScansApart ts) : (Text.lambda x body).ScansAs
      (.leftParen :: .lambda :: .name (localText x) :: .colon :: (ts ++ [.rightParen])) :=
  leftParen.append ((ScansApart.word (w := "lambda") rfl rfl).append (space.append
    ((scansApart_localText hx).append (colon.append (hbody.append rightParen rfl)) rfl)) rfl)

theorem scansAs_braced {ws : List Text} {es : List (Text × HostExpr)}
    (h : List.Forall₂ ScansApart ws (es.map HostExpr.entryToken)) :
    (Text.braced ws).ScansAs (HostExpr.dict es).tokens := by
  match ws, es, h with
  | [], [], _ => exact leftBrace.append rightBrace
  | w :: ws, e :: es, h =>
    have hscans := leftBrace.append (ScansAs.join h rightBrace rfl)
    rw [← HostExpr.furtherEntryTokens_eq] at hscans
    exact hscans

variable {ops : List HostOperator}

mutual

theorem Code.scansApart : ∀ {c : Code}, c.Legible ops → c.text.ScansApart c.host.tokens
  | .number _, h => scansApart_numberText h
  | .string s, _ => .quoted s
  | .bool true, _ => .word rfl rfl
  | .bool false, _ => .word rfl rfl
  | .localVar _, h => scansApart_localText h
  | .globalVar _, h => Global.scansApart_text h
  | .lambda x b, h => (scansAs_lambda h.1 (Code.scansApart h.2)).apart rfl
  | .call f a, h => by
    have hf := Code.scansApart h.1
    have ha := Code.scansApart h.2
    exact (hf.append (leftParen.append (ha.append rightParen rfl)) rfl).apart
      (any_head?_append_left hf.head _)
  | .ifElse c y n, h => by
    have hc := Code.scansApart h.1
    have hy := Code.scansApart h.2.1
    have hn := Code.scansApart h.2.2
    exact (leftParen.append (hy.append ((keyword (w := "if") rfl rfl).append
      (hc.append ((keyword (w := "else") rfl rfl).append (hn.append rightParen rfl)) rfl))
        rfl)).apart rfl
  | .matchOn s cs, h => by
    have hs := Code.scansApart h.1
    have hentries := scansAs_braced (Cases.forall_scansApart h.2)
    have hcall := (scansAs_runtime "match" rfl rfl).append (hs.append
      (comma.append (hentries.append (Cases.scansAs_otherwise h.2))) rfl)
    rw [Code.host, HostExpr.tokens, HostExpr.furtherTokens, List.cons_append, List.append_assoc]
    rw [List.append_assoc] at hcall
    exact hcall.apart rfl
  | .binary op l r, h => by
    have hl := Code.scansApart h.2.1
    have hr := Code.scansApart h.2.2
    exact (leftParen.append (hl.append (operator op (hr.append rightParen rfl)) rfl)).apart rfl
  | .remainder l r, h => by
    have hl := Code.scansApart h.1
    have hr := Code.scansApart h.2
    exact (scansAs_call_two (scansAs_runtime "mod" rfl rfl) hl hr).apart rfl
  | .neg a, h => by
    have ha := Code.scansApart h.2
    exact (leftParen.append (sign (w := "-") rfl (ha.append rightParen rfl)
      (any_head?_append_left ha.head _))).apart rfl
  | .deref a, h => by
    have ha : a.text.ScansApart a.host.tokens := Code.scansApart h
    exact (scansAs_call_one (scansAs_runtime "deref" rfl rfl) ha).apart rfl
  | .assign t v, h => by
    have ht := Code.scansApart h.1
    have hv := Code.scansApart h.2
    exact (scansAs_call_two (scansAs_runtime "assign" rfl rfl) ht hv).apart rfl
  | .record es, h => by
    have hes := (scansAs_braced (Entries.forall_scansApart h)).apart rfl
    exact (scansAs_call_one (scansAs_constructor "Record" rfl rfl) hes).apart rfl
  | .extend b es, h => by
    have hb := Code.scansApart h.1
    have hes := (scansAs_braced (Entries.forall_scansApart h.2)).apart rfl
    exact (scansAs_call_two (scansAs_runtime "extend" rfl rfl) hb hes).apart rfl
  | .field b x, h => by
    have hb : b.text.ScansApart b.host.tokens := Code.scansApart h
    have hx : x.quoted.ScansApart (HostExpr.string x).tokens := .quoted x
    exact (scansAs_call_two (scansAs_runtime "field" rfl rfl) hb hx).apart rfl
  | .tagged t p, h => by
    have hp : p.text.ScansApart p.host.tokens := Code.scansApart h
    have ht : t.quoted.ScansApart (HostExpr.string t).tokens := .quoted t
    exact (scansAs_call_two (scansAs_constructor "Tagged" rfl rfl) ht hp).apart rfl
  | .newRef a, h => by
    have ha : a.text.ScansApart a.host.tokens := Code.scansApart h
    exact (scansAs_call_one (scansAs_constructor "Ref" rfl rfl) ha).apart rfl

theorem Cases.forall_scansApart : ∀ {cs : Cases}, cs.Legible ops →
    List.Forall₂ ScansApart cs.texts (cs.hostEntries.map HostExpr.entryToken)
  | .nil, _ | .otherwise _ _, _ => .nil
  | .cons tag _ _ _, h =>
    .cons (.entry tag ((scansAs_lambda h.1 (Code.scansApart h.2.1)).apart rfl))
      (Cases.forall_scansApart h.2.2)

theorem Cases.scansAs_otherwise : ∀ {cs : Cases}, cs.Legible ops →
    (cs.otherwiseText ++ ")").ScansAs (HostExpr.furtherTokens cs.hostOtherwise ++ [.rightParen])
  | .nil, _ => rightParen
  | .otherwise _ _, h => by
    have hlambda := scansAs_lambda h.1 (Code.scansApart h.2)
    have hscans := comma.append (hlambda.append rightParen)
    rw [Cases.hostOtherwise, HostExpr.furtherTokens, HostExpr.furtherTokens, List.append_nil,
      Cases.otherwiseText, Text.concat, List.flatten_cons, List.flatten_cons, List.flatten_nil,
      List.append_nil, List.append_assoc]
    exact hscans
  | .cons _ _ _ rest, h => by
    have hrest := Cases.scansAs_otherwise (show rest.Legible ops from h.2.2)
    exact hrest

theorem Entries.forall_scansApart : ∀ {es : Entries}, es.Legible ops →
    List.Forall₂ ScansApart es.texts (es.host.map HostExpr.entryToken)
  | .nil, _ => .nil
  | .cons x _ _, h => .cons (.entry x (Code.scansApart h.1)) (Entries.forall_scansApart h.2)

end

/-! ### Programs -/

theorem Step.scansApart {s : Step} (h : s.code.Legible ops) : s.text.ScansApart s.host.tokens := by
  cases s with
  | expr c => exact Code.scansApart h
  | define g v =>
    have hv : v.text.ScansApart v.host.tokens := Code.scansApart h
    have hg : g.text.quoted.ScansApart (HostExpr.string g.text).tokens := .quoted _
    exact (scansAs_call_two (scansAs_constructor "_define" rfl rfl) hg hv).apart rfl

theorem scansAs_last : ScansAs ")[-1]"
    [.rightParen, .leftBracket, .operator .minus, .number "1", .rightBracket] := by
  have hdigits : ∀ c ∈ Text.ofString "1", c.isDigit = true := by decide
  have hone : Text.IsNumeral "1" := ⟨"1", [], [], nofun, hdigits, Or.inl rfl, Or.inl rfl, rfl⟩
  have hindex := (ScansApart.numeral hone).append (bracket (c := ']') rfl) rfl
  exact rightParen.append ((bracket (c := '[') rfl).append (sign (w := "-") rfl hindex rfl))

/-- Several steps in a row, of which the last is taken. -/
theorem scansAs_steps {s s' : Step} {ss : List Step}
    (h : ∀ t ∈ s :: s' :: ss, ∃ ops, t.code.Legible ops) :
    (Compiled.mk (s :: s' :: ss)).text.ScansAs (Compiled.mk (s :: s' :: ss)).host.tokens := by
  have hall : List.Forall₂ ScansApart ((s :: s' :: ss).map Step.text)
      (((s :: s' :: ss).map Step.host).map HostExpr.tokens) := by
    rw [List.map_map, List.forall₂_map_left_iff, List.forall₂_map_right_iff, List.forall₂_same]
    exact fun t ht => (h t ht).elim fun _ ht => Step.scansApart ht
  have hjoin := leftParen.append (ScansAs.join hall scansAs_last rfl)
  rw [← HostExpr.furtherTokens_eq] at hjoin
  rw [Compiled.host, HostExpr.tokens, List.map_cons, List.map_cons, HostExpr.tokens,
    List.cons_append, List.append_assoc, List.append_assoc]
  · exact hjoin
  · exact nofun

/-- The host reads the text of a program as the expression that its code is. -/
theorem Compiled.hostExpr?_text {c : Compiled} (hne : c.steps ≠ [])
    (h : ∀ s ∈ c.steps, ∃ ops, s.code.Legible ops) : c.text.hostExpr? = some c.host := by
  have hscans : c.text.ScansApart c.host.tokens := by
    match c, hne with
    | ⟨[s]⟩, _ =>
      obtain ⟨ops, hs⟩ := h s List.mem_cons_self
      exact Step.scansApart hs
    | ⟨s :: s' :: ss⟩, _ => exact (scansAs_steps h).apart rfl
  have htokens := hscans.tokens [] nofun
  rw [List.append_nil, hostTokens?, Option.map_some, List.append_nil] at htokens
  rw [Text.hostExpr?, htokens, Option.bind_some, HostExpr.ofTokens?_tokens]

end Toplevel
