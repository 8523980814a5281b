import Toplevel.Proofs.Code.Regular

/-!
# The places that a program remembers

Where a variable of a program stands by its place, there its name stands in the source, as a token
of its own; and so does an operator (`parse_places`). A variable that is reported as unbound is one
of them.
-/

namespace Toplevel

/-! ### Tokens of a source -/

/-- A token stands in a text where it says, and a token of its kind is not any longer there. -/
def Token.StandsIn (token : Token) (s : Text) : Prop :=
  ∃ before after, s = before ++ (token.text ++ after) ∧ token.offset = before.length
    ∧ token.position = before.endPosition
    ∧ token.kind.lexeme? (token.text ++ after) = some (token.text, after)

namespace Cursor

variable {s : Text} {c c' : Cursor}

theorem Of.standsIn (hc : c.Of s) {admitted : Terminal → Bool} {token : Token}
    (htoken : c.token? admitted = some (token, c')) : token.StandsIn s := by
  obtain ⟨-, hlexeme, hoffset, hposition, -⟩ := token?_eq_some htoken
  obtain ⟨before, hs, hlength, hplace⟩ := hc
  have hsplits := (Terminal.lexeme?_eq_some hlexeme).1.2
  rw [← hsplits] at hlexeme hs
  exact ⟨before, c'.rest, hs, hoffset.trans hlength,
    hposition.trans (hplace.trans (Position.afterText_start before)), hlexeme⟩

theorem Reads.standsIn {q q' : Nat} {ts : List Token} {qs : List Nat}
    (h : c.Reads q ts qs c' q') (hc : c.Of s) : ∀ token ∈ ts, token.StandsIn s := by
  induction h with
  | refl => exact nofun
  | token htoken _ ih =>
    exact List.forall_mem_cons.2 ⟨hc.skip.standsIn htoken, ih (hc.skip.token? htoken)⟩

end Cursor

/-! ### Signs -/

/-- How a variable or an operator is spelled. -/
def Sign.text : Sign → Text
  | var x => x
  | op o => o.text

/-- The kind of token that spells it. -/
def Sign.kind : Sign → Terminal
  | var _ => .name
  | op o => o.kind

/-- What a token is in a tree is spelled as the token is. -/
theorem Token.IsRead.sign {token : Token} (h : token.IsRead) {sign : Sign}
    (hsign : token.kind.sign? token.text = some sign) :
    token.text = sign.text ∧ token.kind = sign.kind := by
  obtain ⟨y, hy⟩ := h
  obtain ⟨kind, text, offset, position⟩ := token
  have hall : ∀ kind ∈ [Terminal.compareOp, .caret, .plus, .minus, .productOp], ∀ w ∈ kind.marks,
      ∀ sign ∈ kind.sign? w, w = sign.text ∧ kind = sign.kind := by decide
  have hoperator : kind ∈ [Terminal.compareOp, .caret, .plus, .minus, .productOp] →
      text = sign.text ∧ kind = sign.kind := by
    intro hkind
    have hmarks : kind.marks ≠ [] := by
      revert hkind
      cases kind <;> decide
    rw [Terminal.lexeme?_of_marks hmarks] at hy
    exact hall kind hkind text (Lexeme.oneOf?_eq_some hy).1 sign hsign
  cases kind with
  | name =>
    cases hsign
    exact ⟨rfl, rfl⟩
  | compareOp | caret | plus | minus | productOp => exact hoperator (by decide)
  | _ => cases hsign

theorem exists_parse_of_unbound {source : Text} {d : Definitions} {x : Text} {q : Position}
    (h : compileSource source d = .error (.unbound x q)) :
    ∃ p, parse source = .ok p ∧ (x, q) ∈ p.vars := by
  rw [compileSource] at h
  rcases hp : parse source with e | p
  · rw [hp] at h
    cases h
  · rw [hp] at h
    have hhead := ((p.compile?_follows d).error_iff _).1 h
    have hunbound : (x, q) ∈ (p.violations d).filterMap CompileError.unbound? :=
      List.mem_filterMap.2 ⟨_, List.mem_of_mem_head? hhead, rfl⟩
    rw [p.unbound_violations] at hunbound
    exact ⟨p, rfl, p.free_sublist.subset (List.mem_filter.1 hunbound).1⟩

/-- Every variable and every operator of a program that is read stands by a place where a token of
the source spells it, in the order of the source; and a variable that is reported as unbound is
among them. -/
theorem parse_places {source : Text} {p : Program} (h : parse source = .ok p) :
    (∃ tree, Tree.ofSource source = .ok tree
        ∧ ∀ sign q, (sign, q) ∈ p.signs → ∃ token ∈ tree.tokens, token.StandsIn source
          ∧ token.position = q ∧ token.text = sign.text ∧ token.kind = sign.kind)
      ∧ p.signs.Pairwise (fun o o' => o.2.Before o'.2)
      ∧ p.vars = p.signs.filterMap Sign.var?
      ∧ p.vars.Pairwise (fun o o' => o.2.Before o'.2)
      ∧ ∀ d x q, compileSource source d = .error (.unbound x q) → (Sign.var x, q) ∈ p.signs
        ∧ (CompileError.unbound x q).message = Text.concat
          ["Unbound variable ", x, " at line ", Text.ofNat q.line, ", column ",
            Text.ofNat q.column] := by
  refine ⟨?_, parse_signs h, p.vars_eq, parse_vars h, fun d x q hunbound => ⟨?_, rfl⟩⟩
  · obtain ⟨tree, hsource, hmeaning⟩ := exists_of_parse h
    obtain ⟨c, _, hreads, -⟩ := Tree.ofSource_eq_ok_iff.1 hsource
    refine ⟨tree, hsource, fun sign q hmem => ?_⟩
    obtain ⟨token, htoken, hmap⟩ :=
      List.mem_filterMap.1 ((Tree.meaning?_signs hmeaning).subset hmem)
    obtain ⟨_, hsign, hpair⟩ := Option.map_eq_some_iff.1 hmap
    cases hpair
    obtain ⟨htext, hkind⟩ := (hreads.isRead token htoken).sign hsign
    exact ⟨token, htoken, hreads.standsIn (Cursor.of_start source) token htoken, rfl, htext, hkind⟩
  · obtain ⟨p', hp', hvars⟩ := exists_parse_of_unbound hunbound
    cases h.symm.trans hp'
    rw [p.vars_eq] at hvars
    obtain ⟨⟨sign, q'⟩, hsign, hvar⟩ := List.mem_filterMap.1 hvars
    cases sign <;> cases hvar
    exact hsign

theorem parse_places_recursive :
    ∃ q, parse "let rec x = x" = .ok ⟨[.define "x" (.var "x" q) true]⟩
      ∧ ∃ token : Token, token.StandsIn "let rec x = x" ∧ token.position = q ∧ token.text = "x"
        ∧ token.kind = .name := by
  obtain ⟨q, hq⟩ := eq_of_isDefinitionAsItself parse_definitions_of_x.2
  obtain ⟨⟨_, -, hplaces⟩, -⟩ := parse_places hq
  obtain ⟨token, -, htoken⟩ := hplaces (.var "x") q List.mem_cons_self
  exact ⟨q, hq, token, htoken⟩

end Toplevel
