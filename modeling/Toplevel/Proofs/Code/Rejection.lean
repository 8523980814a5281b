import Toplevel.Proofs.Syntax.Trimmed

/-!
# Where a text is rejected

The line and the column that a rejection names are those of a place of the compiled text
(`compileSource_place`).
-/

namespace Toplevel

/-- The place that an error names. -/
def CompileError.position? : CompileError → Option Position
  | parse e => some e.position
  | unbound _ p => some p
  | repeatedField _ | unreachableArm | repeatedTag _ => none

/-- Where a code point of the text stands, or its end. -/
def Text.Place (t : Text) (q : Position) : Prop :=
  ∃ before, before <+: t ∧ q = Position.start.afterText before

theorem Text.Place.counted {t : Text} {q : Position} (h : t.Place q) : q.Counted := by
  obtain ⟨before, -, rfl⟩ := h
  exact Position.counted_start.afterText before

/-! ### Reading -/

section

variable {s : Text} {c : Cursor}

theorem Cursor.Of.place (h : c.Of s) : s.Place c.position := by
  obtain ⟨before, rfl, -, hposition⟩ := h
  exact ⟨before, List.prefix_append .., hposition⟩

theorem Cursor.Of.token_place (h : c.Of s) {admitted : Terminal → Bool} {token : Token}
    {c' : Cursor} (htoken : c.token? admitted = some (token, c')) : s.Place token.position := by
  obtain ⟨-, -, -, hposition, -⟩ := token?_eq_some htoken
  exact hposition ▸ h.place

theorem Cursor.Reads.place {c' : Cursor} {q q' : Nat} {ts : List Token} {qs : List Nat}
    (h : c.Reads q ts qs c' q') (hc : c.Of s) : ∀ token ∈ ts, s.Place token.position := by
  induction h with
  | refl => exact nofun
  | token htoken _ ih =>
    intro token hmem
    rcases List.mem_cons.1 hmem with rfl | hmem
    · exact hc.skip.token_place htoken
    · exact ih (hc.skip.token? htoken) token hmem

theorem readFrom_error_place {fuel : Nat} {stack : Stack} {last : Option Token} {e : SyntaxError}
    (h : readFrom s fuel c stack last = .error e) (hc : c.Of s)
    (hlast : ∀ token ∈ last, s.Place token.position) : s.Place e.position := by
  induction fuel generalizing c stack last with
  | zero =>
    cases h
    exact hc.place
  | succ fuel ih =>
    cases hrest : c.skip.rest with
    | nil =>
      cases hcomplete : stack.complete? with
      | some tree => cases h.symm.trans (readFrom_complete hrest hcomplete)
      | none =>
        rw [Except.error.inj (h.symm.trans (readFrom_unfinished hrest hcomplete))]
        cases last with
        | some token => exact hlast token rfl
        | none => exact ⟨[], List.nil_prefix, rfl⟩
    | cons ch rest =>
      cases htoken : c.skip.token? stack.state.accepts with
      | some r =>
        obtain ⟨token, c'⟩ := r
        have hplace := hc.skip.token_place htoken
        cases hfeed : stack.feed? token with
        | some stack' =>
          rw [readFrom_token hrest htoken hfeed] at h
          refine ih h (hc.skip.token? htoken) fun _ hmem => ?_
          cases hmem
          exact hplace
        | none =>
          rw [Except.error.inj (h.symm.trans (readFrom_refused hrest htoken hfeed))]
          exact hplace
      | none =>
        cases hany : c.skip.token? fun _ => true with
        | some r =>
          rw [Except.error.inj (h.symm.trans (readFrom_misplaced hrest htoken hany))]
          exact hc.skip.token_place hany
        | none =>
          rw [Except.error.inj (h.symm.trans (readFrom_character hrest htoken hany))]
          exact hc.skip.place

end

/-! ### Compiling -/

theorem Tree.placed_eq_self {f : Position → Position} {s : Symbol} (tree : Tree s)
    (h : ∀ token ∈ tree.tokens, f token.position = token.position) : tree.placed f id = tree := by
  revert h
  refine @Tree.rec
    (fun s tree => (∀ token ∈ tree.tokens, f token.position = token.position) →
      tree.placed f id = tree)
    (fun ss forest => (∀ token ∈ forest.tokens, f token.position = token.position) →
      forest.placed f id = forest)
    ?leaf ?node ?nil ?cons _ tree
  case leaf =>
    intro token h
    obtain ⟨kind, text, offset, position⟩ := token
    exact @congrArg _ (Tree (.terminal kind)) _ _ (fun q => leaf ⟨kind, text, offset, q⟩)
      (h _ List.mem_cons_self)
  case node =>
    intro p children ih h
    rw [placed, ih h]
  case nil =>
    intro _
    rfl
  case cons =>
    intro s ss tree rest ihTree ihRest h
    rw [Forest.placed, ihTree fun token htoken => h token (List.mem_append_left _ htoken),
      ihRest fun token htoken => h token (List.mem_append_right _ htoken)]

/-- What compiling a source comes to, by its derivation. -/
theorem compileSource_eq (s : Text) (d : Definitions) : compileSource s d =
    match Tree.ofSource s with
    | .error e => .error (.parse (.unexpected e))
    | .ok tree =>
      match tree.meaning? with
      | .error e => .error (.parse (.badEscape e))
      | .ok p => p.compile? d := by
  rw [compileSource, parse]
  rcases Tree.ofSource s with e | tree
  · rfl
  · dsimp only
    cases tree.meaning? <;> rfl

theorem compileSource_of_error {s : Text} {e : SyntaxError} (h : Tree.ofSource s = .error e)
    (d : Definitions) : compileSource s d = .error (.parse (.unexpected e)) := by
  rw [compileSource_eq, h]

theorem compileSource_of_badEscape {s : Text} {tree : Tree (.nonterminal .program)} {e : BadEscape}
    (h : Tree.ofSource s = .ok tree) (he : tree.meaning? = .error e) (d : Definitions) :
    compileSource s d = .error (.parse (.badEscape e)) := by
  simp only [compileSource_eq, h, he]

theorem compileSource_of_meaning {s : Text} {tree : Tree (.nonterminal .program)} {p : Program}
    (h : Tree.ofSource s = .ok tree) (hp : tree.meaning? = .ok p) (d : Definitions) :
    compileSource s d = p.compile? d := by
  simp only [compileSource_eq, h, hp]

/-- A place that an error names is one of the compiled text. -/
theorem compileSource_place {t : Text} {d : Definitions} {e : CompileError} {q : Position}
    (h : compileSource t d = .error e) (hq : e.position? = some q) : t.Place q := by
  classical
  rcases hsource : Tree.ofSource t with e' | tree
  · rw [compileSource_of_error hsource] at h
    cases h
    cases hq
    exact readFrom_error_place hsource (Cursor.of_start t) nofun
  -- If every place of the text stays and all others move, the derivation is the same and so is the
  -- error; the place that it names stays, then.
  let f : Position → Position := fun q => if t.Place q then q else ⟨q.line + 1, q.column⟩
  have hf : ∀ q, f q = q → t.Place q := by
    intro q hfix
    by_contra hplace
    have hline := congrArg Position.line hfix
    simp only [f, if_neg hplace] at hline
    omega
  have htree : tree.placed f id = tree := by
    obtain ⟨c, q, hreads, -⟩ := Tree.ofSource_eq_ok_iff.1 hsource
    exact tree.placed_eq_self fun token hmem => if_pos (hreads.place (Cursor.of_start t) token hmem)
  have hmeaning := tree.meaning?_placed f id
  rw [htree] at hmeaning
  cases hm : tree.meaning? with
  | error e' =>
    rw [hm] at hmeaning
    cases h.symm.trans (compileSource_of_badEscape hsource hm d)
    cases hq
    exact hf _ (congrArg (fun e => e.literal.position) (Except.error.inj hmeaning)).symm
  | ok p =>
    rw [hm] at hmeaning
    have hp : Program.placed f p = p := (Except.ok.inj hmeaning).symm
    -- Compiling a program never gives an error of the reading, so such errors may go anywhere.
    have hcompile := Program.compile?_placed f
      (fun _ => .unexpected (.ofPlace t .endOfInput 0 .start)) p d
    rw [hp, ← compileSource_of_meaning hsource hm, h] at hcompile
    have he := Except.error.inj hcompile
    cases e with
    | parse e =>
      cases hq
      rw [CompileError.parse.inj he]
      exact ⟨[], List.nil_prefix, rfl⟩
    | unbound x p =>
      cases hq
      exact hf _ (CompileError.unbound.inj he).2.symm
    | repeatedField _ | unreachableArm | repeatedTag _ => cases hq

end Toplevel
