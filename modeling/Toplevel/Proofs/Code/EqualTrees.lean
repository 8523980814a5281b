import Toplevel.Proofs.Syntax.TreeText
import Toplevel.Proofs.Syntax.Rendering

/-!
# Equal trees

Trees are equal if they are the same but for their places (`Program.same_iff`), and so if their
texts are the same. Code does not depend on places, and a rejection shows one only for an unbound
variable: equal trees have the same code, or are rejected alike (`equal_trees`).
-/

namespace Toplevel

/-! ### Equality -/

mutual

theorem Expr.same_iff : ∀ (e f : Expr), e.Named → f.Named →
    (e.same f ↔ e.unplaced = f.unplaced)
  | .number x, f, he, hf => by
    cases f with
    | number y =>
      simp only [Expr.same, Expr.unplaced, Expr.number.injEq, Binary.beq_iff he hf]
    | _ => exact ⟨nofun, nofun⟩
  | .string s, f, he, hf => by
    cases f with
    | string t =>
      simp only [Expr.same, Expr.unplaced, Expr.string.injEq, beq_iff_eq]
    | _ => exact ⟨nofun, nofun⟩
  | .bool a, f, he, hf => by
    cases f with
    | bool b =>
      simp only [Expr.same, Expr.unplaced, Expr.bool.injEq, beq_iff_eq]
    | _ => exact ⟨nofun, nofun⟩
  | .var x _, f, he, hf => by
    cases f with
    | var y _ =>
      simp only [Expr.same, Expr.unplaced, Expr.var.injEq, beq_iff_eq, and_true]
    | _ => exact ⟨nofun, nofun⟩
  | .func x b, f, he, hf => by
    cases f with
    | func y c =>
      simp only [Expr.same, Expr.unplaced, Expr.func.injEq, Bool.and_eq_true, beq_iff_eq,
        b.same_iff c he.2 hf.2]
    | _ => exact ⟨nofun, nofun⟩
  | .apply g a, f, he, hf => by
    cases f with
    | apply h b =>
      simp only [Expr.same, Expr.unplaced, Expr.apply.injEq, Bool.and_eq_true,
        g.same_iff h he.1 hf.1, a.same_iff b he.2 hf.2]
    | _ => exact ⟨nofun, nofun⟩
  | .letIn x v b, f, he, hf => by
    cases f with
    | letIn y w c =>
      simp only [Expr.same, Expr.unplaced, Expr.letIn.injEq, Bool.and_eq_true, beq_iff_eq,
        v.same_iff w he.2.1 hf.2.1, b.same_iff c he.2.2 hf.2.2, and_assoc]
    | _ => exact ⟨nofun, nofun⟩
  | .ifElse a b c, f, he, hf => by
    cases f with
    | ifElse a' b' c' =>
      simp only [Expr.same, Expr.unplaced, Expr.ifElse.injEq, Bool.and_eq_true,
        a.same_iff a' he.1 hf.1, b.same_iff b' he.2.1 hf.2.1, c.same_iff c' he.2.2 hf.2.2,
        and_assoc]
    | _ => exact ⟨nofun, nofun⟩
  | .matchWith s as, f, he, hf => by
    cases f with
    | matchWith t bs =>
      simp only [Expr.same, Expr.unplaced, Expr.matchWith.injEq, Bool.and_eq_true,
        s.same_iff t he.1 hf.1, as.same_iff bs he.2 hf.2]
    | _ => exact ⟨nofun, nofun⟩
  | .binary op _ l r, f, he, hf => by
    cases f with
    | binary op' _ l' r' =>
      simp only [Expr.same, Expr.unplaced, Expr.binary.injEq, Bool.and_eq_true, beq_iff_eq,
        l.same_iff l' he.1 hf.1, r.same_iff r' he.2 hf.2, and_assoc, true_and]
    | _ => exact ⟨nofun, nofun⟩
  | .neg a, f, he, hf => by
    cases f with
    | neg b =>
      simp only [Expr.same, Expr.unplaced, Expr.neg.injEq, a.same_iff b he hf]
    | _ => exact ⟨nofun, nofun⟩
  | .deref a, f, he, hf => by
    cases f with
    | deref b =>
      simp only [Expr.same, Expr.unplaced, Expr.deref.injEq, a.same_iff b he hf]
    | _ => exact ⟨nofun, nofun⟩
  | .assign t v, f, he, hf => by
    cases f with
    | assign u w =>
      simp only [Expr.same, Expr.unplaced, Expr.assign.injEq, Bool.and_eq_true,
        t.same_iff u he.1 hf.1, v.same_iff w he.2 hf.2]
    | _ => exact ⟨nofun, nofun⟩
  | .record fs, f, he, hf => by
    cases f with
    | record gs =>
      simp only [Expr.same, Expr.unplaced, Expr.record.injEq, fs.same_iff gs he hf]
    | _ => exact ⟨nofun, nofun⟩
  | .update b fs, f, he, hf => by
    cases f with
    | update c gs =>
      simp only [Expr.same, Expr.unplaced, Expr.update.injEq, Bool.and_eq_true,
        b.same_iff c he.1 hf.1, fs.same_iff gs he.2 hf.2]
    | _ => exact ⟨nofun, nofun⟩
  | .field b x, f, he, hf => by
    cases f with
    | field c y =>
      simp only [Expr.same, Expr.unplaced, Expr.field.injEq, Bool.and_eq_true, beq_iff_eq,
        b.same_iff c he hf]
    | _ => exact ⟨nofun, nofun⟩
  | .tagged t a, f, he, hf => by
    cases f with
    | tagged u b =>
      simp only [Expr.same, Expr.unplaced, Expr.tagged.injEq, Bool.and_eq_true, beq_iff_eq,
        a.same_iff b he.2 hf.2]
    | _ => exact ⟨nofun, nofun⟩
  | .newRef a, f, he, hf => by
    cases f with
    | newRef b =>
      simp only [Expr.same, Expr.unplaced, Expr.newRef.injEq, a.same_iff b he hf]
    | _ => exact ⟨nofun, nofun⟩

theorem Arms.same_iff : ∀ (as bs : Arms), as.Named → bs.Named →
    (as.same bs ↔ as.unplaced = bs.unplaced)
  | .nil, .nil, _, _ => ⟨fun _ => rfl, fun _ => rfl⟩
  | .nil, .cons .., _, _ => ⟨nofun, nofun⟩
  | .cons .., .nil, _, _ => ⟨nofun, nofun⟩
  | .cons _ x b rest, .cons _ y c rest', has, hbs => by
    simp only [Arms.same, Arms.unplaced, Arms.cons.injEq, Bool.and_eq_true, beq_iff_eq,
      b.same_iff c has.2.1 hbs.2.1, rest.same_iff rest' has.2.2 hbs.2.2, and_assoc]

theorem Fields.same_iff : ∀ (fs gs : Fields), fs.Named → gs.Named →
    (fs.same gs ↔ fs.unplaced = gs.unplaced)
  | .nil, .nil, _, _ => ⟨fun _ => rfl, fun _ => rfl⟩
  | .nil, .cons .., _, _ => ⟨nofun, nofun⟩
  | .cons .., .nil, _, _ => ⟨nofun, nofun⟩
  | .cons _ v rest, .cons _ w rest', hfs, hgs => by
    simp only [Fields.same, Fields.unplaced, Fields.cons.injEq, Bool.and_eq_true, beq_iff_eq,
      v.same_iff w hfs.2.1 hgs.2.1, rest.same_iff rest' hfs.2.2 hgs.2.2, and_assoc]

end

theorem Statement.same_iff (s t : Statement) (hs : s.Named) (ht : t.Named) :
    s.same t ↔ s.unplaced = t.unplaced := by
  cases s with
  | define x v recursive =>
    cases t with
    | define y w recursive' =>
      simp only [same, unplaced, define.injEq, Bool.and_eq_true, beq_iff_eq,
        v.same_iff w hs.2 ht.2, and_assoc]
    | expr f => exact iff_of_false Bool.false_ne_true (by rintro ⟨⟩)
  | expr e =>
    cases t with
    | define => exact iff_of_false Bool.false_ne_true (by rintro ⟨⟩)
    | expr f => simp only [same, unplaced, expr.injEq, e.same_iff f hs ht]

theorem statements_same_iff : ∀ {ss ts : List Statement}, (∀ s ∈ ss, s.Named) →
    (∀ t ∈ ts, t.Named) →
    ((ss.length == ts.length && (List.zipWith Statement.same ss ts).all id)
      ↔ ss.map Statement.unplaced = ts.map Statement.unplaced)
  | [], [], _, _ => ⟨fun _ => rfl, fun _ => rfl⟩
  | [], _ :: _, _, _ => ⟨nofun, nofun⟩
  | _ :: _, [], _, _ => ⟨nofun, nofun⟩
  | s :: ss, t :: ts, hss, hts => by
    obtain ⟨hs, hss⟩ := List.forall_mem_cons.1 hss
    obtain ⟨ht, hts⟩ := List.forall_mem_cons.1 hts
    have hrest := statements_same_iff hss hts
    simp only [Bool.and_eq_true, beq_iff_eq] at hrest
    simp only [List.length_cons, List.zipWith_cons_cons, List.all_cons, id, List.map_cons,
      List.cons.injEq, Bool.and_eq_true, beq_iff_eq, Nat.add_right_cancel_iff, ← hrest,
      ← s.same_iff t hs ht]
    exact and_left_comm

/-- Programs are equal if they are the same but for their places. -/
theorem Program.same_iff {p q : Program} (hp : p.Named) (hq : q.Named) :
    p.same q ↔ p.unplaced = q.unplaced := by
  rw [same, statements_same_iff hp.statements hq.statements, unplaced, unplaced, mk.injEq]

/-! ### Code -/

/-- Rejections with the same message but for the place of an unbound variable. -/
inductive CompileError.SameButPlace : CompileError → CompileError → Prop
  | same (e : CompileError) : SameButPlace e e
  | unbound (x : Text) (p q : Position) : SameButPlace (.unbound x p) (.unbound x q)

theorem CompileError.sameButPlace_of_placed {f : Position → Position} {e e' : CompileError}
    (h : e.placed f id = e'.placed f id) : e.SameButPlace e' := by
  cases e with
  | unbound x p =>
    cases e' with
    | unbound y q =>
      obtain ⟨rfl, -⟩ := CompileError.unbound.inj h
      exact .unbound x p q
    | _ => cases h
  | _ =>
    cases e' <;> cases h
    exact .same _

/-- Programs that are the same but for their places have the same code, or are rejected alike. -/
theorem Program.compile?_of_unplaced_eq {p q : Program} (h : p.unplaced = q.unplaced)
    (d : Definitions) :
    (∃ r, p.compile? d = .ok r ∧ q.compile? d = .ok r)
      ∨ ∃ e e', p.compile? d = .error e ∧ q.compile? d = .error e' ∧ e.SameButPlace e' := by
  have hp := p.compile?_placed (fun _ => Position.start) id d
  have hq := q.compile?_placed (fun _ => Position.start) id d
  rw [← unplaced_eq] at hp hq
  rw [h, hq] at hp
  cases hcp : p.compile? d with
  | ok r =>
    cases hcq : q.compile? d with
    | ok r' =>
      rw [hcp, hcq] at hp
      cases hp
      exact .inl ⟨r, rfl, rfl⟩
    | error e =>
      rw [hcp, hcq] at hp
      cases hp
  | error e =>
    cases hcq : q.compile? d with
    | ok r =>
      rw [hcp, hcq] at hp
      cases hp
    | error e' =>
      rw [hcp, hcq] at hp
      exact .inr ⟨e, e', rfl, rfl, CompileError.sameButPlace_of_placed (Except.error.inj hp).symm⟩

/-- The trees of two sources are equal just if their texts are, and then the sources have the same
code in every session, or are rejected with the same message but for the line and the column. -/
theorem equal_trees {source source' : Text} {p q : Program} (hp : parse source = .ok p)
    (hq : parse source' = .ok q) :
    (p.same q ↔ p.text = q.text)
      ∧ (p.same q → ∀ d,
        (∃ r, compileSource source d = .ok r ∧ compileSource source' d = .ok r)
          ∨ ∃ e e', compileSource source d = .error e ∧ compileSource source' d = .error e'
            ∧ e.SameButPlace e') := by
  have hnamed := parse_named hp
  have hnamed' := parse_named hq
  refine ⟨(Program.same_iff hnamed hnamed').trans (Program.text_eq_iff hnamed hnamed').symm,
    fun h d => ?_⟩
  rw [compileSource, compileSource, hp, hq]
  exact Program.compile?_of_unplaced_eq ((Program.same_iff hnamed hnamed').1 h) d

/-- The texts of two definitions of one name. -/
theorem equal_trees_definitions : ∃ p q, parse "let x = true" = .ok p
    ∧ parse "let rec x = x" = .ok q ∧ p.text ≠ q.text := by
  have hp := eq_of_isDefinitionAsTrue parse_definitions_of_x.1
  obtain ⟨position, hq⟩ := eq_of_isDefinitionAsItself parse_definitions_of_x.2
  refine ⟨_, _, hp, hq, fun h => ?_⟩
  have hsame : Program.same _ _ = true := (equal_trees hp hq).1.2 h
  cases hsame

end Toplevel
