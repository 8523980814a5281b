import Toplevel.Proofs.Interaction.Alike
import Toplevel.Proofs.Syntax.Rendering
import Toplevel.Proofs.Syntax.Rewriting

/-!
# Programs that are rewritten in one place

If an expression somewhere in a program is replaced by one that it is like, then what the program
becomes is accepted wherever the program is (`compileSource_of_rewrites`), and it is answered
alike, and so is all that follows (`Interaction.answers_of_rewrites`), wherever the names stand.
-/

namespace Toplevel

/-- The program of a source is accepted. -/
def Accepted (source : Text) (d : Definitions) : Prop :=
  ∃ c e, compileSource source d = .ok (c, e)

theorem accepted_of_parse {source : Text} {p : Program} (hp : parse source = .ok p)
    {d e : Definitions} {c : Compiled} (hc : p.compile? d = .ok (c, e)) : Accepted source d :=
  ⟨c, e, by rw [compileSource, hp]; exact hc⟩

section

variable {R : Expr → Expr → Prop}
  (hR : ∀ e e', R e e' → ∀ scope : List Text, e.Alike anyName (.same scope) e')

include hR

variable {source source' : Text} {p q r : Program}

theorem compileSource_of_rewrites (hp : parse source = .ok p) (hq : parse source' = .ok q)
    (h : p.unplaced.Rewrites R r) (hplaces : q.unplaced = r.unplaced) {d e : Definitions}
    {c : Compiled} (hc : compileSource source d = .ok (c, e)) :
    ∃ c' e', compileSource source' d = .ok (c', e') ∧ c.Alike id c'
      ∧ e.Renumbered anyName id e' := by
  rw [compileSource, hp] at hc
  obtain ⟨⟨c', e'⟩, hc', halike, he⟩ := Program.compile?_alike (.refl anyName d) (h.alike hR)
    (Program.compile?_of_unplaced p.unplaced_unplaced hc)
  refine ⟨c', e', ?_, halike, he⟩
  rw [compileSource, hq]
  exact Program.compile?_of_unplaced hplaces hc'

/-- A program that is accepted and what it becomes are answered alike, and so is all that
follows. -/
theorem Interaction.answers_of_rewrites (hp : parse source = .ok p) (hq : parse source' = .ok q)
    (h : p.unplaced.Rewrites R r) (hplaces : q.unplaced = r.unplaced) (before : List Action)
    {a a' : Action} (hs : a.source? = some source) (hs' : a'.source? = some source')
    (hfresh : a'.isFresh = a.isFresh) :
    let i := (start .empty).acts .standard before
    Accepted source (i.definitionsFor a) → Accepted source' (i.definitionsFor a')
      ∧ ∀ as, i.answers .standard (a' :: as) = i.answers .standard (a :: as) := by
  rintro i ⟨c, e, hc⟩
  obtain ⟨c', e', hc', halike, he⟩ := compileSource_of_rewrites hR hp hq h hplaces hc
  refine ⟨⟨c', e', ?_⟩, answers_of_alike before hs hs' hfresh hc hc' halike he⟩
  rw [definitionsFor, hfresh]
  exact hc'

end

end Toplevel
