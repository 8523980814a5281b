import Toplevel.Proofs.Interaction.Rewritten
import Toplevel.Proofs.Syntax.Renaming

/-!
# Local names are hygienic

How a local name is spelled makes no difference: a program in which a binder is renamed, with the
occurrences that it binds, is a program too, is accepted wherever the first one is and is answered
alike, with all that follows (`Interaction.local_names_hygienic`).
-/

namespace Toplevel

/-- A local binder may be given any other name that is no keyword, together with exactly the
occurrences that it binds, if the name is not free in the scope and is not captured there: the
program has a source then, and any source of it is accepted where the program was, and answered
alike, with all that follows. -/
theorem Interaction.local_names_hygienic {source : Text} {p q : Program} {y : Text}
    (hp : parse source = .ok p) (hy : Terminal.name.Spells y)
    (h : p.unplaced.Rewrites (Expr.Rebinds y) q) :
    (∃ source' q', parse source' = .ok q' ∧ q'.unplaced = q.unplaced)
      ∧ ∀ source' q', parse source' = .ok q' → q'.unplaced = q.unplaced →
        ∀ (before : List Action) (a a' : Action), a.source? = some source →
          a'.source? = some source' → a'.isFresh = a.isFresh →
            let i := (start .empty).acts .standard before
            Accepted source (i.definitionsFor a) → Accepted source' (i.definitionsFor a')
              ∧ ∀ as, i.answers .standard (a' :: as) = i.answers .standard (a :: as) :=
  ⟨exists_parse_of_rebinds hy hp h, fun _ _ hq hplaces before _ _ hs hs' hfresh =>
    answers_of_rewrites Expr.Rebinds.alike hp hq h hplaces before hs hs' hfresh⟩

/-- A parameter that is named like a global of the code. -/
theorem Interaction.local_names_hygienic_global :
    Accepted "( fun g1_x -> g1_x ) true" .empty
      ∧ answers .standard (start .empty) [.submit "( fun g1_x -> g1_x ) true"]
        = answers .standard (start .empty) [.submit "( fun x -> x ) true"] := by
  have hx : Terminal.name.Spells "x" := by decide
  have hg : Terminal.name.Spells "g1_x" := by decide
  let one : Program := ⟨[.expr (.apply (.func "x" (.var "x" .start)) (.bool true))]⟩
  let two : Program := ⟨[.expr (.apply (.func "g1_x" (.var "g1_x" .start)) (.bool true))]⟩
  have hone : one.Writable :=
    ⟨List.cons_ne_nil _ _, List.forall_mem_singleton.2 ⟨⟨hx, hx⟩, trivial⟩⟩
  have htwo : two.Writable :=
    ⟨List.cons_ne_nil _ _, List.forall_mem_singleton.2 ⟨⟨hg, hg⟩, trivial⟩⟩
  obtain ⟨p, hp, hpone⟩ := (Program.render_laysOut hone).parse (Program.writes hone)
  obtain ⟨q, hq, hqtwo⟩ := (Program.render_laysOut htwo).parse (Program.writes htwo)
  have hrebinds : (Expr.func "x" (.var "x" .start)).Rebinds "g1_x"
      (.func "g1_x" (.var "g1_x" .start)) := .func "x" ⟨by decide, id⟩
  have hrewrites : p.unplaced.Rewrites (Expr.Rebinds "g1_x") two := by
    rw [hpone]
    exact .intro [] (.expr (.applyFunc (.here hrebinds) (.bool true))) []
  have hcompiled : one.compile? .empty
      = .ok (⟨[.expr (.call (.lambda "x" (.localVar "x")) (.bool true))]⟩, .empty) := rfl
  have hp' := Program.compile?_of_unplaced (hpone.trans one.unplaced_unplaced) hcompiled
  obtain ⟨haccepted, hanswers⟩ := (local_names_hygienic hp hg hrewrites).2 two.render q hq
    (hqtwo.trans two.unplaced_unplaced) [] (.submit one.render) (.submit two.render) (by decide)
    (by decide) rfl (accepted_of_parse hp hp')
  exact ⟨haccepted, hanswers []⟩

end Toplevel
