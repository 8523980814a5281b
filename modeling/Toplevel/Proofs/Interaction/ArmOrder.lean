import Toplevel.Proofs.Interaction.Rewritten

/-!
# The order of match arms

In which order the arms for tags stand makes no difference. With its arms in another order a program
is accepted just if it is, and answered alike, with all that follows; for a tagged value always runs
the one arm for its tag, and the arm for all else if there is none (`match_arms`).
-/

namespace Toplevel

/-- Match arms one after another, each with its tag, if it has one, its name and its body. -/
def Arms.toList : Arms → List (Option Text × Text × Expr)
  | .nil => []
  | .cons tag x b rest => (tag, x, b) :: rest.toList

/-- A `match` becomes one with the arms for tags, in front of the other arms, in another order. -/
inductive Expr.ReordersArms : Expr → Expr → Prop
  | intro (s : Expr) {as bs : Arms} {tagged tagged' rest : List (Option Text × Text × Expr)}
    (has : as.toList = tagged ++ rest) (hbs : bs.toList = tagged' ++ rest)
    (htags : ∀ arm ∈ tagged, arm.1.isSome) (h : tagged.Perm tagged') :
    ReordersArms (.matchWith s as) (.matchWith s bs)

theorem Expr.ReordersArms.symm (e e' : Expr) (h : e.ReordersArms e') : e'.ReordersArms e := by
  obtain ⟨s, has, hbs, htags, h⟩ := h
  exact .intro s hbs has (fun arm harm => htags arm (h.mem_iff.2 harm)) h.symm

/-! ### Arms in another order are alike -/

theorem Arms.toList_injective : ∀ {as bs : Arms}, as.toList = bs.toList → as = bs
  | .nil, .nil, _ => rfl
  | .nil, .cons .., h => by cases h
  | .cons .., .nil, h => by cases h
  | .cons _ _ _ _, .cons _ _ _ _, h => by
    obtain ⟨harm, hrest⟩ := List.cons.inj h
    cases harm
    rw [Arms.toList_injective hrest]

/-- An arm is taken from behind arms for tags. -/
theorem Arms.exists_takes {t x : Text} {b : Expr} {before after : List (Option Text × Text × Expr)}
    (hbefore : ∀ arm ∈ before, arm.1.isSome) {as : Arms}
    (has : as.toList = before ++ (some t, x, b) :: after) :
    ∃ bs, as.Takes t x b bs ∧ bs.toList = before ++ after := by
  induction before generalizing as with
  | nil =>
    cases as with
    | nil => cases has
    | cons tag y c rest =>
      cases has
      exact ⟨rest, .here rest, rfl⟩
  | cons arm before ih =>
    cases as with
    | nil => cases has
    | cons tag y c rest =>
      obtain ⟨rfl, hrest⟩ := List.cons.inj has
      obtain ⟨hsome, htags⟩ := List.forall_mem_cons.1 hbefore
      obtain ⟨s, rfl⟩ := Option.isSome_iff_exists.1 hsome
      obtain ⟨bs, htakes, hbs⟩ := ih htags hrest
      exact ⟨.cons (some s) y c bs, .there s y c htakes, congrArg (List.cons _) hbs⟩

theorem Arms.alike_of_perm {tagged tagged' rest : List (Option Text × Text × Expr)}
    (htags : ∀ arm ∈ tagged, arm.1.isSome) (h : tagged.Perm tagged') {as bs : Arms}
    (has : as.toList = tagged ++ rest) (hbs : bs.toList = tagged' ++ rest) (scope : List Text) :
    as.Alike anyName (.same scope) bs := by
  induction tagged generalizing as bs tagged' with
  | nil =>
    rw [List.nil_perm] at h
    subst h
    rw [Arms.toList_injective (has.trans hbs.symm)]
    exact bs.alike_same scope
  | cons arm tagged ih =>
    cases as with
    | nil => cases has
    | cons tag x b as =>
      obtain ⟨rfl, hrest⟩ := List.cons.inj has
      obtain ⟨hsome, hothers⟩ := List.forall_mem_cons.1 htags
      obtain ⟨t, rfl⟩ := Option.isSome_iff_exists.1 hsome
      obtain ⟨before, after, rfl⟩ := List.append_of_mem (h.mem_iff.1 List.mem_cons_self)
      have hperm : tagged.Perm (before ++ after) := (h.trans List.perm_middle).cons_inv
      have hbefore : ∀ arm ∈ before, arm.1.isSome := fun arm harm =>
        hothers arm (hperm.mem_iff.2 (List.mem_append_left _ harm))
      rw [List.append_assoc, List.cons_append] at hbs
      obtain ⟨bs', htakes, hbs'⟩ := Arms.exists_takes hbefore hbs
      rw [← List.append_assoc] at hbs'
      exact .tagged htakes (b.alike_same (x :: scope)) (ih hothers hperm hrest hbs')

theorem Expr.ReordersArms.alike (e e' : Expr) (h : e.ReordersArms e') (scope : List Text) :
    e.Alike anyName (.same scope) e' := by
  obtain ⟨s, has, hbs, htags, h⟩ := h
  exact .matchWith (s.alike_same scope) (Arms.alike_of_perm htags h has hbs scope)

/-! ### Which arm is run -/

section

variable {globals : Bindings}

/-- No tag has two arms, and there is at most one arm for all else. -/
theorem Arms.HaveCode.nodup {scope tags : List Text} {as : Arms} {cs : Cases}
    (h : as.HaveCode globals scope tags cs) :
    (as.toList.map Prod.fst).Nodup ∧ ∀ t ∈ tags, some t ∉ as.toList.map Prod.fst := by
  cases as with
  | nil => exact ⟨List.nodup_nil, fun _ _ => List.not_mem_nil⟩
  | cons tag x b rest =>
    cases h with
    | otherwise _ =>
      refine ⟨List.nodup_singleton _, fun _ _ hmem => ?_⟩
      cases List.mem_singleton.1 hmem
    | @cons _ _ t _ _ _ _ _ hnew _ hrest =>
      obtain ⟨hnodup, hothers⟩ := hrest.nodup
      refine ⟨List.nodup_cons.2 ⟨hothers t List.mem_cons_self, hnodup⟩, fun s hs hmem => ?_⟩
      rcases List.mem_cons.1 hmem with heq | hmem
      · cases heq
        exact hnew hs
      · exact hothers s (List.mem_cons_of_mem t hs) hmem

variable {calls : Nat} {env : Env} {v payload : Value} {t : Text}

/-- A tagged value runs the arm for its tag. -/
theorem Arms.HaveCode.eval_tagged {x : Text} {b : Expr} : ∀ {scope tags : List Text} {as : Arms}
    {cs : Cases}, as.HaveCode globals scope tags cs → (some t, x, b) ∈ as.toList →
      ∃ c, b.HasCode globals (x :: scope) c
        ∧ cs.eval id (Code.apply calls) env v (some (t, payload))
          = c.eval id (Code.apply calls) ((x, payload) :: env)
  | _, _, _, _, .nil, hmem => by cases hmem
  | _, _, _, _, .otherwise _, hmem => by cases List.mem_singleton.1 hmem
  | _, _, _, _, .cons (t := s) (c := c) _ hc hrest, hmem => by
    rcases List.mem_cons.1 hmem with heq | htail
    · cases heq
      exact ⟨c, hc, if_pos rfl⟩
    · have hne : t ≠ s := by
        rintro rfl
        exact hrest.nodup.2 t List.mem_cons_self (List.mem_map_of_mem htail)
      obtain ⟨c', hc', heval⟩ := hrest.eval_tagged htail
      exact ⟨c', hc', (if_neg hne).trans heval⟩

/-- Without an arm for its tag, a tagged value runs the arm for all else. -/
theorem Arms.HaveCode.eval_otherwise {x : Text} {b : Expr} : ∀ {scope tags : List Text} {as : Arms}
    {cs : Cases}, as.HaveCode globals scope tags cs → (none, x, b) ∈ as.toList →
      (∀ arm ∈ as.toList, arm.1 ≠ some t) →
        ∃ c, b.HasCode globals (x :: scope) c
          ∧ cs.eval id (Code.apply calls) env v (some (t, payload))
            = c.eval id (Code.apply calls) ((x, v) :: env)
  | _, _, _, _, .nil, hmem, _ => by cases hmem
  | _, _, _, _, .otherwise (c := c) hc, hmem, _ => by
    cases List.mem_singleton.1 hmem
    exact ⟨c, hc, rfl⟩
  | _, _, _, _, .cons _ _ hrest, hmem, hnone => by
    obtain ⟨hne, hothers⟩ := List.forall_mem_cons.1 hnone
    rcases List.mem_cons.1 hmem with heq | htail
    · cases heq
    · obtain ⟨c', hc', heval⟩ := hrest.eval_otherwise htail hothers
      exact ⟨c', hc', (if_neg fun heq => hne (congrArg some heq.symm)).trans heval⟩

theorem Arms.HaveCode.eval_noArm : ∀ {scope tags : List Text} {as : Arms} {cs : Cases},
    as.HaveCode globals scope tags cs →
      (∀ arm ∈ as.toList, arm.1 ≠ some t ∧ arm.1 ≠ none) →
        cs.eval id (Code.apply calls) env v (some (t, payload)) = .fail (.noArm t)
  | _, _, _, _, .nil, _ => rfl
  | _, _, _, _, .otherwise _, hnone => absurd rfl (hnone _ List.mem_cons_self).2
  | _, _, _, _, .cons _ _ hrest, hnone => by
    obtain ⟨hne, hothers⟩ := List.forall_mem_cons.1 hnone
    exact (if_neg fun heq => hne.1 (congrArg some heq.symm)).trans (hrest.eval_noArm hothers)

end

/-- How a `match` runs on a tagged value, where its subject compiles to `subject` and the `match` to
`code`: the arm for the tag with the payload, if there is one, the arm for all else with the value
if there is none, and it fails without either. -/
structure RunsArm (globals : Bindings) (scope : List Text) (as : Arms) (code : Code) (calls : Nat)
    (env : Env) (m : Machine Code) (v : Value) (t : Text) (payload : Value)
    (m' : Machine Code) : Prop where
  tagged : ∀ x b, (some t, x, b) ∈ as.toList → ∃ c, b.compile globals (x :: scope) = .ok c
    ∧ code.eval id (Code.apply calls) env m
      = c.eval id (Code.apply calls) ((x, payload) :: env) m'
  otherwise : (∀ arm ∈ as.toList, arm.1 ≠ some t) → ∀ x b, (none, x, b) ∈ as.toList →
    ∃ c, b.compile globals (x :: scope) = .ok c
      ∧ code.eval id (Code.apply calls) env m = c.eval id (Code.apply calls) ((x, v) :: env) m'
  noArm : (∀ arm ∈ as.toList, arm.1 ≠ some t ∧ arm.1 ≠ none) →
    code.eval id (Code.apply calls) env m = (.error (.noArm t), m')

/-- Each `match` that compiles has at most one arm for a tag, and runs it. -/
theorem Expr.runsArm {globals : Bindings} {scope : List Text} {s : Expr} {as : Arms} {code : Code}
    (h : (Expr.matchWith s as).compile globals scope = .ok code) :
    (as.toList.map Prod.fst).Nodup ∧ ∃ subject, s.compile globals scope = .ok subject
      ∧ ∀ calls env m v m' t payload, subject.eval id (Code.apply calls) env m = (.ok v, m') →
        m'.heap.object? v = some (.tagged t payload) →
          RunsArm globals scope as code calls env m v t payload m' := by
  cases Expr.hasCode_of_compile _ h with
  | @matchWith _ _ _ subject cs hs hcs =>
    refine ⟨hcs.nodup.1, subject, hs.compile, ?_⟩
    intro calls env m v m' t payload hv hobject
    have heval : (Code.matchOn subject cs).eval id (Code.apply calls) env m
        = cs.eval id (Code.apply calls) env v (some (t, payload)) m' := by
      have hread : (Run.object? v : Run Code _) m' = (.ok (some (.tagged t payload)), m') :=
        congrArg (fun o => (Except.ok o, m')) hobject
      have hvariant : Run.variant? v m' = (.ok (some (t, payload)), m') := Run.bind_ok hread
      rw [Code.eval, Run.bind_ok hv, Run.bind_ok hvariant]
    refine ⟨fun x b hmem => ?_, fun hnone x b hmem => ?_, fun hnone => ?_⟩
    · obtain ⟨c, hc, hrun⟩ := hcs.eval_tagged hmem
      exact ⟨c, hc.compile, heval.trans (congrFun hrun m')⟩
    · obtain ⟨c, hc, hrun⟩ := hcs.eval_otherwise hmem hnone
      exact ⟨c, hc.compile, heval.trans (congrFun hrun m')⟩
    · exact heval.trans (congrFun (hcs.eval_noArm hnone) m')

/-- The order of the arms for tags is irrelevant: a program with such arms in another order, the
others behind them as they are, is accepted just if it is, and then it is answered alike in every
interaction, with all that follows. For each `match` has at most one arm for a tag, and a tagged
value runs the one for its tag; the arm for all else is run only if there is none. -/
theorem match_arms :
    (∀ (source source' : Text) (p q : Program), parse source = .ok p → parse source' = .ok q →
      p.unplaced.Rewrites Expr.ReordersArms q.unplaced →
        (∀ d, Accepted source d ↔ Accepted source' d)
          ∧ ∀ (before : List Action) (a a' : Action), a.source? = some source →
            a'.source? = some source' → a'.isFresh = a.isFresh →
              let i := (Interaction.start .empty).acts .standard before
              Accepted source (i.definitionsFor a) →
                ∀ as, i.answers .standard (a' :: as) = i.answers .standard (a :: as))
    ∧ ∀ (globals : Bindings) (scope : List Text) (s : Expr) (as : Arms) (code : Code),
      (Expr.matchWith s as).compile globals scope = .ok code →
        (as.toList.map Prod.fst).Nodup ∧ ∃ subject, s.compile globals scope = .ok subject
          ∧ ∀ calls env m v m' t payload,
            subject.eval id (Code.apply calls) env m = (.ok v, m') →
              m'.heap.object? v = some (.tagged t payload) →
                RunsArm globals scope as code calls env m v t payload m' := by
  refine ⟨fun source source' p q hp hq h => ⟨fun d => ⟨?_, ?_⟩, ?_⟩, fun _ _ _ _ _ => Expr.runsArm⟩
  · rintro ⟨c, e, hc⟩
    obtain ⟨c', e', hc', -⟩ := compileSource_of_rewrites Expr.ReordersArms.alike hp hq h
      q.unplaced_unplaced.symm hc
    exact ⟨c', e', hc'⟩
  · rintro ⟨c, e, hc⟩
    obtain ⟨c', e', hc', -⟩ := compileSource_of_rewrites Expr.ReordersArms.alike hq hp
      (h.symm Expr.ReordersArms.symm) p.unplaced_unplaced.symm hc
    exact ⟨c', e', hc'⟩
  · intro before a a' hs hs' hfresh i haccepted
    exact (Interaction.answers_of_rewrites Expr.ReordersArms.alike hp hq h
      q.unplaced_unplaced.symm before hs hs' hfresh haccepted).2

/-- Two arms in either order. -/
theorem match_arms_swapped :
    Accepted "match ( `A true ) with | `B y -> false | `A x -> x" .empty
    ∧ Interaction.answers .standard (.start .empty)
        [.submit "match ( `A true ) with | `B y -> false | `A x -> x"]
      = Interaction.answers .standard (.start .empty)
        [.submit "match ( `A true ) with | `A x -> x | `B y -> false"] := by
  have hx : Terminal.name.Spells "x" := by decide
  have hy : Terminal.name.Spells "y" := by decide
  have hA : ∀ t ∈ some ("`A" : Text), t.IsTag := by
    rintro t ⟨⟩
    rfl
  have hB : ∀ t ∈ some ("`B" : Text), t.IsTag := by
    rintro t ⟨⟩
    rfl
  let subject : Expr := .tagged "`A" (.bool true)
  let first : Arms := .cons (some "`A") "x" (.var "x" .start)
    (.cons (some "`B") "y" (.bool false) .nil)
  let second : Arms := .cons (some "`B") "y" (.bool false)
    (.cons (some "`A") "x" (.var "x" .start) .nil)
  let one : Program := ⟨[.expr (.matchWith subject first)]⟩
  let two : Program := ⟨[.expr (.matchWith subject second)]⟩
  have hone : one.Writable := ⟨List.cons_ne_nil _ _, List.forall_mem_singleton.2
    ⟨⟨hA _ rfl, trivial⟩, nofun, hA, hx, hx, hB, hy, trivial, trivial⟩⟩
  have htwo : two.Writable := ⟨List.cons_ne_nil _ _, List.forall_mem_singleton.2
    ⟨⟨hA _ rfl, trivial⟩, nofun, hB, hy, trivial, hA, hx, hx, trivial⟩⟩
  obtain ⟨p, hp, hpone⟩ := (Program.render_laysOut hone).parse (Program.writes hone)
  obtain ⟨q, hq, hqtwo⟩ := (Program.render_laysOut htwo).parse (Program.writes htwo)
  have hreorders : (Expr.matchWith subject first).ReordersArms (.matchWith subject second) :=
    @Expr.ReordersArms.intro subject _ _ first.toList second.toList [] rfl rfl (by decide)
      (.swap _ _ _)
  have hrewrites : p.unplaced.Rewrites Expr.ReordersArms q.unplaced := by
    rw [hpone, hqtwo]
    exact .intro [] (.expr (.here hreorders)) []
  obtain ⟨haccepted, hanswers⟩ := match_arms.1 one.render two.render p q hp hq hrewrites
  have hcompiled : one.compile? .empty = .ok (⟨[.expr (.matchOn (.tagged "`A" (.bool true))
    (.cons "`A" "x" (.localVar "x") (.cons "`B" "y" (.bool false) .nil)))]⟩, .empty) := rfl
  have hp' := Program.compile?_of_unplaced (hpone.trans one.unplaced_unplaced) hcompiled
  have hacc : Accepted one.render .empty := accepted_of_parse hp hp'
  exact ⟨(haccepted .empty).1 hacc, hanswers [] (.submit one.render) (.submit two.render)
    (by decide) (by decide) rfl hacc []⟩

end Toplevel
