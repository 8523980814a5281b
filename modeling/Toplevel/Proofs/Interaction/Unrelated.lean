import Toplevel.Proofs.Interaction.Alike
import Toplevel.Proofs.Interaction.CurrentSession

/-!
# Definitions that are not named make no difference

A definition gives all later ones other numbers (`Renumbering.skip`) and leaves a value on the
machine. To what does not name it this makes no difference, as long as nothing is ahead of the
session: no global on the machine, and none that a function reads, has a number that is still to be
given (`Interaction.InOrder`). In the first session nothing ever is (`Interaction.start_inOrder`). A
session that starts over numbers from one again, though, and then it depends on the next number
whether a global that is left over from before has it. So the answers agree if none misses such a
global in the same session on an interaction that has just begun
(`Interaction.definition_unrelated`).
-/

namespace Toplevel

/-! ### Nothing is ahead -/

/-- The globals of a machine, and those that its functions read, have numbers up to `count`. -/
structure Machine.Within (count : Nat) (m : Machine Code) : Prop where
  globals : ∀ e ∈ m.globals, e.1.index ≤ count
  functions : m.heap.Closed fun g => g.index ≤ count

namespace Machine.Within

theorem empty (count : Nat) : Within count .empty := ⟨nofun, .empty⟩

theorem find?_eq_none {m : Machine Code} {count : Nat} (h : m.Within count) {g : Global}
    (hg : count < g.index) : m.find? g = none := by
  rw [find?, List.lookup_eq_none_iff]
  intro e he
  rw [bne_iff_ne]
  rintro rfl
  exact Nat.not_lt.2 (h.globals e he) hg

end Machine.Within

namespace Scope

theorem index_le_of_find? {scope : Scope} (hn : scope.Numbered) {x : Text} {g : Global}
    (h : scope.definitions.bindings.find? x = some g) : g.index ≤ scope.definitions.count :=
  hn.index_le (mem_bindings (mem_of_lookup h)).1

end Scope

/-- An attempt numbers the globals that it adds. -/
theorem attempt_within (source : Text) {scope : Scope} (hn : scope.Numbered) {m : Machine Code}
    (hm : m.Within scope.length) :
    (attempt source scope.definitions m).machine.Within
      (attempt source scope.definitions m).definitions.count := by
  obtain ⟨scope', hd, hn', hgrows⟩ := attempt_grows source hn m
  obtain ⟨added, news, hscope, hglobals, hsub⟩ := hgrows.globals
  have hle : scope.length ≤ scope'.length := by
    rw [hscope, List.length_append]
    exact Nat.le_add_left _ _
  refine ⟨fun e he => ?_, ?_⟩
  · rw [hd]
    rw [hglobals, List.mem_append] at he
    rcases he with he | he
    · refine hn'.index_le ?_
      rw [hscope]
      exact List.mem_append_left _ (hsub.subset (List.mem_map_of_mem he))
    · exact Nat.le_trans (hm.globals e he) hle
  · refine (attempt_closed (hm.functions.mono ?_) ?_ fun _ _ hg => hg).1
    · rw [hd]
      exact fun g hg => Nat.le_trans hg hle
    · rw [hd]
      exact fun x g hg => Nat.le_trans (Scope.index_le_of_find? hn hg) hle

namespace Interaction

/-- The session has numbered its definitions, and nothing is ahead of it. -/
structure InOrder (scope : Scope) (i : Interaction EngineState) : Prop where
  definitions : i.engine.session.definitions = scope.definitions
  numbered : scope.Numbered
  within : i.engine.machine.Within scope.length

theorem act_inOrder {a : Action} {i : Interaction EngineState} {scope : Scope}
    (h : InOrder scope i) (hfor : ∀ source, a.source? = some source →
      i.definitionsFor a = i.engine.session.definitions) :
    ∃ scope', InOrder scope' (i.act .standard a).2 := by
  rcases hs : a.source? with _ | source
  · have hengine := (act_of_blank hs i).2
    exact ⟨scope, by rw [hengine, h.definitions], h.numbered, by rw [hengine]; exact h.within⟩
  · obtain ⟨hdefinitions, hmachine⟩ := (act_of_source hs i).2
    rw [hfor source hs, h.definitions] at hdefinitions hmachine
    obtain ⟨scope', hd, hn, -⟩ := attempt_grows source h.numbered i.engine.machine
    refine ⟨scope', hdefinitions.trans hd, hn, ?_⟩
    have hwithin := attempt_within source h.numbered h.within
    rw [hd] at hwithin
    rw [hmachine]
    exact hwithin

theorem acts_inOrder {as : List Action} (has : ∀ a ∈ as, ¬a.startsOver)
    {i : Interaction EngineState} {scope : Scope} (h : InOrder scope i) :
    ∃ scope', InOrder scope' (i.acts .standard as) := by
  induction as generalizing i scope with
  | nil => exact ⟨scope, h⟩
  | cons a as ih =>
    obtain ⟨ha, has⟩ := List.forall_mem_cons.1 has
    obtain ⟨scope', h'⟩ := act_inOrder h fun _ hs => definitionsFor_of_not_startsOver ha hs i
    exact ih has h'

/-- In the first session nothing is ever ahead. -/
theorem start_inOrder {as : List Action} (has : ∀ a ∈ as.tail, ¬a.startsOver) :
    ∃ scope, InOrder scope ((start .empty).acts .standard as) := by
  have hstart : InOrder [] (start .empty) := ⟨rfl, rfl, .empty 0⟩
  cases as with
  | nil => exact ⟨[], hstart⟩
  | cons a as =>
    obtain ⟨scope, h⟩ := act_inOrder hstart fun _ _ => definitionsFor_start a
    exact acts_inOrder has h

end Interaction

/-! ### One number more -/

/-- What is numbered behind `count` gets the number after. -/
def Renumbering.skip (count : Nat) : Renumbering where
  number g := if g.index ≤ count then g else ⟨g.index + 1, g.name⟩
  former? g :=
    if g.index ≤ count then some g
    else if g.index = count + 1 then none else some ⟨g.index - 1, g.name⟩
  former?_eq_some := by
    rintro ⟨j, x⟩ ⟨k, y⟩
    grind

/-- The objects with addresses from `size` on make room, and are found from `size'` on. -/
def Link.shift (size size' a : Nat) : Nat := if a < size then a else a - size + size'

theorem Link.shift_injective {size size' : Nat} (h : size ≤ size') :
    Function.Injective (Link.shift size size') := by
  intro a b hab
  unfold shift at hab
  split at hab <;> split at hab <;> omega

theorem Definitions.renumbered_define {scope : Scope} (hn : scope.Numbered) (y : Text) :
    scope.definitions.Renumbered (· ≠ y) (Renumbering.skip scope.length).number
      (scope.definitions.define y).1 where
  bindings x hx := by
    simp only [define, Bindings.find?_set]
    rw [if_neg (Ne.symm (of_decide_eq_true hx))]
    cases hg : scope.definitions.bindings.find? x with
    | none => rfl
    | some g => exact congrArg some (if_pos (Scope.index_le_of_find? hn hg)).symm
  next k x := by
    have hlt : ¬scope.length + k + 1 ≤ scope.length := by omega
    change (if scope.length + k + 1 ≤ scope.length then _ else _) = _
    rw [if_neg hlt]
    simp only [define, Scope.definitions, Nat.add_right_comm]

/-! ### What a definition leaves -/

theorem Heap.ChangedBy.extends {deeds : List Deed} {h h' : Heap Code} (hc : h.ChangedBy deeds h')
    (hassigned : ∀ reference target, .assigned reference target ∉ deeds) : h.Extends h' := by
  refine .of_get? fun a o ho => ?_
  have hnone : deeds.filterMap (Deed.target? a) = [] := by
    rw [List.filterMap_eq_nil_iff]
    intro d hd
    cases d with
    | assigned reference target => exact absurd hd (hassigned reference target)
    | _ => rfl
  have ho' := hc a o ho
  rwa [lastTarget?, hnone] at ho'

/-- Where nothing is assigned to behind older objects, nothing is assigned to without them. -/
theorem Link.Machines.extends {older m m' m₁ m₁' : Machine Code}
    (hm : (Link.behind older).Machines m m') (hm₁ : (Link.behind older).Machines m₁ m₁')
    (hkeeps : m.heap.Keeps m₁.heap) (h : m'.heap.Extends m₁'.heap) : m.heap.Extends m₁.heap := by
  refine .of_get? fun a o ho => ?_
  rcases hkeeps a o ho with ho₁ | ⟨t, t₁, rfl, ho₁⟩
  · exact ho₁
  · obtain ⟨o', ho', hobjects⟩ := hm.heaps.objects a _ ho
    obtain ⟨o₁', ho₁', hobjects₁⟩ := hm₁.heaps.objects a _ ho₁
    cases hobjects
    cases hobjects₁
    have ht := (h.get?_eq ho').symm.trans ho₁'
    simp only [Option.some.injEq, Object.ref.injEq] at ht
    rw [ho₁, Value.rename_injective _ (Link.behind older).injective ht]

/-- A source of one definition is accepted with this definition, or nothing comes of it. -/
theorem attempt_of_define {source y : Text} {v : Expr} {recursive : Bool} {p : Program}
    (hp : parse source = .ok p) (hstatements : p.statements = [.define y v recursive])
    (d : Definitions) (m : Machine Code) :
    (attempt source d m).definitions = (d.define y).1
      ∨ (attempt source d m).definitions = d ∧ (attempt source d m).machine = m := by
  rcases hc : compileSource source d with e | ⟨c, e⟩
  · rw [attempt, hc]
    exact .inr ⟨rfl, rfl⟩
  · rw [attempt_of_compiled hc]
    obtain ⟨q, hq, hall⟩ := exists_compileAll hc
    cases hp.symm.trans hq
    rw [hstatements] at hall
    obtain ⟨step, d₁, rest, -, hstep, hnil⟩ := compileAll_cons_eq_ok_iff.1 hall
    cases hnil
    cases Statement.compile?_eq_ok_iff.1 hstep
    exact .inl rfl

/-- A machine with nothing ahead corresponds to what an attempt at one definition makes of it, if
that leaves the heap as it is. -/
theorem attempt_machines {source : Text} {scope : Scope} (hn : scope.Numbered) {m : Machine Code}
    {deeds : List Deed} (hm : m.Native deeds) (hwithin : m.Within scope.length)
    (hcount : (attempt source scope.definitions m).definitions.count = scope.length + 1)
    (hheap : m.heap.Extends (attempt source scope.definitions m).machine.heap) :
    (Link.alike (.skip scope.length) _ (Link.shift_injective hheap.size)).AlikeMachines
      (.skip scope.length) m (attempt source scope.definitions m).machine := by
  obtain ⟨scope', -, hn', hgrows⟩ := attempt_grows source hn m
  have hafter := attempt_within source hn hwithin
  rw [hcount] at hafter
  refine Link.alike_machines hm hwithin.functions (fun g hg => if_pos hg) (fun a ha => if_pos ha)
    (fun k => ?_) hheap fun g => ?_
  · rw [Link.shift, if_neg (by omega)]
    omega
  · change Machine.find? _ (if g.index ≤ scope.length then g else ⟨g.index + 1, g.name⟩) = _
    split
    · rename_i hg
      exact hgrows.find?_eq hn' hg
    · rename_i hg
      rw [hwithin.find?_eq_none (by omega)]
      exact hafter.find?_eq_none (Nat.succ_lt_succ (Nat.lt_of_not_le hg))

/-! ### Interactions -/

/-- Outcomes that are the same but for the message of a failed evaluation. -/
structure Outcome.Agrees (o o' : Outcome) : Prop where
  success : o'.success = o.success
  error : o'.errorName? = o.errorName?
  cause : o'.cause?.map Fault.kind = o.cause?.map Fault.kind
  message : o.errorName? ≠ some "EvaluationError" → o'.message = o.message

theorem Outcome.Alike.agrees {number : Global → Global} {o o' : Outcome} (h : o.Alike number o') :
    o.Agrees o' :=
  ⟨h.success, h.errorName?, h.cause?, h.message⟩

namespace Interaction

/-- Interactions that are alike give answers that agree. -/
theorem answers_agree {known : Text → Bool} {r : Renumbering} {place : Nat → Nat}
    {hplace : Function.Injective place} {i i' : Interaction EngineState} {as : List Action}
    (has : ∀ b ∈ as, b.isFresh = false ∧ b.Names known)
    (h : Alike known r (Link.alike r place hplace) i i') :
    List.Forall₂ (AnswersBy Outcome.Agrees) (i.answers .standard as)
      (i'.answers .standard as) := by
  have hfresh : ∀ b ∈ as, b.isFresh → Definitions.empty.Renumbered known r.number .empty := by
    intro b hb hf
    rw [(has b hb).1] at hf
    cases hf
  refine (answers_alike (fun b hb => (has b hb).2) hfresh h).imp ?_
  rintro _ _ ⟨o, o', rfl, rfl, ho⟩
  refine ⟨o, o', rfl, rfl, ?_⟩
  cases ho with
  | none => exact .none
  | some ho => exact .some ho.agrees

section

variable {a : Action} {source y : Text} {v : Expr} {recursive : Bool} {p : Program}
  (hs : a.source? = some source) (hfresh : a.isFresh = false) (hp : parse source = .ok p)
  (hstatements : p.statements = [.define y v recursive])

include hs hfresh hp hstatements

/-- An interaction with nothing ahead is alike before and after a definition that leaves the heap as
it is, but for the name that is defined. -/
theorem alike_of_define {i : Interaction EngineState} {scope : Scope} (h : InOrder scope i)
    {deeds : List Deed} (hnative : i.engine.machine.Native deeds)
    (hheap : i.engine.machine.heap.Extends (i.act .standard a).2.engine.machine.heap) :
    ∃ r place hplace, Alike (· ≠ y) r (Link.alike r place hplace) i (i.act .standard a).2 := by
  obtain ⟨hdefinitions, hmachine⟩ := (act_of_source hs i).2
  rw [definitionsFor, hfresh, if_neg Bool.false_ne_true, h.definitions] at hdefinitions hmachine
  rw [hmachine] at hheap
  rcases attempt_of_define hp hstatements scope.definitions i.engine.machine with
    hdefine | ⟨hsame, hmachine'⟩
  · refine ⟨.skip scope.length, _, Link.shift_injective hheap.size, ?_, ?_⟩
    · rw [h.definitions, hdefinitions, hdefine]
      exact Definitions.renumbered_define h.numbered y
    · rw [hmachine]
      exact attempt_machines h.numbered hnative h.within (congrArg Definitions.count hdefine) hheap
  · refine ⟨.same, id, Function.injective_id, ?_, ?_⟩
    · rw [h.definitions, hdefinitions, hsame]
      exact .refl _ _
    · rw [hmachine, hmachine']
      exact Link.alike_refl hnative h.within.functions

/-- Whether a name is defined makes no difference to what does not name it: the answers are the
same with the definition and without it, but for the messages of evaluations that fail. The
definition may not assign to references. If the session has started over, nothing may be missed in
it, with the definition or without it, that is left over from before. -/
theorem definition_unrelated (before : List Action) :
    let i := (start .empty).acts .standard before
    let session := (lastSession before).2
    let older := ((start .empty).acts .standard (lastSession before).1).engine.machine
    (∀ reference target, .assigned reference target ∉ i.actDeeds a) →
      ∀ as : List Action, (∀ b ∈ as, b.isFresh = false ∧ b.Names (· ≠ y)) →
        (∀ g, (older.find? g).isSome →
          .ok (some (.evaluationFault (.undefined g.text)))
              ∉ (start .empty).answers .standard (session ++ as)
            ∧ .ok (some (.evaluationFault (.undefined g.text)))
              ∉ (start .empty).answers .standard (session ++ a :: as)) →
          List.Forall₂ (AnswersBy Outcome.Agrees) (i.answers .standard as)
            ((i.act .standard a).2.answers .standard as) := by
  intro i session older hassigned as has hmissed
  have hwithout : ∀ o, .ok (some o) ∈ (start .empty).answers .standard (session ++ as) →
      ¬o.Missed older := by
    rintro _ ho ⟨g, hg, rfl⟩
    exact (hmissed g hg).1 ho
  have hwith : ∀ o, .ok (some o) ∈ (start .empty).answers .standard (session ++ a :: as) →
      ¬o.Missed older := by
    rintro _ ho ⟨g, hg, rfl⟩
    exact (hmissed g hg).2 ho
  simp only [answers_append, List.mem_append, or_imp, forall_and] at hwithout hwith
  -- the same session, on an interaction that has just begun
  let n := (start .empty).acts .standard session
  have hbehind : Behind older n i := behind_lastSession before hwithout.1
  obtain ⟨scope, hscope⟩ := start_inOrder (lastSession_tail before)
  have hnative := (start_evolves session).native
  have hfor : i.definitionsFor a = n.definitionsFor a := by
    rw [definitionsFor, definitionsFor, hbehind.definitions]
  have hdefined := (act_behind hfor hbehind fun o ho =>
    hwith.2 o (ho ▸ List.mem_cons_self)).2
  have hextends : i.engine.machine.heap.Extends (i.act .standard a).2.engine.machine.heap := by
    have hempty : (start EngineState.empty).engine.machine.Native
        ((start .empty).deeds before ++ i.actDeeds a) := .empty
    have hnative := (acts_evolves before hempty (List.subset_append_left _ _)).native
    exact (act_evolves a hnative (List.subset_append_right _ _)).1.heap.extends hassigned
  have hkeeps : n.engine.machine.heap.Keeps (n.act .standard a).2.engine.machine.heap := by
    rw [(act_of_source hs n).2.machine, definitionsFor, hfresh, if_neg Bool.false_ne_true,
      hscope.definitions]
    obtain ⟨_, -, -, hgrows⟩ := attempt_grows source hscope.numbered n.engine.machine
    exact hgrows.heap
  obtain ⟨r, place, hplace, halike⟩ := alike_of_define hs hfresh hp hstatements hscope hnative
    (hbehind.machines.extends hdefined.machines hkeeps hextends)
  have hagree := answers_agree has halike
  rw [← (acts_behind hbehind hwithout.2).1] at hagree
  rw [← (acts_behind hdefined fun o ho => hwith.2 o (List.mem_cons_of_mem _ ho)).1] at hagree
  exact hagree

end

/-- A definition that reads itself early fails with the earlier one and without it. -/
theorem definition_unrelated_to_itself :
    List.Forall₂ (AnswersBy Outcome.Agrees)
      ((start .empty).answers .standard [.submit "let rec x = x"])
      ((act .standard (.submit "let x = true") (start .empty)).2.answers .standard
        [.submit "let rec x = x"]) := by
  have hp := eq_of_isDefinitionAsTrue parse_definitions_of_x.1
  obtain ⟨q, hq⟩ := eq_of_isDefinitionAsItself parse_definitions_of_x.2
  have hsubmit : (Action.submit "let x = true").source? = some ("let x = true" : Text) := by
    decide
  have hlater : (Action.submit "let rec x = x").source? = some ("let rec x = x" : Text) := by
    decide
  have hassigned : ∀ reference target, .assigned reference target
      ∉ actDeeds (.submit "let x = true") (start .empty) := by
    rw [actDeeds_of_source hsubmit, attemptDeeds, compileSource, hp]
    exact fun _ _ => List.not_mem_nil
  have hnames : Action.Names (· ≠ "x") (.submit "let rec x = x") := by
    intro source hs p hp o ho
    obtain rfl := Option.some.inj (hlater.symm.trans hs)
    cases hq.symm.trans hp
    cases ho
  exact definition_unrelated hsubmit rfl hp rfl [] hassigned _
    (List.forall_mem_singleton.2 ⟨rfl, hnames⟩) fun _ hg => absurd hg Bool.false_ne_true

end Interaction

end Toplevel
