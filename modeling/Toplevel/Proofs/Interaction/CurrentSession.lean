import Toplevel.Proofs.Interaction.Account
import Toplevel.Proofs.Interaction.Restart

/-!
# The current session

Of all that is done in an interaction, the current session is what has been done since it started
over last (`lastSession`). As long as no answer of the same session on an interaction that has just
begun misses a global that is left over from before, the current session goes as that one
(`Interaction.behind_lastSession`).
-/

namespace Toplevel

/-- What is done before the session starts over for the last time, and what is done since. -/
def lastSession : List Action → List Action × List Action
  | [] => ([], [])
  | a :: as =>
    if as.any Action.startsOver then (a :: (lastSession as).1, (lastSession as).2)
    else ([], a :: as)

theorem lastSession_append (as : List Action) : (lastSession as).1 ++ (lastSession as).2 = as := by
  induction as with
  | nil => rfl
  | cons a as ih =>
    rw [lastSession]
    split
    · exact congrArg (a :: ·) ih
    · rfl

/-- A session starts over at its beginning only. -/
theorem lastSession_tail (as : List Action) : ∀ a ∈ (lastSession as).2.tail, ¬a.startsOver := by
  induction as with
  | nil => exact nofun
  | cons a as ih =>
    rw [lastSession]
    split
    · exact ih
    · rename_i hany
      exact fun b hb hstarts => hany (List.any_eq_true.2 ⟨b, hb, hstarts⟩)

/-- If anything has been done before, the session has started over. -/
theorem lastSession_head (as : List Action) :
    (lastSession as).1 = [] ∨ ∃ a rest, (lastSession as).2 = a :: rest ∧ a.startsOver := by
  induction as with
  | nil => exact .inl rfl
  | cons a as ih =>
    rw [lastSession]
    split
    · rename_i hany
      rcases ih with hnil | hstarts
      · obtain ⟨b, hb, hstarts⟩ := List.any_eq_true.1 hany
        have happend := lastSession_append as
        have htail := lastSession_tail as
        rw [hnil, List.nil_append] at happend
        rw [happend] at htail ⊢
        cases as with
        | nil => cases hb
        | cons c as =>
          rcases List.mem_cons.1 hb with rfl | hb
          · exact .inr ⟨b, as, rfl, hstarts⟩
          · exact absurd hstarts (htail b hb)
      · exact .inr hstarts
    · exact .inl rfl

namespace Interaction

theorem acts_append {σ κ : Type} (E : Engine σ κ) (as bs : List Action) (i : Interaction σ) :
    i.acts E (as ++ bs) = (i.acts E as).acts E bs :=
  List.foldl_append

theorem answers_append {σ κ : Type} (E : Engine σ κ) (as bs : List Action) (i : Interaction σ) :
    i.answers E (as ++ bs) = i.answers E as ++ (i.acts E as).answers E bs := by
  induction as generalizing i with
  | nil => rfl
  | cons a as ih => exact congrArg (_ :: ·) (ih _)

theorem definitionsFor_of_not_startsOver {a : Action} (ha : ¬a.startsOver) {source : Text}
    (hs : a.source? = some source) (i : Interaction EngineState) :
    i.definitionsFor a = i.engine.session.definitions := by
  rw [Action.startsOver, hs, Option.isSome_some, Bool.and_true] at ha
  exact if_neg ha

theorem definitionsFor_of_startsOver {a : Action} (ha : a.startsOver)
    (i : Interaction EngineState) : i.definitionsFor a = .empty :=
  if_pos (Bool.and_eq_true_iff.1 ha).1

theorem definitionsFor_start (a : Action) : (start .empty).definitionsFor a = .empty :=
  ite_self _

variable {older : Machine Code} {i i' : Interaction EngineState}

/-- An action that misses no older global has the same answer behind older objects. -/
theorem act_behind_of_source {a : Action} {source : Text} (hs : a.source? = some source)
    (hfor : i'.definitionsFor a = i.definitionsFor a)
    (hm : (Link.behind older).Machines i.engine.machine i'.engine.machine)
    (hmissed : ∀ o, .ok (some o) = (i.act .standard a).1 → ¬o.Missed older) :
    (i'.act .standard a).1 = (i.act .standard a).1
      ∧ Behind older (i.act .standard a).2 (i'.act .standard a).2 := by
  obtain ⟨hanswer, hdefinitions, hmachine⟩ := act_of_source hs i
  obtain ⟨hanswer', hdefinitions', hmachine'⟩ := act_of_source hs i'
  rw [hfor] at hanswer' hdefinitions' hmachine'
  rcases attempt_behind source (i.definitionsFor a) hm with ⟨-, ho, hd, hm'⟩ | ⟨ho, -⟩
  · exact ⟨by rw [hanswer, hanswer', ho],
      ⟨by rw [hdefinitions, hdefinitions', hd], by rw [hmachine, hmachine']; exact hm'⟩⟩
  · exact absurd ho (hmissed _ hanswer.symm)

theorem act_behind {a : Action} (hfor : i'.definitionsFor a = i.definitionsFor a)
    (h : Behind older i i')
    (hmissed : ∀ o, .ok (some o) = (i.act .standard a).1 → ¬o.Missed older) :
    (i'.act .standard a).1 = (i.act .standard a).1
      ∧ Behind older (i.act .standard a).2 (i'.act .standard a).2 := by
  rcases hs : a.source? with _ | source
  · obtain ⟨hanswer, hengine⟩ := act_of_blank hs i
    obtain ⟨hanswer', hengine'⟩ := act_of_blank hs i'
    exact ⟨by rw [hanswer, hanswer'], ⟨by rw [hengine, hengine', h.definitions],
      by rw [hengine, hengine']; exact h.machines⟩⟩
  · exact act_behind_of_source hs hfor h.machines hmissed

/-- Actions of which none misses an older global have the same answers behind older objects. -/
theorem acts_behind {as : List Action} (h : Behind older i i')
    (hmissed : ∀ o, .ok (some o) ∈ i.answers .standard as → ¬o.Missed older) :
    i'.answers .standard as = i.answers .standard as
      ∧ Behind older (i.acts .standard as) (i'.acts .standard as) := by
  induction as generalizing i i' with
  | nil => exact ⟨rfl, h⟩
  | cons a as ih =>
    have hfor : i'.definitionsFor a = i.definitionsFor a := by
      rw [definitionsFor, definitionsFor, h.definitions]
    obtain ⟨hanswer, hbehind⟩ := act_behind hfor h fun o ho =>
      hmissed o (ho ▸ List.mem_cons_self)
    obtain ⟨hanswers, hbehind⟩ := ih hbehind fun o ho => hmissed o (List.mem_cons_of_mem _ ho)
    exact ⟨congrArg₂ List.cons hanswer hanswers, hbehind⟩

/-- A session that begins an interaction, or starts over, is where it would be if it were the first,
if it misses nothing then that is left over from before. -/
theorem behind_of_session {earlier since : List Action}
    (hhead : earlier = [] ∨ ∃ a rest, since = a :: rest ∧ a.startsOver)
    (hmissed : ∀ o, .ok (some o) ∈ (start .empty).answers .standard since →
      ¬o.Missed ((start .empty).acts .standard earlier).engine.machine) :
    Behind ((start .empty).acts .standard earlier).engine.machine
      ((start .empty).acts .standard since)
      (((start .empty).acts .standard earlier).acts .standard since) := by
  have hmachines := Link.behind_empty ((start .empty).acts .standard earlier).engine.machine
  cases since with
  | nil =>
    obtain rfl : earlier = [] := hhead.resolve_right fun ⟨_, _, h, _⟩ => nomatch h
    exact ⟨rfl, hmachines⟩
  | cons a since =>
    have hfirst := fun o ho => hmissed o (List.mem_cons.2 (.inl ho))
    refine (acts_behind ?_ fun o ho => hmissed o (List.mem_cons_of_mem _ ho)).2
    rcases hhead with rfl | ⟨_, _, ⟨rfl, rfl⟩, hstarts⟩
    · exact (act_behind rfl ⟨rfl, hmachines⟩ hfirst).2
    · obtain ⟨source, hs⟩ := Option.isSome_iff_exists.1 (Bool.and_eq_true_iff.1 hstarts).2
      refine (act_behind_of_source hs ?_ hmachines hfirst).2
      rw [definitionsFor_of_startsOver hstarts, definitionsFor_of_startsOver hstarts]

theorem behind_lastSession (as : List Action)
    (hmissed : ∀ o, .ok (some o) ∈ (start .empty).answers .standard (lastSession as).2 →
      ¬o.Missed ((start .empty).acts .standard (lastSession as).1).engine.machine) :
    Behind ((start .empty).acts .standard (lastSession as).1).engine.machine
      ((start .empty).acts .standard (lastSession as).2) ((start .empty).acts .standard as) := by
  have h := behind_of_session (lastSession_head as) hmissed
  rwa [← acts_append, lastSession_append] at h

end Interaction

end Toplevel
