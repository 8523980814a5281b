import Toplevel.Proofs.Eval.Simulation
import Toplevel.Proofs.Interaction.Actions
import Toplevel.Proofs.Interaction.Numbering

/-!
# Globals are set once

Each definition has a global of its own, numbered as sessions do (`Session.Numbering`). In an
interaction whose session does not start over none of them is set twice, and a function means what
it meant before later definitions, even of the same names (`globals_set_once`).
-/

namespace Toplevel

/-- Machines that differ in globals with numbers above `count` that only the right one has. -/
def Link.later (count : Nat) : Link Code Code where
  place := id
  injective := Function.injective_id
  functions x b env y c env' := y = x ∧ c = b ∧ env' = env.rename id
  globals gs gs' := ∀ g, gs'.lookup g = gs.lookup g ∨ gs.lookup g = none ∧ count < g.index
  excused e := ∃ g : Global, count < g.index ∧ e = .undefined g.text
  lookup_globals h g := by
    rcases h g with h | ⟨h, hlt⟩
    · exact Or.inl (by rw [h, Value.rename_id_eq, Option.map_id_fun, id])
    · exact Or.inr ⟨h, g, hlt, rfl⟩
  cons_globals h g v g' := by
    rw [Value.rename_id, List.lookup_cons, List.lookup_cons]
    cases g' == g
    · exact h g'
    · exact Or.inl rfl

open Link

/-- Later globals are of no account to a call that does not ask for them. -/
theorem Code.apply_later (budget : Nat) (f v : Value) {count : Nat} {heap : Heap Code}
    {gs gs' : List (Global × Value)} (hgs : (Link.later count).globals gs gs')
    (hfound : ∀ g : Global, count < g.index →
      (Code.apply budget f v ⟨heap, gs⟩).1 ≠ .error (.undefined g.text)) :
    (Code.apply budget f v ⟨heap, gs'⟩).1 = (Code.apply budget f v ⟨heap, gs⟩).1 := by
  have hplace : ∀ v : Value, v.rename (Link.later count).place = v := Value.rename_id
  have hheaps := Heaps.mapBody (L := Link.later count) (f := id) (g := id) rfl
    (fun _ _ env => ⟨rfl, rfl, (Members.rename_id env).symm⟩) heap
  rw [Heap.mapBody_id] at hheaps
  have hsim := Code.apply_sim (L := Link.later count) (fun _ _ _ _ _ _ => Iff.rfl) budget f v
    ⟨heap, gs⟩ ⟨heap, gs'⟩ ⟨hheaps, hgs⟩
  rw [hplace, hplace] at hsim
  generalize Code.apply budget f v ⟨heap, gs⟩ = r at *
  generalize Code.apply budget f v ⟨heap, gs'⟩ = r' at *
  cases hsim with
  | done h _ => rw [h, hplace]
  | failed _ => rfl
  | excused he =>
    obtain ⟨g, hlt, rfl⟩ := he
    exact absurd rfl (hfound g hlt)

/-- What holds of a machine and of the same one later, in a session that does not start over. The
first `count` definitions are those numbered when the machine was `m`. -/
structure Machine.Outlasts (count : Nat) (m m' : Machine Code) : Prop where
  set_once : (m'.globals.map fun e => e.1.text).Nodup
  kept : ∀ g v, m.find? g = some v → m'.find? g = some v
  missing : ∀ g, g.index ≤ count → m.find? g = none → m'.find? g = none
  functions : ∀ a x b env, m.heap.get? a = some (.closure x b env) →
    m'.heap.get? a = some (.closure x b env)
  /-- A call goes as if what has been defined since were not there, if it does not ask for that. -/
  meaning : ∀ budget f v,
    let earlier := (Code.apply budget f v { m' with globals := m.globals }).1
    (∀ g : Global, count < g.index → earlier ≠ .error (.undefined g.text)) →
      (Code.apply budget f v m').1 = earlier

theorem Grows.outlasts {scope scope' : Scope} {m m' : Machine Code} (h : Grows [] scope .empty m)
    (h' : Grows scope scope' m m') (hscope : scope.Numbered) (hn : scope'.Numbered) :
    m.Outlasts scope.length m' := by
  have hkept : ∀ g v, m.find? g = some v → m'.find? g = some v := by
    intro g v hg
    have hle : g.index ≤ scope.length := by
      obtain ⟨added, news, rfl, hglobals, hsub⟩ := h.globals
      refine hscope.index_le (List.mem_append_left [] (hsub.subset ?_))
      rw [Machine.find?, hglobals, Machine.empty, List.append_nil, List.lookup_eq_some_iff] at hg
      obtain ⟨l, r, rfl, -⟩ := hg
      simp
    rw [h'.find?_eq hn hle, hg]
  refine ⟨?_, hkept, fun g hle hg => by rw [h'.find?_eq hn hle, hg], fun a x b env ha => ?_,
    fun budget f v hfound => Code.apply_later budget f v (fun g => ?_) hfound⟩
  · obtain ⟨added, news, hadded, hglobals, hsub⟩ := (h.trans h').globals
    rw [List.append_nil] at hadded
    subst hadded
    have hkeys : (m'.globals.map Prod.fst).Nodup := by
      rw [hglobals, Machine.empty, List.append_nil]
      exact hn.nodup.sublist hsub
    rw [show (fun e : Global × Value => e.1.text) = Global.text ∘ Prod.fst from rfl,
      ← List.map_map]
    exact hkeys.map Global.text_injective
  · rcases h'.heap a _ ha with h | ⟨t, t', h, -⟩
    · exact h
    · cases h
  · rcases Nat.lt_or_ge scope.length g.index with hlt | hle
    · rcases hg : m.globals.lookup g with _ | w
      · exact Or.inr ⟨rfl, hlt⟩
      · exact Or.inl (hkept g w hg)
    · exact Or.inl (h'.find?_eq hn hle)

/-- Globals are numbered without a gap and written apart, and none is set twice. -/
theorem globals_set_once :
    (∀ machine log cs, Session.Numbering (EngineState.trace ⟨.empty, machine, log⟩ cs)
      (EngineState.calls cs ⟨.empty, machine, log⟩).session)
    ∧ ∀ as bs : List Action, (∀ a ∈ as ++ bs, a.isFresh = false) →
      let i := Interaction.acts .standard as (.start .empty)
      i.engine.machine.Outlasts i.engine.session.definitions.count
        (i.acts .standard bs).engine.machine := by
  refine ⟨fun machine log cs => (Session.tracks machine log cs).numbering, fun as bs hfresh => ?_⟩
  have hstart : (Interaction.start EngineState.empty).engine.session.definitions
      = Scope.definitions [] := rfl
  obtain ⟨scope, hd, hn, hgrow⟩ := Interaction.acts_grow as
    (fun a ha => hfresh a (List.mem_append_left bs ha)) hstart rfl
  obtain ⟨scope', -, hn', hgrow'⟩ := Interaction.acts_grow bs
    (fun a ha => hfresh a (List.mem_append_right as ha)) hd hn
  intro i
  rw [hd]
  exact hgrow.outlasts hgrow' hn hn'

theorem globals_set_once_redefined :
    (∀ a ∈ [Action.submit "let x = true", .submit "let x = false", .execute "x"],
        a.isFresh = false)
      ∧ let i := Interaction.acts .standard [.submit "let x = true"] (.start .empty)
        i.engine.machine.Outlasts i.engine.session.definitions.count
          (i.acts .standard [.submit "let x = false", .execute "x"]).engine.machine := by
  have hfresh : ∀ a ∈ [Action.submit "let x = true", .submit "let x = false", .execute "x"],
      a.isFresh = false := by simp [Action.isFresh]
  exact ⟨hfresh, globals_set_once.2 [.submit "let x = true"]
    [.submit "let x = false", .execute "x"] hfresh⟩

end Toplevel
