import Mathlib.Data.List.Nodup
import Toplevel.Proofs.Code.Rules

/-!
# Scopes

A scope is the list of the definitions made so far. It determines what a session knows of them: the
bindings name the latest definition of each name, and the count is the length of the scope
(`Scope.definitions`). Compiling a program takes the definitions of one scope to those of the next,
and its targets are what the scope gains (`compileAll_scope`).
-/

namespace Toplevel

/-- Definitions, the latest first. -/
abbrev Scope := List Global

namespace Scope

def find? (scope : Scope) (x : Text) : Option Global := List.find? (fun g => g.name = x) scope

def push (scope : Scope) (x : Text) : Scope := ⟨scope.length + 1, x⟩ :: scope

def bindings : Scope → Bindings
  | [] => []
  | g :: scope => (bindings scope).set g.name g

def definitions (scope : Scope) : Definitions := ⟨bindings scope, scope.length⟩

/-- The definitions are numbered from one on, in the order in which they were made. -/
def Numbered (scope : Scope) : Prop :=
  scope.reverse.map Global.index = List.range' 1 scope.length

end Scope

def Statement.after (scope : Scope) : Statement → Scope
  | .define x _ _ => scope.push x
  | .expr _ => scope

def Program.after (p : Program) (scope : Scope) : Scope := p.statements.foldl Statement.after scope

def Statement.name? : Statement → Option Text
  | .define x _ _ => some x
  | .expr _ => none

def Program.names (p : Program) : List Text := p.statements.filterMap Statement.name?

def Step.target? : Step → Option Global
  | .define g _ => some g
  | .expr _ => none

def Compiled.targets (c : Compiled) : List Global := c.steps.filterMap Step.target?

theorem mem_of_lookup {κ α : Type} [BEq κ] [LawfulBEq κ] {es : List (κ × α)} {k : κ} {a : α}
    (h : es.lookup k = some a) : (k, a) ∈ es := by
  obtain ⟨before, after, rfl, -⟩ := List.lookup_eq_some_iff.1 h
  exact List.mem_append_right _ List.mem_cons_self

namespace Bindings

theorem find?_set (b : Bindings) (x y : Text) (g : Global) :
    (b.set x g).find? y = if x = y then some g else b.find? y := by
  simp only [set, find?, List.lookup_cons]
  by_cases h : x = y
  · simp [h]
  · have hb : (y == x) = false := by simpa using Ne.symm h
    simp only [hb, if_neg h]
    induction b with
    | nil => rfl
    | cons e b ih =>
      obtain ⟨z, g'⟩ := e
      rw [List.filter_cons]
      by_cases hz : z = x
      · have hyz : (y == z) = false := by simpa [hz] using Ne.symm h
        rw [if_neg (by simp [hz]), List.lookup_cons, hyz]
        exact ih
      · simp only [hz, ne_eq, not_false_eq_true, decide_true, if_true, List.lookup_cons, ih]

theorem mem_set {b : Bindings} {x : Text} {g : Global} {e : Text × Global} (h : e ∈ b.set x g) :
    e = (x, g) ∨ e ∈ b := by
  rcases List.mem_cons.1 h with h | h
  · exact Or.inl h
  · exact Or.inr (List.mem_of_mem_filter h)

end Bindings

namespace Scope

theorem find?_bindings (scope : Scope) (x : Text) : scope.bindings.find? x = scope.find? x := by
  induction scope with
  | nil => rfl
  | cons g scope ih =>
    rw [bindings, Bindings.find?_set, ih]
    by_cases h : g.name = x <;> simp [find?, h]

theorem mem_bindings {scope : Scope} {e : Text × Global} (h : e ∈ scope.bindings) :
    e.2 ∈ scope ∧ e.2.name = e.1 := by
  induction scope with
  | nil => cases h
  | cons g scope ih =>
    rcases List.mem_cons.1 h with rfl | h
    · exact ⟨List.mem_cons_self, rfl⟩
    · obtain ⟨h1, h2⟩ := ih (List.mem_of_mem_filter h)
      exact ⟨List.mem_cons_of_mem g h1, h2⟩

theorem Numbered.push {scope : Scope} (h : scope.Numbered) (x : Text) :
    (scope.push x).Numbered := by
  unfold Numbered Scope.push at *
  rw [List.reverse_cons, List.map_append, h, List.length_cons, List.range'_concat]
  simp [Nat.add_comm]

theorem Numbered.nodup {scope : Scope} (h : scope.Numbered) : scope.Nodup := by
  refine List.nodup_reverse.1 (List.Nodup.of_map Global.index ?_)
  rw [h]
  exact List.nodup_range'

/-- What comes later has a greater number. -/
theorem Numbered.lt_index {added scope : Scope} (h : Numbered (added ++ scope)) {g : Global}
    (hg : g ∈ added) : scope.length < g.index := by
  rw [Numbered, List.reverse_append, List.map_append, List.length_append,
    Nat.add_comm added.length, ← List.range'_append_1] at h
  have hadded := (List.append_inj h (by simp)).2
  have hmem : g.index ∈ added.reverse.map Global.index :=
    List.mem_map_of_mem (List.mem_reverse.2 hg)
  rw [hadded, List.mem_range'_1] at hmem
  omega

theorem Numbered.index_le {scope : Scope} (h : scope.Numbered) {g : Global} (hg : g ∈ scope) :
    g.index ≤ scope.length := by
  have hmem : g.index ∈ scope.reverse.map Global.index :=
    List.mem_map_of_mem (List.mem_reverse.2 hg)
  rw [h, List.mem_range'_1] at hmem
  omega

end Scope

theorem Statement.numbered_after {scope : Scope} (h : scope.Numbered) (s : Statement) :
    (s.after scope).Numbered := by
  cases s with
  | define x v recursive => exact h.push x
  | expr e => exact h

theorem Statement.compile?_scope {scope : Scope} {s : Statement} {step : Step} {d : Definitions}
    (h : s.compile? scope.definitions = .ok (step, d)) :
    d = (s.after scope).definitions ∧ s.after scope = step.target?.toList ++ scope
      ∧ step.target?.map Global.name = s.name? := by
  cases Statement.compile?_eq_ok_iff.1 h <;> exact ⟨rfl, rfl, rfl⟩

/-- Compiling goes from the definitions of one scope to those of the next. -/
theorem compileAll_scope {scope : Scope} {ss : List Statement} {steps : List Step}
    {d : Definitions} (h : compileAll scope.definitions ss = .ok (steps, d)) :
    d = (ss.foldl Statement.after scope).definitions
      ∧ ss.foldl Statement.after scope = (steps.filterMap Step.target?).reverse ++ scope
      ∧ (steps.filterMap Step.target?).map Global.name = ss.filterMap Statement.name? := by
  induction ss generalizing scope steps with
  | nil =>
    cases h
    exact ⟨rfl, rfl, rfl⟩
  | cons s ss ih =>
    obtain ⟨step, d₁, rest, rfl, hs, hrest⟩ := compileAll_cons_eq_ok_iff.1 h
    obtain ⟨rfl, hscope, hname⟩ := s.compile?_scope hs
    obtain ⟨rfl, htargets, hnames⟩ := ih hrest
    refine ⟨rfl, ?_, ?_⟩
    · rw [List.foldl_cons, htargets, hscope]
      rcases step with ⟨g, c⟩ | c <;> simp [List.filterMap_cons, Step.target?]
    · rw [List.filterMap_cons, List.filterMap_cons, ← hname, ← hnames]
      rcases step with ⟨g, c⟩ | c <;> rfl

/-- A source that compiles is that of a program whose statements compile. -/
theorem exists_compileAll {source : Text} {d d' : Definitions} {code : Compiled}
    (h : compileSource source d = .ok (code, d')) :
    ∃ p, parse source = .ok p ∧ compileAll d p.statements = .ok (code.steps, d') := by
  unfold compileSource at h
  split at h
  · cases h
  · rename_i p hp
    exact ⟨p, hp, Program.compile?_eq_ok_iff.1 h⟩

/-- What a source that compiles does to the scope. -/
theorem compileSource_scope {scope : Scope} {source : Text} {code : Compiled} {d : Definitions}
    (h : compileSource source scope.definitions = .ok (code, d)) :
    ∃ p, parse source = .ok p ∧ p.compile? scope.definitions = .ok (code, d)
      ∧ d = (p.after scope).definitions ∧ p.after scope = code.targets.reverse ++ scope
      ∧ code.targets.map Global.name = p.names := by
  obtain ⟨p, hp, hall⟩ := exists_compileAll h
  exact ⟨p, hp, Program.compile?_eq_ok_iff.2 hall, compileAll_scope hall⟩

theorem Program.numbered_after {scope : Scope} (h : scope.Numbered) (p : Program) :
    (p.after scope).Numbered := by
  unfold Program.after
  induction p.statements generalizing scope with
  | nil => exact h
  | cons s ss ih => exact ih (s.numbered_after h)

/-! ### Two sources

The cases of later theorems are about two definitions of one name.
-/

def isDefinitionAsTrue : Except ParseError Program → Bool
  | .ok ⟨[.define x (.bool true) false]⟩ => x = "x"
  | _ => false

def isDefinitionAsItself : Except ParseError Program → Bool
  | .ok ⟨[.define x (.var y _) true]⟩ => x = "x" && y = "x"
  | _ => false

theorem eq_of_isDefinitionAsTrue {r : Except ParseError Program} (h : isDefinitionAsTrue r) :
    r = .ok ⟨[.define "x" (.bool true) false]⟩ := by
  unfold isDefinitionAsTrue at h
  split at h
  · rw [of_decide_eq_true h]
  · cases h

theorem eq_of_isDefinitionAsItself {r : Except ParseError Program}
    (h : isDefinitionAsItself r) : ∃ p, r = .ok ⟨[.define "x" (.var "x" p) true]⟩ := by
  unfold isDefinitionAsItself at h
  split at h
  · rename_i x y p
    rw [Bool.and_eq_true, decide_eq_true_eq, decide_eq_true_eq] at h
    exact ⟨p, by rw [h.1, h.2]⟩
  · cases h

end Toplevel
