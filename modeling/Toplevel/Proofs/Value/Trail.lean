import Mathlib.Algebra.Ring.Nat
import Mathlib.Data.List.Nodup
import Mathlib.Data.List.Perm.Subperm
import Mathlib.Logic.Relation
import Toplevel.Value.Display

/-!
# The trail of a printer

A trail is all that a printer has written, in order: pieces of text, objects where they are written
out, and marks where an object comes up that is there already. `Trail.write?` is the plain recursive
printer: it goes through a value from left to right and deep first, and has seen the objects that
its trail has.

`Trail.Extends` says what is added for some values, whatever the objects and however they lead to
each other: every object is written out where it first comes up (`Trail.Orderly`), and with it all
that it leads to; and each time that a value with a structure comes up is counted once.
-/

namespace Toplevel

/-! ### Objects and what they show -/

section

variable {β : Type}

namespace Object

/-- What is written between braces, each value behind its key. -/
def entries : Object β → List (Value × Value)
  | .tagged .. | .ref _ | .closure .. => []
  | .record fields => fields.entries
  | .list items | .tuple items => itemEntries items
  | .mapping entries => entries
  | .attributes members => members.entries

/-- The values that are written for an object. -/
def parts : Object β → List Value
  | .tagged _ payload => [payload]
  | .ref target => [target]
  | o => o.entries.map Prod.snd

def keys (o : Object β) : List Value := o.entries.map Prod.fst

def isClosure : Object β → Bool
  | .closure .. => true
  | _ => false

end Object

namespace Heap

variable (h : Heap β)

/-- The address and the object of a value with a structure. -/
def composite? (v : Value) : Option (Nat × Object β) :=
  match v with
  | .object a => (h.get? a).bind fun o => if o.isClosure then none else some (a, o)
  | _ => none

variable {h}

theorem composite?_eq_some {v : Value} {a : Nat} {o : Object β} :
    h.composite? v = some (a, o) ↔ v = .object a ∧ h.get? a = some o ∧ o.isClosure = false := by
  cases v with
  | object b =>
    simp only [composite?, Option.bind_eq_some_iff, Option.ite_none_left_eq_some,
      Option.some.injEq, Prod.mk.injEq, Value.object.injEq]
    constructor
    · rintro ⟨o', ho, hc, rfl, rfl⟩
      exact ⟨rfl, ho, by simpa using hc⟩
    · rintro ⟨rfl, ho, hc⟩
      exact ⟨o, ho, by simpa using hc, rfl, rfl⟩
  | _ => simp [composite?]

theorem isStructured_eq (v : Value) : h.isStructured v = (h.composite? v).isSome := by
  cases v with
  | object a =>
    simp only [isStructured, object?, composite?]
    rcases h.get? a with _ | o
    · rfl
    · cases o <;> rfl
  | _ => rfl

theorem lt_size_of_isStructured {a : Nat} (ha : h.isStructured (.object a)) : a < h.size := by
  rw [isStructured_eq, Option.isSome_iff_exists] at ha
  obtain ⟨⟨b, o⟩, hb⟩ := ha
  obtain ⟨heq, ho, -⟩ := composite?_eq_some.1 hb
  cases heq
  exact lt_of_get? ho

/-- Different objects are no more than there are. -/
theorem length_le_size {as : List Nat} (hnodup : as.Nodup) (has : ∀ a ∈ as, a < h.size) :
    as.length ≤ h.size := by
  have hsub : as ⊆ List.range h.size := fun a ha => List.mem_range.2 (has a ha)
  have hle := (hnodup.subperm hsub).length_le
  rwa [List.length_range] at hle

variable (h)

/-- `w` is a part of the object `v`. -/
def IsPart (v w : Value) : Prop := ∃ o, h.object? v = some o ∧ w ∈ o.parts

/-- `w` comes up where `v` is written, keys apart. -/
def Leads : Value → Value → Prop := Relation.ReflTransGen h.IsPart

variable {h}

theorem isPart_iff {v w : Value} :
    h.IsPart v w ↔ ∃ a o, h.composite? v = some (a, o) ∧ w ∈ o.parts := by
  constructor
  · rintro ⟨o, ho, hw⟩
    cases v with
    | object a =>
      refine ⟨a, o, composite?_eq_some.2 ⟨rfl, ho, ?_⟩, hw⟩
      cases o <;> first | rfl | simp [Object.parts, Object.entries] at hw
    | _ => cases ho
  · rintro ⟨a, o, hv, hw⟩
    obtain ⟨rfl, ho, -⟩ := composite?_eq_some.1 hv
    exact ⟨o, ho, hw⟩

theorem leads_part {v w x : Value} {a : Nat} {o : Object β} (hv : h.composite? v = some (a, o))
    (hw : w ∈ o.parts) (hx : h.Leads w x) : h.Leads v x :=
  .head (isPart_iff.2 ⟨a, o, hv, hw⟩) hx

end Heap

end

/-! ### Trails -/

/-- One thing that a printer writes. -/
inductive Fragment where
  | text (t : Text)
  /-- An object is written out from here on. -/
  | first (a : Nat)
  /-- An object is marked that has come up before. -/
  | again (a : Nat)
deriving DecidableEq

namespace Fragment

def piece? : Fragment → Option Text
  | text t => some t
  | first _ => none
  | again _ => some "..."

def first? : Fragment → Option Nat
  | first a => some a
  | _ => none

def isAgain : Fragment → Bool
  | again _ => true
  | _ => false

end Fragment

/-- What has been written, in order. -/
abbrev Trail := List Fragment

namespace Trail

def empty : Trail := []

def add (t : Trail) (f : Fragment) : Trail := t ++ [f]

def pieces (t : Trail) : List Text := List.filterMap Fragment.piece? t

def text (t : Trail) : Text := t.pieces.flatten

/-- The objects that have been written out, in order. -/
def firsts (t : Trail) : List Nat := List.filterMap Fragment.first? t

/-- How many marks there are. -/
def marks (t : Trail) : Nat := List.countP Fragment.isAgain t

section Add

variable (t : Trail) (s : Text) (a : Nat)

@[simp]
theorem pieces_add_text : (t.add (.text s)).pieces = t.pieces ++ [s] :=
  List.filterMap_append

@[simp]
theorem pieces_add_first : (t.add (.first a)).pieces = t.pieces :=
  List.filterMap_append.trans (List.append_nil _)

@[simp]
theorem pieces_add_again : (t.add (.again a)).pieces = t.pieces ++ [("..." : Text)] :=
  List.filterMap_append

@[simp]
theorem firsts_add_text : (t.add (.text s)).firsts = t.firsts :=
  List.filterMap_append.trans (List.append_nil _)

@[simp]
theorem firsts_add_first : (t.add (.first a)).firsts = t.firsts ++ [a] :=
  List.filterMap_append

@[simp]
theorem firsts_add_again : (t.add (.again a)).firsts = t.firsts :=
  List.filterMap_append.trans (List.append_nil _)

@[simp]
theorem marks_add_text : (t.add (.text s)).marks = t.marks :=
  List.countP_append

@[simp]
theorem marks_add_first : (t.add (.first a)).marks = t.marks :=
  List.countP_append

@[simp]
theorem marks_add_again : (t.add (.again a)).marks = t.marks + 1 :=
  List.countP_append

end Add

end Trail

/-! ### Values without a structure -/

def hasManyDigits (i : Int) : Bool := power 10 maxDigits ≤ i.natAbs

namespace Value

/-- A number that is written with whole numbers, one of which has too many digits. -/
def isTooLong : Value → Bool
  | .int i => hasManyDigits i
  | .fraction f => hasManyDigits f.num || hasManyDigits f.den
  | _ => false

def text? (v : Value) : Option Text := v.atomText.toOption

theorem text?_isSome (v : Value) : v.text?.isSome = !v.isTooLong := by
  have hint : ∀ i : Int, intText? i
      = if hasManyDigits i then .error .tooManyDigits else .ok (Text.ofInt i) := by
    intro i
    simp only [intText?, hasManyDigits, decide_eq_true_eq]
  cases v with
  | int i =>
    simp only [text?, atomText, hint, isTooLong]
    cases hasManyDigits i <;> rfl
  | fraction f =>
    simp only [text?, atomText, hint, isTooLong]
    cases hasManyDigits f.num <;> cases hasManyDigits f.den <;> rfl
  | _ => rfl

end Value

/-! ### The recursive printer -/

namespace Trail

section

variable {β : Type} (h : Heap β) (key? : Value → Option Text)

/-- Writes entries one after another, each behind its key, and the brace that closes them. -/
def writeEntries? (write? : Trail → Value → Option Trail) :
    Text → Trail → List (Value × Value) → Option Trail
  | _, t, [] => some (t.add (.text "\x7d"))
  | before, t, e :: es => do
    let key ← key? e.1
    let t ← write? (t.add (.text (Text.concat [before, key, "="]))) e.2
    writeEntries? write? "; " t es

def writeObject? (write? : Trail → Value → Option Trail) (t : Trail) : Object β → Option Trail
  | .tagged tag payload =>
    write? (t.add (.text (if h.isStructured payload then tag else Text.concat [tag, " "]))) payload
  | .ref target => write? (t.add (.text "ref ")) target
  | o => writeEntries? key? write? [] (t.add (.text "\x7b")) o.entries

/-- Writes a value behind a trail, given the texts of keys. Objects stand at most `depth` deep
within each other; as only new ones are gone into, there is no need for more than there are. -/
def write? : Nat → Trail → Value → Option Trail
  | 0, _, _ => none
  | depth + 1, t, v =>
    match h.composite? v with
    | none => v.text?.map fun s => t.add (.text s)
    | some (a, o) =>
      if a ∈ t.firsts then some (t.add (.again a))
      else writeObject? h key? (write? depth) (t.add (.first a)) o

end

/-! ### What is added to a trail -/

section

variable {β : Type} (h : Heap β)

/-- Objects are written out where they first come up, and marked from then on. -/
inductive Orderly : Trail → Prop
  | empty : Orderly empty
  | text {t : Trail} (ht : Orderly t) (s : Text) : Orderly (t.add (.text s))
  | first {t : Trail} (ht : Orderly t) {a : Nat} (hnew : a ∉ t.firsts)
    (ha : h.isStructured (.object a)) : Orderly (t.add (.first a))
  | again {t : Trail} (ht : Orderly t) {a : Nat} (ha : a ∈ t.firsts) : Orderly (t.add (.again a))

variable {h}

theorem Orderly.nodup {t : Trail} (ht : Orderly h t) : t.firsts.Nodup := by
  induction ht with
  | empty => exact List.nodup_nil
  | text _ s ih => rwa [firsts_add_text]
  | first _ hnew _ ih =>
    rw [firsts_add_first, List.nodup_append]
    refine ⟨ih, List.nodup_singleton _, fun b hb c hc => ?_⟩
    rw [List.mem_singleton.1 hc]
    exact fun heq => hnew (heq ▸ hb)
  | again _ _ ih => rwa [firsts_add_again]

theorem Orderly.isStructured {t : Trail} (ht : Orderly h t) {a : Nat} (ha : a ∈ t.firsts) :
    h.isStructured (.object a) = true := by
  induction ht with
  | empty => cases ha
  | text _ s ih => exact ih (by rwa [firsts_add_text] at ha)
  | first _ _ hb ih =>
    rw [firsts_add_first, List.mem_append, List.mem_singleton] at ha
    rcases ha with ha | rfl
    · exact ih ha
    · exact hb
  | again _ _ ih => exact ih (by rwa [firsts_add_again] at ha)

theorem Orderly.length_firsts_le {t : Trail} (ht : Orderly h t) : t.firsts.length ≤ h.size :=
  Heap.length_le_size ht.nodup fun _ ha => Heap.lt_size_of_isStructured (ht.isStructured ha)

theorem add_eq_append_cons {t pre post : Trail} {f g : Fragment} (h : t.add f = pre ++ g :: post) :
    (f = g ∧ t = pre) ∨ ∃ post' : Trail, t = pre ++ g :: post' := by
  rcases List.eq_nil_or_concat post with rfl | ⟨post', f', rfl⟩
  · obtain ⟨h1, h2⟩ := List.append_inj' h rfl
    exact Or.inl ⟨List.singleton_inj.1 h2, h1⟩
  · rw [List.concat_eq_append, ← List.cons_append, ← List.append_assoc] at h
    exact Or.inr ⟨post', (List.append_inj' h rfl).1⟩

/-- What stands before a mark has the object that is marked. -/
theorem Orderly.mem_firsts_of_again {t : Trail} (ht : Orderly h t) {pre post : Trail} {a : Nat}
    (heq : t = pre ++ .again a :: post) : a ∈ pre.firsts := by
  induction ht generalizing post with
  | empty => cases pre <;> cases heq
  | text _ s ih =>
    rcases add_eq_append_cons heq with ⟨hf, -⟩ | ⟨post', hpost⟩
    · cases hf
    · exact ih hpost
  | first _ _ _ ih =>
    rcases add_eq_append_cons heq with ⟨hf, -⟩ | ⟨post', hpost⟩
    · cases hf
    · exact ih hpost
  | again _ ha ih =>
    rcases add_eq_append_cons heq with ⟨hf, rfl⟩ | ⟨post', hpost⟩
    · cases hf
      exact ha
    · exact ih hpost

variable (h) (key? : Value → Option Text)

/-- The trail has what there is to write for a value. -/
def Has (t : Trail) (v : Value) : Prop :=
  match h.composite? v with
  | none => v.text?.isSome
  | some (a, _) => a ∈ t.firsts

/-- How many values with a structure are written for the objects at some addresses. -/
def owed (as : List Nat) : Nat :=
  (as.map fun a => ((h.get? a).map fun o => o.parts.countP h.isStructured).getD 0).sum

/-- What is added to a trail where the values `vs` are written. -/
structure Extends (t t' : Trail) (vs : List Value) : Prop where
  grows : ∃ new : Trail, t' = t ++ new
  orderly : Orderly h t → Orderly h t'
  has : ∀ v ∈ vs, t'.Has h v
  /-- What is newly written out is written to its end. -/
  closed : ∀ a ∈ t'.firsts, a ∉ t.firsts → ∀ o, h.get? a = some o →
    (∀ w ∈ o.parts, t'.Has h w) ∧ ∀ k ∈ o.keys, (key? k).isSome
  reached : ∀ a ∈ t'.firsts, a ∉ t.firsts → ∃ v ∈ vs, h.Leads v (.object a)
  /-- Each time that a value with a structure comes up, it is written out or marked. -/
  count : t'.marks + t'.firsts.length + owed h t.firsts
    = t.marks + t.firsts.length + vs.countP h.isStructured + owed h t'.firsts

variable {h key?}

theorem firsts_append (t new : Trail) : firsts (t ++ new) = t.firsts ++ new.firsts :=
  List.filterMap_append

theorem Has.mono {t t' : Trail} {v : Value} (hv : t.Has h v)
    (hgrows : ∃ new : Trail, t' = t ++ new) : t'.Has h v := by
  obtain ⟨new, rfl⟩ := hgrows
  unfold Has at *
  split
  · simpa [*] using hv
  · rename_i heq
    rw [heq] at hv
    rw [firsts_append]
    exact List.mem_append_left _ hv

namespace Extends

theorem refl (t : Trail) : Extends h key? t t [] where
  grows := ⟨[], (List.append_nil t).symm⟩
  orderly ht := ht
  has v hv := absurd hv List.not_mem_nil
  closed a ha hnew := absurd ha hnew
  reached a ha hnew := absurd ha hnew
  count := by simp

theorem firsts_subset {t t' : Trail} {vs : List Value} (ht : Extends h key? t t' vs) :
    t.firsts ⊆ t'.firsts := by
  obtain ⟨new, rfl⟩ := ht.grows
  rw [firsts_append]
  exact List.subset_append_left _ _

theorem length_firsts_le {t t' : Trail} {vs : List Value} (ht : Extends h key? t t' vs) :
    t.firsts.length ≤ t'.firsts.length := by
  obtain ⟨new, rfl⟩ := ht.grows
  rw [firsts_append, List.length_append]
  exact Nat.le_add_right _ _

theorem trans {t t1 t2 : Trail} {vs ws : List Value} (h1 : Extends h key? t t1 vs)
    (h2 : Extends h key? t1 t2 ws) : Extends h key? t t2 (vs ++ ws) where
  grows := by
    obtain ⟨new1, rfl⟩ := h1.grows
    obtain ⟨new2, rfl⟩ := h2.grows
    exact ⟨new1 ++ new2, List.append_assoc t new1 new2⟩
  orderly ht := h2.orderly (h1.orderly ht)
  has v hv := by
    rcases List.mem_append.1 hv with hv | hv
    · exact (h1.has v hv).mono h2.grows
    · exact h2.has v hv
  closed a ha hnew o ho := by
    by_cases ha1 : a ∈ t1.firsts
    · obtain ⟨hparts, hkeys⟩ := h1.closed a ha1 hnew o ho
      exact ⟨fun w hw => (hparts w hw).mono h2.grows, hkeys⟩
    · exact h2.closed a ha ha1 o ho
  reached a ha hnew := by
    by_cases ha1 : a ∈ t1.firsts
    · obtain ⟨v, hv, hl⟩ := h1.reached a ha1 hnew
      exact ⟨v, List.mem_append_left ws hv, hl⟩
    · obtain ⟨v, hv, hl⟩ := h2.reached a ha ha1
      exact ⟨v, List.mem_append_right vs hv, hl⟩
  count := by
    have hc1 := h1.count
    have hc2 := h2.count
    rw [List.countP_append]
    omega

theorem text (t : Trail) (s : Text) : Extends h key? t (t.add (.text s)) [] where
  grows := ⟨_, rfl⟩
  orderly ht := .text ht s
  has v hv := absurd hv List.not_mem_nil
  closed a ha hnew := by
    rw [firsts_add_text] at ha
    exact absurd ha hnew
  reached a ha hnew := by
    rw [firsts_add_text] at ha
    exact absurd ha hnew
  count := by simp

theorem atom (t : Trail) {v : Value} {s : Text} (hv : h.composite? v = none)
    (hs : v.text? = some s) : Extends h key? t (t.add (.text s)) [v] :=
  { (text t s : Extends h key? t (t.add (.text s)) []) with
    has := fun w hw => by
      rw [List.mem_singleton.1 hw, Has, hv]
      exact Option.isSome_iff_exists.2 ⟨s, hs⟩
    reached := fun a ha hnew => by
      rw [firsts_add_text] at ha
      exact absurd ha hnew
    count := by
      have hn : h.isStructured v = false := by rw [Heap.isStructured_eq, hv]; rfl
      simp [hn] }

theorem again {t : Trail} {v : Value} {a : Nat} {o : Object β}
    (hv : h.composite? v = some (a, o)) (ha : a ∈ t.firsts) :
    Extends h key? t (t.add (.again a)) [v] where
  grows := ⟨_, rfl⟩
  orderly ht := .again ht ha
  has w hw := by
    rw [List.mem_singleton.1 hw, Has, hv]
    change a ∈ (t.add (.again a)).firsts
    rwa [firsts_add_again]
  closed b hb hnew := by
    rw [firsts_add_again] at hb
    exact absurd hb hnew
  reached b hb hnew := by
    rw [firsts_add_again] at hb
    exact absurd hb hnew
  count := by
    have hn : h.isStructured v = true := by rw [Heap.isStructured_eq, hv]; rfl
    simp only [marks_add_again, firsts_add_again, List.countP_singleton, hn, if_true]
    omega

/-- An object is written out with all its parts behind it. -/
theorem object {t t' : Trail} {v : Value} {a : Nat} {o : Object β}
    (hv : h.composite? v = some (a, o)) (hnew : a ∉ t.firsts)
    (hkeys : ∀ k ∈ o.keys, (key? k).isSome) (ht : Extends h key? (t.add (.first a)) t' o.parts) :
    Extends h key? t t' [v] := by
  obtain ⟨rfl, ho, -⟩ := Heap.composite?_eq_some.1 hv
  have hst : h.isStructured (.object a) = true := by rw [Heap.isStructured_eq, hv]; rfl
  have ha : a ∈ t'.firsts := ht.firsts_subset (by simp)
  refine ⟨?_, fun h0 => ht.orderly (.first h0 hnew hst), ?_, ?_, ?_, ?_⟩
  · obtain ⟨new, rfl⟩ := ht.grows
    exact ⟨.first a :: new, List.append_assoc t [.first a] new⟩
  · intro w hw
    rw [List.mem_singleton.1 hw, Has, hv]
    exact ha
  · intro b hb hb0 p hp
    by_cases hba : b = a
    · subst hba
      rw [ho] at hp
      cases hp
      exact ⟨ht.has, hkeys⟩
    · exact ht.closed b hb (by simp [hb0, hba]) p hp
  · intro b hb hb0
    refine ⟨.object a, List.mem_singleton_self _, ?_⟩
    by_cases hba : b = a
    · subst hba
      exact .refl
    · obtain ⟨w, hw, hl⟩ := ht.reached b hb (by simp [hb0, hba])
      exact Heap.leads_part hv hw hl
  · have hc := ht.count
    have howed : owed h (t.add (.first a)).firsts
        = owed h t.firsts + o.parts.countP h.isStructured := by
      simp [owed, ho]
    rw [howed, marks_add_first, firsts_add_first, List.length_append, List.length_singleton] at hc
    simp only [List.countP_singleton, hst, if_true]
    omega

end Extends

theorem writeEntries?_extends {write? : Trail → Value → Option Trail}
    (hw : ∀ t v t', write? t v = some t' → Extends h key? t t' [v]) {es : List (Value × Value)}
    {before : Text} {t t' : Trail} (ht : writeEntries? key? write? before t es = some t') :
    Extends h key? t t' (es.map Prod.snd) ∧ ∀ k ∈ es.map Prod.fst, (key? k).isSome := by
  induction es generalizing before t with
  | nil =>
    cases ht
    exact ⟨.text t _, by simp⟩
  | cons e es ih =>
    simp only [writeEntries?, Option.bind_eq_bind, Option.bind_eq_some_iff] at ht
    obtain ⟨key, hkey, t1, ht1, ht2⟩ := ht
    obtain ⟨hrest, hkeys⟩ := ih ht2
    refine ⟨((Extends.text t _).trans (hw _ _ _ ht1)).trans hrest, ?_⟩
    intro k hk
    rcases List.mem_cons.1 hk with rfl | hk
    · exact Option.isSome_iff_exists.2 ⟨key, hkey⟩
    · exact hkeys k hk

theorem writeObject?_extends {write? : Trail → Value → Option Trail}
    (hw : ∀ t v t', write? t v = some t' → Extends h key? t t' [v]) {o : Object β}
    {t t' : Trail} (ht : writeObject? h key? write? t o = some t') :
    Extends h key? t t' o.parts ∧ ∀ k ∈ o.keys, (key? k).isSome := by
  have hentries : ∀ es, writeEntries? key? write? [] (t.add (.text "\x7b")) es = some t' →
      Extends h key? t t' (es.map Prod.snd) ∧ ∀ k ∈ es.map Prod.fst, (key? k).isSome := by
    intro es hes
    obtain ⟨hext, hkeys⟩ := writeEntries?_extends hw hes
    exact ⟨(Extends.text t _).trans hext, hkeys⟩
  cases o with
  | tagged tag payload =>
    exact ⟨(Extends.text t _).trans (hw _ _ _ ht), fun k hk => absurd hk List.not_mem_nil⟩
  | ref target =>
    exact ⟨(Extends.text t _).trans (hw _ _ _ ht), fun k hk => absurd hk List.not_mem_nil⟩
  | _ => exact hentries _ ht

theorem write?_extends {depth : Nat} {t t' : Trail} {v : Value}
    (ht : write? h key? depth t v = some t') : Extends h key? t t' [v] := by
  induction depth generalizing t t' v with
  | zero => cases ht
  | succ depth ih =>
    simp only [write?] at ht
    split at ht
    · rename_i hv
      obtain ⟨s, hs, rfl⟩ := Option.map_eq_some_iff.1 ht
      exact .atom t hv hs
    · rename_i a o hv
      split at ht
      · rename_i ha
        cases ht
        exact .again hv ha
      · rename_i hnew
        obtain ⟨hext, hkeys⟩ := writeObject?_extends (fun _ _ _ hw => ih hw) ht
        exact .object hv hnew hkeys hext

/-! ### Whole trails -/

variable (h key?)

/-- Writes values one after another. -/
def writeAll? (t : Trail) (vs : List Value) : Option Trail :=
  vs.foldlM (write? h key? (h.size + 1)) t

/-- Nothing is missing that the objects of a trail show. -/
def Closed (t : Trail) : Prop :=
  ∀ a ∈ t.firsts, ∀ o, h.get? a = some o →
    (∀ w ∈ o.parts, t.Has h w) ∧ ∀ k ∈ o.keys, (key? k).isSome

/-- Neither the value nor a key of it stands in the way of writing it. -/
def Writable (v : Value) : Prop :=
  v.text?.isSome ∧ ∀ a o, h.composite? v = some (a, o) → ∀ k ∈ o.keys, (key? k).isSome

variable {h key?}

theorem writeAll?_append (t : Trail) (vs ws : List Value) :
    writeAll? h key? t (vs ++ ws) = (writeAll? h key? t vs).bind fun t' => writeAll? h key? t' ws :=
  List.foldlM_append

theorem writeAll?_extends {t t' : Trail} {vs : List Value}
    (ht : writeAll? h key? t vs = some t') : Extends h key? t t' vs := by
  induction vs generalizing t with
  | nil =>
    cases ht
    exact .refl _
  | cons v vs ih =>
    obtain ⟨t1, ht1, ht2⟩ := Option.bind_eq_some_iff.1 ht
    exact (write?_extends ht1).trans (ih ht2)

theorem Closed.empty : Closed h key? .empty := fun _ ha => absurd ha List.not_mem_nil

theorem Closed.extends {t t' : Trail} {vs : List Value} (hc : Closed h key? t)
    (ht : Extends h key? t t' vs) : Closed h key? t' := by
  intro a ha o ho
  by_cases h0 : a ∈ t.firsts
  · obtain ⟨hparts, hkeys⟩ := hc a h0 o ho
    exact ⟨fun w hw => (hparts w hw).mono ht.grows, hkeys⟩
  · exact ht.closed a ha h0 o ho

theorem Closed.has_of_leads {t : Trail} (hc : Closed h key? t) {v w : Value} (hv : t.Has h v)
    (hw : h.Leads v w) : t.Has h w := by
  induction hw with
  | refl => exact hv
  | tail _ hpart ih =>
    obtain ⟨a, o, hu, hmem⟩ := Heap.isPart_iff.1 hpart
    rw [Has, hu] at ih
    exact (hc a ih o (Heap.composite?_eq_some.1 hu).2.1).1 _ hmem

theorem Closed.writable {t : Trail} (hc : Closed h key? t) {v : Value} (hv : t.Has h v) :
    Writable h key? v := by
  rcases hcomp : h.composite? v with _ | ⟨a, o⟩
  · rw [Has, hcomp] at hv
    exact ⟨hv, fun a o ho => by rw [hcomp] at ho; cases ho⟩
  · rw [Has, hcomp] at hv
    obtain ⟨rfl, ho, -⟩ := Heap.composite?_eq_some.1 hcomp
    refine ⟨rfl, fun b p hp => ?_⟩
    rw [hcomp] at hp
    cases hp
    exact (hc a hv o ho).2

theorem writeEntries?_isSome {write? : Trail → Value → Option Trail} {es : List (Value × Value)}
    {before : Text} {t : Trail} (P : Trail → Prop) (htext : ∀ t s, P t → P (t.add (.text s)))
    (hw : ∀ t, P t → ∀ v ∈ es.map Prod.snd, ∃ t', write? t v = some t' ∧ P t')
    (hkeys : ∀ k ∈ es.map Prod.fst, (key? k).isSome) (ht : P t) :
    (writeEntries? key? write? before t es).isSome := by
  induction es generalizing before t with
  | nil => rfl
  | cons e es ih =>
    obtain ⟨s, hs⟩ := Option.isSome_iff_exists.1 (hkeys e.1 List.mem_cons_self)
    obtain ⟨t1, ht1, hP⟩ := hw _ (htext _ (Text.concat [before, s, "="]) ht) e.2
      List.mem_cons_self
    simp only [writeEntries?, hs, ht1, Option.bind_eq_bind, Option.bind_some]
    exact ih (fun t ht v hv => hw t ht v (List.mem_cons_of_mem _ hv))
      (fun k hk => hkeys k (List.mem_cons_of_mem _ hk)) hP

theorem writeObject?_isSome {write? : Trail → Value → Option Trail} {o : Object β} {t : Trail}
    (P : Trail → Prop) (htext : ∀ t s, P t → P (t.add (.text s)))
    (hw : ∀ t, P t → ∀ v ∈ o.parts, ∃ t', write? t v = some t' ∧ P t')
    (hkeys : ∀ k ∈ o.keys, (key? k).isSome) (ht : P t) :
    (writeObject? h key? write? t o).isSome := by
  have hone : ∀ s v, v ∈ o.parts → (write? (t.add (.text s)) v).isSome := by
    intro s v hv
    obtain ⟨t', ht', -⟩ := hw _ (htext t s ht) v hv
    exact Option.isSome_iff_exists.2 ⟨t', ht'⟩
  cases o with
  | tagged tag payload => exact hone _ _ (List.mem_singleton_self _)
  | ref target => exact hone _ _ (List.mem_singleton_self _)
  | _ => exact writeEntries?_isSome P htext hw hkeys (htext _ _ ht)

/-- What leads to nothing that stands in the way can be written. -/
theorem write?_isSome {depth : Nat} {t : Trail} {v : Value} (ht : Orderly h t)
    (hroom : h.size < depth + t.firsts.length)
    (hv : ∀ w, h.Leads v w → Writable h key? w) : (write? h key? depth t v).isSome := by
  induction depth generalizing t v with
  | zero =>
    have hle := ht.length_firsts_le
    omega
  | succ depth ih =>
    obtain ⟨htext, hkeys⟩ := hv v .refl
    simp only [write?]
    split
    · rwa [Option.isSome_map]
    · rename_i a o hcomp
      split
      · rfl
      · rename_i hnew
        have hst : h.isStructured (.object a) = true := by
          obtain ⟨rfl, -, -⟩ := Heap.composite?_eq_some.1 hcomp
          rw [Heap.isStructured_eq, hcomp]
          rfl
        refine writeObject?_isSome (fun t => Orderly h t ∧ h.size < depth + t.firsts.length)
          (fun t s ht => ⟨.text ht.1 s, by rw [firsts_add_text]; exact ht.2⟩)
          (fun t ht w hw => ?_) (hkeys a o hcomp) ⟨.first ht hnew hst, ?_⟩
        · obtain ⟨t', ht'⟩ := Option.isSome_iff_exists.1
            (ih ht.1 ht.2 fun x hx => hv x (Heap.leads_part hcomp hw hx))
          have hext := write?_extends ht'
          have hle := hext.length_firsts_le
          exact ⟨t', ht', hext.orderly ht.1, by omega⟩
        · rw [firsts_add_first, List.length_append, List.length_singleton]
          omega

/-- Values can be written just if none of them leads to anything that stands in the way. -/
theorem writeAll?_isSome_iff (vs : List Value) :
    (writeAll? h key? .empty vs).isSome ↔ ∀ v ∈ vs, ∀ w, h.Leads v w → Writable h key? w := by
  constructor
  · intro hsome v hv w hw
    obtain ⟨t, ht⟩ := Option.isSome_iff_exists.1 hsome
    have hext := writeAll?_extends ht
    have hclosed := Closed.empty.extends hext
    exact hclosed.writable (hclosed.has_of_leads (hext.has v hv) hw)
  · intro hall
    have hfrom : ∀ t, Orderly h t → (writeAll? h key? t vs).isSome := by
      induction vs with
      | nil => exact fun _ _ => rfl
      | cons v vs ih =>
        intro t ht
        obtain ⟨t1, ht1⟩ := Option.isSome_iff_exists.1
          (show (write? h key? (h.size + 1) t v).isSome from
            write?_isSome ht (by omega) (hall v List.mem_cons_self))
        have hrest := ih (fun w hw => hall w (List.mem_cons_of_mem _ hw)) t1
          ((write?_extends ht1).orderly ht)
        rw [writeAll?, List.foldlM_cons, ht1]
        exact hrest
    exact hfrom .empty .empty

/-- The objects written out are those that the values lead to. -/
theorem mem_firsts_iff {t : Trail} {vs : List Value} (ht : writeAll? h key? .empty vs = some t)
    (a : Nat) :
    a ∈ t.firsts ↔ h.isStructured (.object a) ∧ ∃ v ∈ vs, h.Leads v (.object a) := by
  have hext := writeAll?_extends ht
  constructor
  · intro ha
    exact ⟨(hext.orderly .empty).isStructured ha, hext.reached a ha List.not_mem_nil⟩
  · rintro ⟨hst, v, hv, hl⟩
    have hhas := (Closed.empty.extends hext).has_of_leads (hext.has v hv) hl
    rw [Heap.isStructured_eq, Option.isSome_iff_exists] at hst
    obtain ⟨⟨b, o⟩, hb⟩ := hst
    have heq := (Heap.composite?_eq_some.1 hb).1
    cases heq
    rwa [Has, hb] at hhas

/-! ### The texts of keys -/

theorem writeEntries?_congr {write? write?' : Trail → Value → Option Trail}
    {key?' : Value → Option Text} {es : List (Value × Value)} {before : Text} {t : Trail}
    (hw : ∀ v ∈ es.map Prod.snd, ∀ t, write?' t v = write? t v)
    (hkeys : ∀ k ∈ es.map Prod.fst, key?' k = key? k) :
    writeEntries? key?' write?' before t es = writeEntries? key? write? before t es := by
  induction es generalizing before t with
  | nil => rfl
  | cons e es ih =>
    have hrest : ∀ t, writeEntries? key?' write?' "; " t es = writeEntries? key? write? "; " t es :=
      fun t => ih (fun v hv => hw v (List.mem_cons_of_mem _ hv))
        (fun k hk => hkeys k (List.mem_cons_of_mem _ hk))
    simp only [writeEntries?, hkeys e.1 List.mem_cons_self, hw e.2 List.mem_cons_self, hrest]

theorem writeObject?_congr {write? write?' : Trail → Value → Option Trail}
    {key?' : Value → Option Text} {o : Object β} {t : Trail}
    (hw : ∀ v ∈ o.parts, ∀ t, write?' t v = write? t v) (hkeys : ∀ k ∈ o.keys, key?' k = key? k) :
    writeObject? h key?' write?' t o = writeObject? h key? write? t o := by
  cases o with
  | tagged tag payload => exact hw payload (List.mem_singleton_self _) _
  | ref target => exact hw target (List.mem_singleton_self _) _
  | _ => exact writeEntries?_congr hw hkeys

/-- Only the keys matter that a value leads to. -/
theorem write?_congr {key?' : Value → Option Text} {depth : Nat} {t : Trail} {v : Value}
    (hkeys : ∀ w, h.Leads v w → ∀ a o, h.composite? w = some (a, o) →
      ∀ k ∈ o.keys, key?' k = key? k) : write? h key?' depth t v = write? h key? depth t v := by
  induction depth generalizing t v with
  | zero => rfl
  | succ depth ih =>
    simp only [write?]
    split
    · rfl
    · rename_i a o hv
      split
      · rfl
      · refine writeObject?_congr (fun w hw t => ih fun x hx => ?_) (hkeys v .refl a o hv)
        exact hkeys x (Heap.leads_part hv hw hx)

theorem writeAll?_congr {key?' : Value → Option Text} {t : Trail} {vs : List Value}
    (hkeys : ∀ v ∈ vs, ∀ w, h.Leads v w → ∀ a o, h.composite? w = some (a, o) →
      ∀ k ∈ o.keys, key?' k = key? k) : writeAll? h key?' t vs = writeAll? h key? t vs := by
  induction vs generalizing t with
  | nil => rfl
  | cons v vs ih =>
    have hrest := fun t => ih (t := t) fun w hw => hkeys w (List.mem_cons_of_mem _ hw)
    rw [writeAll?, writeAll?, List.foldlM_cons, List.foldlM_cons,
      write?_congr (hkeys v List.mem_cons_self)]
    exact Option.bind_congr fun t _ => hrest t

end

end Trail

end Toplevel
