import Mathlib.Tactic.ByContra
import Toplevel.Eval.Evaluate
import Toplevel.Proofs.Eval.Operation

/-!
# Machines that correspond

Two machines may hold the same objects at different places, and keep the bodies of their functions
in different forms. A `Link` says how places, functions and globals correspond, and
`Link.Machines` that two machines correspond so. What a heap answers about a value is then the
same on both sides (`Heaps.truth`, `Heaps.typeName`, `Heaps.operate`), and they go on to correspond
when the same object is put into both (`Heaps.alloc`, `Heaps.set`).

A global that only the right machine has may be read there and not on the left. The link excuses
the fault that the left machine has then.
-/

namespace Toplevel

/-! ### Renaming places -/

theorem lookup_map_snd {κ α α' : Type} [BEq κ] (f : α → α') (es : List (κ × α)) (k : κ) :
    (es.map (Prod.map id f)).lookup k = (es.lookup k).map f := by
  induction es with
  | nil => rfl
  | cons e es ih =>
    obtain ⟨l, v⟩ := e
    rw [List.map_cons, Prod.map, List.lookup_cons, List.lookup_cons, ih]
    dsimp only [id]
    cases k == l <;> rfl

section Rename

variable (place : Nat → Nat)

/-- The value with the address of its object replaced. -/
def Value.rename : Value → Value
  | .object a => .object (place a)
  | v => v

def Members.rename (ms : Members) : Members := ms.map fun e => (e.1, e.2.rename place)

@[simp]
theorem Value.rename_object (a : Nat) : (Value.object a).rename place = .object (place a) := rfl

theorem Value.rename_of_isAtom {v : Value} (h : v.isAtom) : v.rename place = v := by
  cases v <;> first | rfl | cases h

theorem Value.rename_injective (hplace : Function.Injective place) :
    Function.Injective (Value.rename place) := by
  intro v w h
  cases v with
  | object a =>
    cases w with
    | object b => rw [hplace (Value.object.inj h)]
    | _ => cases h
  | _ => cases w <;> first | exact h | cases h

@[simp]
theorem Value.rename_id (v : Value) : v.rename id = v := by
  cases v <;> rfl

@[simp]
theorem Members.rename_id (ms : Members) : ms.rename id = ms := by
  simp [Members.rename]

@[simp]
theorem Members.rename_nil : Members.rename place [] = [] := rfl

@[simp]
theorem Members.rename_cons (x : Text) (v : Value) (ms : Members) :
    Members.rename place ((x, v) :: ms) = (x, v.rename place) :: ms.rename place := rfl

theorem Members.lookup_rename (ms : Members) (x : Text) :
    (ms.rename place).lookup x = (ms.lookup x).map (Value.rename place) :=
  lookup_map_snd (Value.rename place) ms x

theorem Members.put_rename (ms : Members) (x : Text) (v : Value) :
    (ms.rename place).put x (v.rename place) = (ms.put x v).rename place := by
  induction ms with
  | nil => rfl
  | cons e ms ih =>
    obtain ⟨y, w⟩ := e
    rw [rename_cons]
    simp only [put]
    split
    · rfl
    · rw [ih, rename_cons]

theorem Members.putAll_rename (news ms : Members) :
    (ms.rename place).putAll (Members.rename place news) = (ms.putAll news).rename place := by
  induction news generalizing ms with
  | nil => rfl
  | cons e news ih =>
    obtain ⟨x, v⟩ := e
    rw [rename_cons]
    change ((ms.rename place).put x (v.rename place)).putAll (Members.rename place news)
      = ((ms.put x v).putAll news).rename place
    rw [put_rename, ih]

theorem Numeric.ofValue?_rename (v : Value) :
    Numeric.ofValue? (v.rename place) = Numeric.ofValue? v := by
  cases v <;> rfl

theorem Value.equal_rename (hp : Function.Injective place) (v w : Value) :
    (v.rename place).equal (w.rename place) = v.equal w := by
  simp only [equal, Numeric.ofValue?_rename]
  split
  · rfl
  · cases v <;> cases w <;> first | rfl | simp [rename, hp.eq_iff]

end Rename

@[simp]
theorem Value.rename_id_eq : Value.rename id = id := funext Value.rename_id

/-! ### Other bodies -/

/-- The object with the body of a function in another form. -/
def Object.mapBody {β γ : Type} (f : β → γ) : Object β → Object γ
  | .tagged tag payload => .tagged tag payload
  | .ref target => .ref target
  | .record fields => .record fields
  | .closure x b env => .closure x (f b) env
  | .list items => .list items
  | .tuple items => .tuple items
  | .mapping entries => .mapping entries
  | .attributes members => .attributes members

def Heap.mapBody {β γ : Type} (f : β → γ) (h : Heap β) : Heap γ := ⟨h.objects.map (.mapBody f)⟩

theorem Heap.get?_mapBody {β γ : Type} (f : β → γ) (h : Heap β) (a : Nat) :
    (h.mapBody f).get? a = (h.get? a).map (.mapBody f) := by
  simp [get?, mapBody]

theorem Heap.mapBody_id {β : Type} (h : Heap β) : h.mapBody id = h := by
  have hid : Object.mapBody (id : β → β) = id := by
    funext o
    cases o <;> rfl
  rw [mapBody, hid, Array.map_id]

/-! ### What corresponds -/

/-- How two machines correspond. -/
structure Link (β γ : Type) where
  /-- Where the object at an address of the left heap stands on the right. -/
  place : Nat → Nat
  injective : Function.Injective place
  /-- The functions that correspond, each by its parameter, its body and what it remembers. -/
  functions : Text → β → Members → Text → γ → Members → Prop
  /-- The globals that correspond. -/
  globals : List (Global × Value) → List (Global × Value) → Prop
  /-- The faults of the left machine after which nothing is said about the right one. -/
  excused : Fault → Prop
  lookup_globals : ∀ {gs gs'}, globals gs gs' → ∀ g,
    gs'.lookup g = (gs.lookup g).map (Value.rename place)
      ∨ gs.lookup g = none ∧ excused (.undefined g.text)
  cons_globals : ∀ {gs gs'}, globals gs gs' → ∀ g v,
    globals ((g, v) :: gs) ((g, v.rename place) :: gs')

namespace Link

variable {β γ : Type} (L : Link β γ)

/-- Objects that hold corresponding values. -/
inductive Objects : Object β → Object γ → Prop
  | tagged (tag : Text) (payload : Value) :
    Objects (.tagged tag payload) (.tagged tag (payload.rename L.place))
  | ref (target : Value) : Objects (.ref target) (.ref (target.rename L.place))
  | record (fields : Members) : Objects (.record fields) (.record (fields.rename L.place))
  | closure {x y : Text} {b : β} {c : γ} {env env' : Members}
    (h : L.functions x b env y c env') : Objects (.closure x b env) (.closure y c env')
  | list (items : List Value) : Objects (.list items) (.list (items.map (Value.rename L.place)))
  | tuple (items : List Value) :
    Objects (.tuple items) (.tuple (items.map (Value.rename L.place)))
  | mapping (entries : List (Value × Value)) :
    Objects (.mapping entries)
      (.mapping (entries.map (Prod.map (Value.rename L.place) (Value.rename L.place))))
  | attributes (members : Members) :
    Objects (.attributes members) (.attributes (members.rename L.place))

/-- Heaps of which the right one holds what the left one holds, at the places that the link
says, and puts new objects at corresponding places. -/
structure Heaps (h : Heap β) (h' : Heap γ) : Prop where
  place_size : ∀ k, L.place (h.size + k) = h'.size + k
  objects : ∀ a o, h.get? a = some o → ∃ o', h'.get? (L.place a) = some o' ∧ L.Objects o o'

structure Machines (m : Machine β) (m' : Machine γ) : Prop where
  heaps : L.Heaps m.heap m'.heap
  globals : L.globals m.globals m'.globals

end Link

namespace Link

variable {β γ : Type} {L : Link β γ}

namespace Heaps

variable {h : Heap β} {h' : Heap γ}

theorem get?_cases (H : L.Heaps h h') (a : Nat) :
    (h.get? a = none ∧ h'.get? (L.place a) = none)
      ∨ ∃ o o', h.get? a = some o ∧ h'.get? (L.place a) = some o' ∧ L.Objects o o' := by
  rcases ho : h.get? a with _ | o
  · left
    have hle := Heap.get?_eq_none.1 ho
    obtain ⟨k, rfl⟩ : ∃ k, a = h.size + k := ⟨a - h.size, by omega⟩
    exact ⟨rfl, by rw [H.place_size, Heap.get?_eq_none]; omega⟩
  · obtain ⟨o', ho', hoo⟩ := H.objects a o ho
    exact Or.inr ⟨o, o', rfl, ho', hoo⟩

theorem object?_cases (H : L.Heaps h h') (v : Value) :
    (h.object? v = none ∧ h'.object? (v.rename L.place) = none)
      ∨ ∃ o o', h.object? v = some o ∧ h'.object? (v.rename L.place) = some o'
          ∧ L.Objects o o' := by
  cases v with
  | object a => exact H.get?_cases a
  | _ => exact Or.inl ⟨rfl, rfl⟩

theorem typeName (H : L.Heaps h h') (v : Value) :
    h'.typeName (v.rename L.place) = h.typeName v := by
  cases v with
  | object a =>
    rcases H.get?_cases a with ⟨h1, h2⟩ | ⟨o, o', h1, h2, ho⟩
    · simp [Heap.typeName, h1, h2]
    · cases ho <;> simp [Heap.typeName, h1, h2]
  | _ => rfl

theorem truth (H : L.Heaps h h') (v : Value) : h'.truth (v.rename L.place) = h.truth v := by
  cases v with
  | object a =>
    rcases H.get?_cases a with ⟨h1, h2⟩ | ⟨o, o', h1, h2, ho⟩
    · simp [Heap.truth, h1, h2]
    · cases ho <;> simp [Heap.truth, h1, h2, Members.rename]
  | decimal _ d => cases d <;> rfl
  | _ => rfl

theorem isStructured (H : L.Heaps h h') (v : Value) :
    h'.isStructured (v.rename L.place) = h.isStructured v := by
  rcases H.object?_cases v with ⟨h1, h2⟩ | ⟨o, o', h1, h2, ho⟩
  · simp [Heap.isStructured, h1, h2]
  · cases ho <;> simp [Heap.isStructured, h1, h2]

theorem compared (H : L.Heaps h h') (op : Operator) (v w : Value) :
    h'.compared op (v.rename L.place) (w.rename L.place) = h.compared op v w := by
  unfold Heap.compared
  simp only [Numeric.ofValue?_rename, H.typeName]
  split
  · rfl
  · cases v <;> cases w <;> rfl

theorem repeatText (H : L.Heaps h h') (t : Text) (v : Value) :
    h'.repeatText t (v.rename L.place) = h.repeatText t v := by
  unfold Heap.repeatText
  rw [Numeric.ofValue?_rename, H.typeName]

/-- Operators give the same answer on both sides. -/
theorem operate (H : L.Heaps h h') (op : Operator) (v w : Value) :
    h'.operate op (v.rename L.place) (w.rename L.place) = h.operate op v w := by
  have hun : ∀ op, Except.error (ε := Fault) (α := Value) (.unsupportedOperands op
        (h'.typeName (v.rename L.place)) (h'.typeName (w.rename L.place)))
      = .error (.unsupportedOperands op (h.typeName v) (h.typeName w)) := fun op => by
    rw [H.typeName, H.typeName]
  have hcat : Except.error (ε := Fault) (α := Value)
        (.notConcatenable (h'.typeName (w.rename L.place)))
      = .error (.notConcatenable (h.typeName w)) := by rw [H.typeName]
  have hv := fun t => H.repeatText t v
  have hw := fun t => H.repeatText t w
  unfold Heap.operate
  cases op with
  | equal | notEqual => simp only [Value.equal_rename L.place L.injective]
  | less | lessEqual | greater | greaterEqual => exact H.compared _ v w
  | plus =>
    simp only [Numeric.ofValue?_rename]
    split
    · rfl
    · cases v with
      | string s => cases w with
        | string t => rfl
        | _ => exact hcat
      | _ => exact hun _
  | times =>
    simp only [Numeric.ofValue?_rename]
    split
    · rfl
    · cases v with
      | string s => exact hw s
      | _ => cases w with
        | string t => exact hv t
        | _ => exact hun _
  | minus | divide =>
    simp only [Numeric.ofValue?_rename]
    split
    · rfl
    · exact hun _

theorem real (H : L.Heaps h h') (v : Value) : h'.real (v.rename L.place) = h.real v := by
  unfold Heap.real
  rw [Numeric.ofValue?_rename, H.typeName]

theorem remainder (H : L.Heaps h h') (v w : Value) :
    h'.remainder (v.rename L.place) (w.rename L.place) = h.remainder v w := by
  unfold Heap.remainder
  rw [H.real, H.real]

theorem negate (H : L.Heaps h h') (v : Value) : h'.negate (v.rename L.place) = h.negate v := by
  unfold Heap.negate
  rw [Numeric.ofValue?_rename, H.typeName]

theorem alloc (H : L.Heaps h h') {o : Object β} {o' : Object γ} (ho : L.Objects o o') :
    L.Heaps (h.alloc o).2 (h'.alloc o').2 where
  place_size k := by
    have := H.place_size (k + 1)
    simp only [Heap.size_alloc]
    rw [show h.size + 1 + k = h.size + (k + 1) by omega, this]
    omega
  objects a p hp := by
    have hlt := Heap.lt_of_get? hp
    rw [Heap.size_alloc] at hlt
    rcases Nat.lt_succ_iff_lt_or_eq.1 hlt with hlt | rfl
    · rw [Heap.get?_alloc_of_lt hlt] at hp
      obtain ⟨p', hp', hpp⟩ := H.objects a p hp
      exact ⟨p', by rw [Heap.get?_alloc_of_lt (Heap.lt_of_get? hp'), hp'], hpp⟩
    · have hsize : L.place h.size = h'.size := H.place_size 0
      rw [show h.size = (h.alloc o).1 from rfl, Heap.get?_alloc] at hp
      cases hp
      exact ⟨o', by rw [hsize]; exact Heap.get?_alloc h' o', ho⟩

theorem set (H : L.Heaps h h') {a : Nat} (ha : a < h.size) {o : Object β} {o' : Object γ}
    (ho : L.Objects o o') : L.Heaps (h.set a o) (h'.set (L.place a) o') where
  place_size k := by
    rw [Heap.size_set, Heap.size_set]
    exact H.place_size k
  objects b p hp := by
    by_cases hab : a = b
    · subst hab
      rw [Heap.get?_set_self ha] at hp
      cases hp
      rcases H.get?_cases a with ⟨h1, -⟩ | ⟨q, q', -, h2, -⟩
      · rw [Heap.get?_eq_none] at h1
        omega
      · exact ⟨o', Heap.get?_set_self (Heap.lt_of_get? h2) o', ho⟩
    · rw [Heap.get?_set_of_ne hab] at hp
      obtain ⟨p', hp', hpp⟩ := H.objects b p hp
      exact ⟨p', by rw [Heap.get?_set_of_ne (fun he => hab (L.injective he)), hp'], hpp⟩

/-- Heaps that differ in the bodies of functions only correspond if these do. -/
theorem mapBody {δ : Type} {f : δ → β} {g : δ → γ} (hplace : L.place = id)
    (hbody : ∀ x b env, L.functions x (f b) env x (g b) env) (h : Heap δ) :
    L.Heaps (h.mapBody f) (h.mapBody g) where
  place_size k := by
    rw [hplace]
    simp [Heap.mapBody, Heap.size]
  objects a o ho := by
    rw [Heap.get?_mapBody] at ho
    obtain ⟨p, hp, rfl⟩ := Option.map_eq_some_iff.1 ho
    refine ⟨p.mapBody g, by rw [hplace, Heap.get?_mapBody, id, hp]; rfl, ?_⟩
    have hv : ∀ v : Value, v.rename L.place = v := fun v => by rw [hplace, Value.rename_id]
    have hms : ∀ ms : Members, ms.rename L.place = ms := fun ms => by
      rw [hplace, Members.rename_id]
    have hid : Value.rename L.place = id := funext hv
    cases p with
    | closure x b env => exact .closure (hbody x b env)
    | tagged tag payload =>
      have ho := Objects.tagged (L := L) tag payload
      rwa [hv] at ho
    | ref target =>
      have ho := Objects.ref (L := L) target
      rwa [hv] at ho
    | record fields =>
      have ho := Objects.record (L := L) fields
      rwa [hms] at ho
    | list items =>
      have ho := Objects.list (L := L) items
      rwa [hid, List.map_id] at ho
    | tuple items =>
      have ho := Objects.tuple (L := L) items
      rwa [hid, List.map_id] at ho
    | mapping entries =>
      have ho := Objects.mapping (L := L) entries
      rwa [hid, Prod.map_id, List.map_id] at ho
    | attributes members =>
      have ho := Objects.attributes (L := L) members
      rwa [hms] at ho

end Heaps

end Link

end Toplevel
