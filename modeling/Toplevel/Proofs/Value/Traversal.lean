import Toplevel.Proofs.Value.Trail

/-!
# The work stack and the recursive printer

A display keeps what is still to be written on a stack. It writes the same as the recursive printer:
where that has written a value behind a trail, the display has taken the value off its stack and
goes on with what lies below (`Trail.write?_continues`). So the texts are the same, and what trails
say of marks and of objects written out is true of displays (`Heap.display_as_recursive`).
-/

namespace Toplevel

variable {β : Type}

/-- A display that has written what a trail has. -/
structure Display.Shows (d : Display) (t : Trail) : Prop where
  pieces : d.pieces = t.pieces.reverse
  seen : ∀ a, d.seen.contains a = decide (a ∈ t.firsts)

namespace Display.Shows

theorem empty : Display.empty.Shows .empty :=
  ⟨rfl, fun a => by simp [Display.empty, Trail.empty, Trail.firsts]⟩

variable {d : Display} {t : Trail}

theorem write (h : d.Shows t) (s : Text) : (d.write s).Shows (t.add (.text s)) :=
  ⟨by simp [Display.write, h.pieces], fun a => by simp [Display.write, h.seen]⟩

theorem again (h : d.Shows t) (a : Nat) : (d.write "...").Shows (t.add (.again a)) :=
  ⟨by simp [Display.write, h.pieces], fun b => by simp [Display.write, h.seen]⟩

theorem mark (h : d.Shows t) (a : Nat) : (d.mark a).Shows (t.add (.first a)) where
  pieces := by simp [Display.mark, h.pieces]
  seen b := by
    simp only [Display.mark, Std.HashSet.contains_insert, h.seen, Trail.firsts_add_first,
      List.mem_append, List.mem_singleton, Bool.decide_or]
    rw [Bool.or_comm]
    congr 1
    rw [Bool.eq_iff_iff, beq_iff_eq, decide_eq_true_eq, eq_comm]

theorem text (h : d.Shows t) : d.text = t.text := by
  rw [Display.text, h.pieces, List.reverse_reverse, Trail.text]

end Display.Shows

/-! ### Steps of a display -/

section

variable {h : Heap β} {key : Value → Except DisplayError Text} (budget : Nat) (d : Display)
  (rest : List Work)

theorem writeAll_nil : writeAll h key (budget + 1) d [] = .ok d := rfl

theorem writeAll_atom {v : Value} (hv : h.composite? v = none) :
    writeAll h key (budget + 1) d (.value v :: rest) = (do
      let s ← v.atomText
      writeAll h key (budget + 1) (d.write s) rest) := by
  have hdrain : drain h d (.value v :: rest) = (do
      let s ← v.atomText
      drain h (d.write s) rest) := by
    have hn : h.isStructured v = false := by rw [Heap.isStructured_eq, hv]; rfl
    cases v with
    | object a => exact if_neg (Bool.eq_false_iff.1 hn)
    | _ => rfl
  change (drain h d _ >>= _) = _
  rw [hdrain]
  rcases v.atomText with e | s <;> rfl

theorem writeAll_again {v : Value} {a : Nat} {o : Object β} (hv : h.composite? v = some (a, o))
    (ha : d.seen.contains a = true) :
    writeAll h key (budget + 1) d (.value v :: rest)
      = writeAll h key (budget + 1) (d.write "...") rest := by
  have hst : h.isStructured v = true := by rw [Heap.isStructured_eq, hv]; rfl
  obtain ⟨rfl, -, -⟩ := Heap.composite?_eq_some.1 hv
  have hdrain : drain h d (.value (.object a) :: rest) = drain h (d.write "...") rest :=
    (if_pos hst).trans (if_pos ha)
  change (drain h d _ >>= _) = _
  rw [hdrain]
  rfl

theorem writeAll_first {v : Value} {a : Nat} {o : Object β} (hv : h.composite? v = some (a, o))
    (ha : d.seen.contains a = false) :
    writeAll h key (budget + 1) d (.value v :: rest) = (do
      let work ← o.work h key
      writeAll h key budget (d.mark a) (work ++ rest)) := by
  have hst : h.isStructured v = true := by rw [Heap.isStructured_eq, hv]; rfl
  obtain ⟨rfl, ho, -⟩ := Heap.composite?_eq_some.1 hv
  have hdrain : drain h d (.value (.object a) :: rest) = .ok (d, some (a, rest)) :=
    (if_pos hst).trans (if_neg (Bool.eq_false_iff.1 ha))
  change (drain h d _ >>= _) = _
  rw [hdrain]
  simp only [bind, Except.bind, ho]

end

/-! ### Going on behind a value -/

namespace Trail

section

variable (h : Heap β) (key : Value → Except DisplayError Text)

/-- The text that a display has for a key, if it has one. -/
def known (k : Value) : Option Text := (key k).toOption

/-- There are more than enough steps left for the objects that the trail does not have. -/
def Room (steps : Nat) (t : Trail) : Prop := h.size < steps + t.firsts.length

/-- What a display comes to that has all of a trail written and `rest` still to write; it fails
where there is no trail. -/
def Continues (rest : List Work) (r : Except DisplayError Display) : Option Trail → Prop
  | none => r.toOption = none
  | some t => ∃ d budget, d.Shows t ∧ Room h budget t ∧ r = writeAll h key budget d rest

end

variable {h : Heap β} {key : Value → Except DisplayError Text}

theorem Room.exists_succ {steps : Nat} {t : Trail} (hroom : Room h steps t) (ht : Orderly h t) :
    ∃ k, steps = k + 1 := by
  have hle := ht.length_firsts_le
  unfold Room at hroom
  exact ⟨steps - 1, by omega⟩

theorem Room.mono {steps : Nat} {t t' : Trail} (hroom : Room h steps t)
    (hle : t.firsts.length ≤ t'.firsts.length) : Room h steps t' := by
  unfold Room at *
  omega

theorem Room.first {steps : Nat} {t : Trail} (hroom : Room h (steps + 1) t) (a : Nat) :
    Room h steps (t.add (.first a)) := by
  unfold Room at *
  rw [firsts_add_first, List.length_append, List.length_singleton]
  omega

theorem Room.add_text {steps : Nat} {t : Trail} (hroom : Room h steps t) (s : Text) :
    Room h steps (t.add (.text s)) := by
  unfold Room at *
  rwa [firsts_add_text]

theorem exists_entriesWork {before : Text} {es : List (Value × Value)}
    (hkeys : ∀ k ∈ es.map Prod.fst, (known key k).isSome) :
    ∃ work, entriesWork key before es = .ok work := by
  induction es generalizing before with
  | nil => exact ⟨_, rfl⟩
  | cons e es ih =>
    obtain ⟨work, hwork⟩ : ∃ work, entriesWork key "; " es = .ok work :=
      ih fun k hk => hkeys k (List.mem_cons_of_mem _ hk)
    have hkey := hkeys e.1 List.mem_cons_self
    rcases hk : key e.1 with err | s
    · rw [known, hk] at hkey
      cases hkey
    · exact ⟨.text (Text.concat [before, s, "="]) :: .value e.2 :: work, by
        rw [entriesWork, hwork, hk]; rfl⟩

theorem exists_work {o : Object β} (hkeys : ∀ k ∈ o.keys, (known key k).isSome) :
    ∃ work, o.work h key = .ok work := by
  have hbraced : ∀ es : List (Value × Value), (∀ k ∈ es.map Prod.fst, (known key k).isSome) →
      ∃ work, Object.work.braced key es = .ok work := by
    intro es hes
    obtain ⟨work, hwork⟩ : ∃ work, entriesWork key [] es = .ok work := exists_entriesWork hes
    exact ⟨.text "\x7b" :: work, by rw [Object.work.braced, hwork]; rfl⟩
  cases o with
  | tagged tag payload => exact ⟨_, rfl⟩
  | ref target => exact ⟨_, rfl⟩
  | closure x b env => exact ⟨_, rfl⟩
  | _ => exact hbraced _ hkeys

variable {depth : Nat}

/-- What `write?` does within `depth` is what a display does. -/
def Simulates (h : Heap β) (key : Value → Except DisplayError Text) (depth : Nat) : Prop :=
  ∀ (t : Trail) (v : Value) (d : Display) (budget : Nat) (rest : List Work), Orderly h t →
    Room h depth t → Room h budget t → d.Shows t →
    Continues h key rest (writeAll h key budget d (.value v :: rest))
      (write? h (known key) depth t v)

theorem continues_text {t : Trail} {s : Text} {d : Display} {budget : Nat} {rest : List Work}
    {r : Option Trail} (ht : Orderly h t) (hbudget : Room h budget t) {rest' : List Work}
    (hrest : Continues h key rest' (writeAll h key budget (d.write s) rest) r) :
    Continues h key rest' (writeAll h key budget d (.text s :: rest)) r := by
  obtain ⟨k, rfl⟩ := hbudget.exists_succ ht
  exact hrest

theorem writeEntries?_continues (hsim : Simulates h key depth) {es : List (Value × Value)}
    {before : Text} {t : Trail} {d : Display} {budget : Nat} {rest work : List Work}
    (hwork : entriesWork key before es = .ok work) (ht : Orderly h t) (hdepth : Room h depth t)
    (hbudget : Room h budget t) (hd : d.Shows t) :
    Continues h key rest (writeAll h key budget d (work ++ rest))
      (writeEntries? (known key) (write? h (known key) depth)
        before t es) := by
  induction es generalizing before t d budget work with
  | nil =>
    cases hwork
    refine continues_text ht hbudget ?_
    exact ⟨_, _, hd.write _, hbudget.add_text _, rfl⟩
  | cons e es ih =>
    rw [entriesWork] at hwork
    rcases hes : entriesWork key "; " es with err | work'
    · rw [hes] at hwork
      cases hwork
    · rcases hk : key e.1 with err | s
      · rw [hes, hk] at hwork
        cases hwork
      · rw [hes, hk] at hwork
        cases hwork
        have hknown : known key e.1 = some s := by rw [known, hk]; rfl
        simp only [writeEntries?, hknown, Option.bind_eq_bind, Option.bind_some, List.cons_append]
        refine continues_text ht hbudget ?_
        have hvalue := hsim _ e.2 _ _ (work' ++ rest) (Orderly.text ht _) (hdepth.add_text _)
          (hbudget.add_text _) (hd.write (Text.concat [before, s, "="]))
        rcases hw : write? h (known key) depth
          (t.add (.text (Text.concat [before, s, "="]))) e.2 with _ | t1
        · rw [hw] at hvalue
          exact hvalue
        · rw [Option.bind_some]
          rw [hw] at hvalue
          obtain ⟨d1, budget1, hd1, hbudget1, heq⟩ := hvalue
          have hext := write?_extends hw
          rw [heq]
          exact ih hes (hext.orderly (.text ht _))
            ((hdepth.add_text _).mono hext.length_firsts_le) hbudget1 hd1

theorem writeObject?_continues (hsim : Simulates h key depth) {o : Object β} {t : Trail}
    {d : Display} {budget : Nat} {rest work : List Work} (hc : o.isClosure = false)
    (hwork : o.work h key = .ok work) (ht : Orderly h t) (hdepth : Room h depth t)
    (hbudget : Room h budget t) (hd : d.Shows t) :
    Continues h key rest (writeAll h key budget d (work ++ rest))
      (writeObject? h (known key) (write? h (known key) depth)
        t o) := by
  have hbraced : ∀ es : List (Value × Value), Object.work.braced key es = .ok work →
      Continues h key rest (writeAll h key budget d (work ++ rest))
        (writeEntries? (known key) (write? h (known key) depth)
          [] (t.add (.text "\x7b")) es) := by
    intro es hes
    rw [Object.work.braced] at hes
    rcases hw : entriesWork key [] es with err | work'
    · rw [hw] at hes
      cases hes
    · rw [hw] at hes
      cases hes
      exact continues_text ht hbudget (writeEntries?_continues hsim hw (.text ht _)
        (hdepth.add_text _) (hbudget.add_text _) (hd.write _))
  cases o with
  | tagged tag payload =>
    cases hwork
    exact continues_text ht hbudget (hsim _ _ _ _ _ (.text ht _) (hdepth.add_text _)
      (hbudget.add_text _) (hd.write _))
  | ref target =>
    cases hwork
    exact continues_text ht hbudget (hsim _ _ _ _ _ (.text ht _) (hdepth.add_text _)
      (hbudget.add_text _) (hd.write _))
  | closure x b env => cases hc
  | _ => exact hbraced _ hwork

/-- A display does what the recursive printer does: the induction is on the depth of objects within
each other, and the stack below is left as it is. -/
theorem write?_continues (h : Heap β) (key : Value → Except DisplayError Text) (depth : Nat) :
    Simulates h key depth := by
  induction depth with
  | zero =>
    intro t v d budget rest ht hdepth
    obtain ⟨k, hk⟩ := hdepth.exists_succ ht
    cases hk
  | succ depth ih =>
    intro t v d budget rest ht hdepth hbudget hd
    obtain ⟨budget, rfl⟩ := hbudget.exists_succ ht
    simp only [write?]
    split
    · rename_i hv
      rw [writeAll_atom _ _ _ hv, Value.text?]
      rcases v.atomText with e | s
      · rfl
      · exact ⟨_, _, hd.write s, hbudget.add_text s, rfl⟩
    · rename_i a o hv
      split
      · rename_i ha
        rw [writeAll_again _ _ _ hv (by rw [hd.seen, decide_eq_true ha])]
        refine ⟨_, _, hd.again a, ?_, rfl⟩
        unfold Room at *
        rwa [firsts_add_again]
      · rename_i hnew
        have hst : h.isStructured (.object a) = true := by
          obtain ⟨rfl, -, -⟩ := Heap.composite?_eq_some.1 hv
          rw [Heap.isStructured_eq, hv]
          rfl
        rw [writeAll_first _ _ _ hv (by rw [hd.seen, decide_eq_false hnew])]
        rcases hwork : o.work h key with e | work
        · -- a key without a text stops the recursive printer too, if only later
          rcases hw : writeObject? h (known key)
            (write? h (known key) depth) (t.add (.first a)) o with _ | t'
          · rfl
          · obtain ⟨-, hkeys⟩ := writeObject?_extends (fun _ _ _ hw => write?_extends hw) hw
            obtain ⟨work, hwork'⟩ := exists_work (h := h) hkeys
            rw [hwork] at hwork'
            cases hwork'
        · exact writeObject?_continues ih (Heap.composite?_eq_some.1 hv).2.2 hwork
            (.first ht hnew hst) (hdepth.first a) (hbudget.first a) (hd.mark a)

end Trail

/-! ### Values one after another -/

namespace Display

variable (h : Heap β)

/-- What a printer has written when it has written values one after another. -/
def addAll? (d : Display) (vs : List Value) : Option Display :=
  vs.foldlM (fun d v => (d.add h v).toOption) d

/-- The text of a key within `depth` keys of keys. -/
def keyWithin (depth : Nat) : Value → Except DisplayError Text
  | .string t => .ok t
  | k => do return (← addWithin h depth empty k).text

variable {h}

theorem addWithin_succ (depth : Nat) (d : Display) (v : Value) :
    addWithin h (depth + 1) d v = writeAll h (keyWithin h depth) (h.size + 1) d [.value v] := by
  rw [addWithin]
  rfl

/-- A display and a trail that stand alike, or neither. -/
def Stand : Option Display → Option Trail → Prop
  | some d, some t => d.Shows t ∧ t.Orderly h
  | none, none => True
  | _, _ => False

theorem addWithin_stands (depth : Nat) {d : Display} {t : Trail} (hd : d.Shows t)
    (ht : t.Orderly h) (v : Value) :
    Stand (h := h) (addWithin h (depth + 1) d v).toOption
      (t.write? h (Trail.known (keyWithin h depth)) (h.size + 1) v) := by
  have hroom : Trail.Room h (h.size + 1) t := by
    unfold Trail.Room
    omega
  have hcont := Trail.write?_continues h (keyWithin h depth) (h.size + 1) t v d (h.size + 1) []
    ht hroom hroom hd
  rw [addWithin_succ]
  rcases hw : t.write? h (Trail.known (keyWithin h depth)) (h.size + 1) v with _ | t'
  · rw [hw] at hcont
    rw [show (writeAll h _ _ _ _).toOption = none from hcont]
    trivial
  · rw [hw] at hcont
    obtain ⟨d', budget, hd', hbudget, heq⟩ := hcont
    have ht' := (Trail.write?_extends hw).orderly ht
    obtain ⟨k, rfl⟩ := hbudget.exists_succ ht'
    rw [heq]
    exact ⟨hd', ht'⟩

theorem addAll?_stands (vs : List Value) {d : Display} {t : Trail} (hd : d.Shows t)
    (ht : t.Orderly h) :
    Stand (h := h) (d.addAll? h vs)
      (t.writeAll? h (Trail.known (keyWithin h maxKeyDepth)) vs) := by
  induction vs generalizing d t with
  | nil => exact ⟨hd, ht⟩
  | cons v vs ih =>
    have hfirst := addWithin_stands maxKeyDepth hd ht v
    rw [addAll?, Trail.writeAll?, List.foldlM_cons, List.foldlM_cons]
    change Stand ((addWithin h (maxKeyDepth + 1) d v).toOption.bind fun d => d.addAll? h vs)
      ((t.write? h _ _ v).bind fun t => t.writeAll? h _ vs)
    generalize (addWithin h (maxKeyDepth + 1) d v).toOption = r at hfirst
    generalize t.write? h (Trail.known (keyWithin h maxKeyDepth)) (h.size + 1) v = r' at hfirst
    rcases r with _ | d1 <;> rcases r' with _ | t1
    · trivial
    · cases hfirst
    · cases hfirst
    · exact ih hfirst.1 hfirst.2

end Display

/-- The text of a key without a structure. -/
def Value.keyText? : Value → Option Text
  | .string t => some t
  | k => k.text?

theorem Value.keyText?_isSome (k : Value) : k.keyText?.isSome = !k.isTooLong := by
  have hcases : (∃ t, k = .string t) ∨ k.keyText? = k.text? := by
    cases k with
    | string t => exact Or.inl ⟨t, rfl⟩
    | _ => exact Or.inr rfl
  rcases hcases with ⟨t, rfl⟩ | hk
  · rfl
  · rw [hk, text?_isSome]

theorem Display.known_keyWithin {h : Heap β} {k : Value} (hk : h.isStructured k = false)
    (depth : Nat) : Trail.known (keyWithin h (depth + 1)) k = k.keyText? := by
  have hcomp : h.composite? k = none := by
    rw [Heap.isStructured_eq] at hk
    rwa [Option.isSome_eq_false_iff, Option.isNone_iff_eq_none] at hk
  have hadd : (do return (← addWithin h (depth + 1) empty k).text : Except DisplayError Text)
      = k.atomText := by
    rw [addWithin_succ, writeAll_atom _ _ _ hcomp]
    generalize k.atomText = r
    rcases r with e | s
    · rfl
    · simp only [bind, Except.bind, writeAll_nil]
      simp [pure, Except.pure, Display.text, Display.write, empty]
  have hcases : (∃ t, k = .string t) ∨ keyWithin h (depth + 1) k
      = (do return (← addWithin h (depth + 1) empty k).text) ∧ k.keyText? = k.text? := by
    cases k with
    | string t => exact Or.inl ⟨t, rfl⟩
    | _ => exact Or.inr ⟨rfl, rfl⟩
  rcases hcases with ⟨t, rfl⟩ | ⟨hkey, htext⟩
  · rfl
  · rw [Trail.known, hkey, hadd, htext, Value.text?]

theorem Object.isStructured_keys {h : Heap β} {o : Object β}
    (ho : ∀ entries, o = .mapping entries → ∀ e ∈ entries, h.isStructured e.1 = false) :
    ∀ k ∈ o.keys, h.isStructured k = false := by
  have hfields : ∀ ms : Members, ∀ k ∈ ms.entries.map Prod.fst, h.isStructured k = false := by
    intro ms k hk
    simp only [Members.entries, List.map_map, List.mem_map, Function.comp_apply] at hk
    obtain ⟨e, -, rfl⟩ := hk
    rfl
  have hitems : ∀ vs : List Value, ∀ k ∈ (itemEntries vs).map Prod.fst,
      h.isStructured k = false := by
    intro vs k hk
    simp only [itemEntries, List.map_map, List.mem_map, Function.comp_apply] at hk
    obtain ⟨e, -, rfl⟩ := hk
    rfl
  cases o with
  | tagged tag payload => exact fun k hk => absurd hk List.not_mem_nil
  | ref target => exact fun k hk => absurd hk List.not_mem_nil
  | closure x b env => exact fun k hk => absurd hk List.not_mem_nil
  | record fields => exact hfields fields
  | attributes members => exact hfields members
  | list items => exact hitems items
  | tuple items => exact hitems items
  | mapping entries =>
    intro k hk
    obtain ⟨e, he, rfl⟩ := List.mem_map.1 hk
    exact ho entries rfl e he

/-- What a trail tells of the values that have been written. -/
structure Trail.Accounts (h : Heap β) (vs : List Value) (t : Trail) : Prop where
  /-- A later text goes on where an earlier one ends. -/
  prefixes : ∀ us ws, vs = us ++ ws →
    ∃ t', Trail.empty.writeAll? h Value.keyText? us = some t' ∧ t'.text <+: t.text
  /-- No object is written out twice, -/
  nodup : t.firsts.Nodup
  /-- none is left out, -/
  mem_firsts : ∀ a, a ∈ t.firsts ↔ h.isStructured (.object a) ∧ ∃ v ∈ vs, h.Leads v (.object a)
  /-- and none is marked before it has been written out. -/
  first_before : ∀ (pre post : Trail) (a : Nat), t = pre ++ .again a :: post → a ∈ pre.firsts
  /-- There is a mark for each time that an object comes up, its first time apart. -/
  marks : t.marks + t.firsts.length = vs.countP h.isStructured
    + (t.firsts.map fun a =>
        ((h.get? a).map fun o => o.parts.countP h.isStructured).getD 0).sum

theorem Trail.accounts {h : Heap β} {vs : List Value} {t : Trail}
    (ht : Trail.empty.writeAll? h Value.keyText? vs = some t) : t.Accounts h vs := by
  have hext := writeAll?_extends ht
  have hord := hext.orderly .empty
  refine ⟨?_, hord.nodup, mem_firsts_iff ht, fun pre post a => hord.mem_firsts_of_again, ?_⟩
  · rintro us ws rfl
    rw [writeAll?_append, Option.bind_eq_some_iff] at ht
    obtain ⟨t', ht', hrest⟩ := ht
    obtain ⟨new, rfl⟩ := (writeAll?_extends hrest).grows
    refine ⟨t', ht', ?_⟩
    rw [text, text, pieces, pieces, List.filterMap_append, List.flatten_append]
    exact List.prefix_append _ _
  · have hc := hext.count
    rwa [show marks empty = 0 from rfl, show firsts empty = [] from rfl,
      show owed h [] = 0 from rfl, List.length_nil, Nat.add_zero, Nat.zero_add] at hc

/-- Values that one printer writes in turn are written as the recursive printer writes them, piece
by piece; there is no text only where a number with too many digits comes up. The mappings that the
values lead to have keys without a structure. -/
theorem Heap.display_as_recursive (h : Heap β) (vs : List Value)
    (hkeys : ∀ v ∈ vs, ∀ w, h.Leads v w → ∀ entries, h.object? w = some (.mapping entries) →
      ∀ e ∈ entries, h.isStructured e.1 = false) :
    (Display.empty.addAll? h vs).map Display.text
        = (Trail.empty.writeAll? h Value.keyText? vs).map Trail.text
      ∧ ((Display.empty.addAll? h vs).isSome ↔ ∀ v ∈ vs, ∀ w, h.Leads v w →
        w.isTooLong = false
          ∧ ∀ a o, h.composite? w = some (a, o) → ∀ k ∈ o.keys, k.isTooLong = false)
      ∧ ∀ d t, Display.empty.addAll? h vs = some d →
        Trail.empty.writeAll? h Value.keyText? vs = some t →
          d.pieces.reverse = t.pieces ∧ t.Accounts h vs := by
  have hsame : Trail.empty.writeAll? h (Trail.known (Display.keyWithin h maxKeyDepth)) vs
      = Trail.empty.writeAll? h Value.keyText? vs := by
    refine Trail.writeAll?_congr fun v hv w hw a o ho k hk => ?_
    obtain ⟨rfl, hget, -⟩ := composite?_eq_some.1 ho
    refine Display.known_keyWithin (Object.isStructured_keys ?_ k hk) _
    rintro entries rfl
    exact hkeys v hv _ hw entries hget
  have hstand := Display.addAll?_stands (h := h) vs .empty .empty
  rw [hsame] at hstand
  have hsome : (Trail.empty.writeAll? h Value.keyText? vs).isSome ↔ _ :=
    Trail.writeAll?_isSome_iff vs
  simp only [Trail.Writable, Value.text?_isSome, Value.keyText?_isSome, Bool.not_eq_true'] at hsome
  rw [← hsome]
  rcases hd : Display.empty.addAll? h vs with _ | d <;>
    rcases ht : Trail.empty.writeAll? h Value.keyText? vs with _ | t <;>
      rw [hd, ht] at hstand
  · exact ⟨rfl, Iff.rfl, fun d t hd => by cases hd⟩
  · cases hstand
  · cases hstand
  · refine ⟨congrArg some hstand.1.text, Iff.rfl, ?_⟩
    rintro _ _ ⟨⟩ ⟨⟩
    exact ⟨by rw [hstand.1.pieces, List.reverse_reverse], Trail.accounts ht⟩

/-- A record that holds a mapping, a reference to itself, and the mapping once more. -/
def knotted : Heap Unit :=
  ⟨#[.record [("m", .object 1), ("self", .object 2), ("again", .object 1)],
    .mapping [(.bool true, .null)], .ref (.object 0)]⟩

theorem Heap.display_as_recursive_knotted :
    (∀ v ∈ [Value.object 0, .object 1], ∀ w, knotted.Leads v w → ∀ entries,
        knotted.object? w = some (.mapping entries) →
          ∀ e ∈ entries, knotted.isStructured e.1 = false)
      ∧ (Display.empty.addAll? knotted [.object 0, .object 1]).map Display.text
        = some "\x7bm=\x7btrue=null\x7d; self=ref ...; again=...\x7d..." := by
  have hkeys : ∀ w entries, knotted.object? w = some (.mapping entries) →
      ∀ e ∈ entries, knotted.isStructured e.1 = false := by
    intro w entries hw
    cases w with
    | object a =>
      rcases a with _ | _ | _ | a <;> cases hw
      decide
    | _ => cases hw
  refine ⟨fun v _ w _ => hkeys w, ?_⟩
  rw [(display_as_recursive knotted [.object 0, .object 1] fun v _ w _ => hkeys w).1]
  decide +kernel

end Toplevel
