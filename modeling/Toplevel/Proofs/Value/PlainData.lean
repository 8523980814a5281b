import Toplevel.Proofs.Value.Traversal

/-!
# Plain data

Plain data are truth values, numbers and texts, and the records, tagged values and references that
are built from them. A value unfolds to such data if its objects form the same tree
(`Heap.Unfolds`): none of them comes up twice, so none is marked where the value is displayed, and
the display depends on the data alone (`Heap.Unfolds.display`).
-/

namespace Toplevel

mutual

inductive PlainData where
  | bool (b : Bool)
  | number (x : Float)
  | string (t : Text)
  | record (fields : PlainFields)
  | tagged (tag : Text) (payload : PlainData)
  | ref (content : PlainData)

inductive PlainFields where
  | nil
  | cons (name : Text) (value : PlainData) (rest : PlainFields)

end

/-! ### Values that are plain data -/

section

variable {β : Type} (h : Heap β)

mutual

/-- A value is some data, with objects at these addresses: each in front of those that it leads to,
and as often as it comes up. -/
inductive PlainData.HeldAt : PlainData → Value → List Nat → Prop
  | bool (b : Bool) : PlainData.HeldAt (.bool b) (.bool b) []
  | number (x : Float) : PlainData.HeldAt (.number x) (.float x) []
  | string (t : Text) : PlainData.HeldAt (.string t) (.string t) []
  | record {fields : PlainFields} {members : Members} {a : Nat} {as : List Nat}
    (ha : h.get? a = some (.record members)) (hfields : PlainFields.HeldAt fields members as) :
    PlainData.HeldAt (.record fields) (.object a) (a :: as)
  | tagged {tag : Text} {payload : PlainData} {v : Value} {a : Nat} {as : List Nat}
    (ha : h.get? a = some (.tagged tag v)) (hpayload : PlainData.HeldAt payload v as) :
    PlainData.HeldAt (.tagged tag payload) (.object a) (a :: as)
  | ref {content : PlainData} {v : Value} {a : Nat} {as : List Nat}
    (ha : h.get? a = some (.ref v)) (hcontent : PlainData.HeldAt content v as) :
    PlainData.HeldAt (.ref content) (.object a) (a :: as)

inductive PlainFields.HeldAt : PlainFields → Members → List Nat → Prop
  | nil : PlainFields.HeldAt .nil [] []
  | cons {x : Text} {d : PlainData} {rest : PlainFields} {v : Value} {members : Members}
    {as bs : List Nat} (hd : PlainData.HeldAt d v as)
    (hrest : PlainFields.HeldAt rest members bs) :
    PlainFields.HeldAt (.cons x d rest) ((x, v) :: members) (as ++ bs)

end

/-- A value unfolds to plain data in a heap: no object of it comes up twice. -/
def Heap.Unfolds (v : Value) (d : PlainData) : Prop := ∃ as, d.HeldAt h v as ∧ as.Nodup

end

/-! ### The text of plain data -/

def PlainData.isComposite : PlainData → Bool
  | .record _ | .tagged .. | .ref _ => true
  | _ => false

/-- A tag in front of its payload, with a blank between them if the payload has no structure. -/
def PlainData.tagText (payload : PlainData) (tag : Text) : Text :=
  if payload.isComposite then tag else Text.concat [tag, " "]

mutual

/-- How plain data is displayed. -/
def PlainData.text : PlainData → Text
  | .bool b => if b then "true" else "false"
  | .number x => Text.ofFloat x
  | .string t => t.jsonQuoted
  | .record fields => ('\x7b' : CodePoint) :: fields.text []
  | .tagged tag payload => payload.tagText tag ++ payload.text
  | .ref content => Text.concat ["ref ", content.text]

/-- Fields with `before` in front of the first and a semicolon in front of the others, and the brace
that closes them. -/
def PlainFields.text (before : Text) : PlainFields → Text
  | .nil => "\x7d"
  | .cons x d rest => Text.concat [before, x, "="] ++ (d.text ++ rest.text "; ")

end

/-! ### Displays of plain data -/

/-- What has been added to a trail: a text, and objects that are written out. -/
structure Trail.Adds (t t' : Trail) (s : Text) (as : List Nat) : Prop where
  text : t'.text = t.text ++ s
  firsts : t'.firsts = t.firsts ++ as

namespace Trail.Adds

variable {t t1 t2 : Trail} {s s1 s2 : Text} {as bs : List Nat}

theorem trans (h1 : t.Adds t1 s1 as) (h2 : t1.Adds t2 s2 bs) : t.Adds t2 (s1 ++ s2) (as ++ bs) where
  text := by rw [h2.text, h1.text, List.append_assoc]
  firsts := by rw [h2.firsts, h1.firsts, List.append_assoc]

theorem add_text (t : Trail) (s : Text) : t.Adds (t.add (.text s)) s [] where
  text := by rw [Trail.text, pieces_add_text, List.flatten_append, List.flatten_singleton]; rfl
  firsts := by rw [firsts_add_text, List.append_nil]

theorem add_first (t : Trail) (a : Nat) : t.Adds (t.add (.first a)) [] [a] where
  text := by rw [Trail.text, pieces_add_first, List.append_nil]; rfl
  firsts := firsts_add_first t a

end Trail.Adds

section

variable {β : Type} {h : Heap β} {key? : Value → Option Text}

theorem PlainData.HeldAt.isStructured {d : PlainData} {v : Value} {as : List Nat}
    (hd : d.HeldAt h v as) : h.isStructured v = d.isComposite := by
  cases hd with
  | record ha | tagged ha | ref ha =>
    rw [Heap.isStructured, Heap.object?, ha]
    rfl
  | _ => rfl

mutual

theorem PlainData.lt_size_of_heldAt : ∀ {d : PlainData} {v : Value} {as : List Nat},
    d.HeldAt h v as → ∀ a ∈ as, a < h.size
  | _, _, _, .bool _ | _, _, _, .number _ | _, _, _, .string _ => List.forall_mem_nil _
  | _, _, _, .record ha hfields =>
    List.forall_mem_cons.2 ⟨Heap.lt_of_get? ha, PlainFields.lt_size_of_heldAt hfields⟩
  | _, _, _, .tagged ha hinner | _, _, _, .ref ha hinner =>
    List.forall_mem_cons.2 ⟨Heap.lt_of_get? ha, PlainData.lt_size_of_heldAt hinner⟩

theorem PlainFields.lt_size_of_heldAt : ∀ {fs : PlainFields} {members : Members} {as : List Nat},
    fs.HeldAt h members as → ∀ a ∈ as, a < h.size
  | _, _, _, .nil => List.forall_mem_nil _
  | _, _, _, .cons hd hrest =>
    List.forall_mem_append.2
      ⟨PlainData.lt_size_of_heldAt hd, PlainFields.lt_size_of_heldAt hrest⟩

end

/-- An object that has not been written out is written out with what is behind it. -/
theorem Trail.write?_object {t t' : Trail} {a depth : Nat} {o : Object β} {s : Text} {as : List Nat}
    (ha : h.get? a = some o) (ho : o.isClosure = false) (hnew : a ∉ t.firsts)
    (hobject : writeObject? h key? (write? h key? depth) (t.add (.first a)) o = some t')
    (hadds : (t.add (.first a)).Adds t' s as) :
    write? h key? (depth + 1) t (.object a) = some t' ∧ t.Adds t' s (a :: as) := by
  refine ⟨?_, (Adds.add_first t a).trans hadds⟩
  rw [write?, Heap.composite?_eq_some.2 ⟨rfl, ha, ho⟩]
  simp only [if_neg hnew]
  exact hobject

theorem Trail.notMem_firsts {t : Trail} {a : Nat} {as : List Nat}
    (hnew : (t.firsts ++ a :: as).Nodup) :
    a ∉ t.firsts ∧ ((t.add (.first a)).firsts ++ as).Nodup := by
  constructor
  · intro ha
    exact (List.nodup_append.1 hnew).2.2 a ha a List.mem_cons_self rfl
  · rwa [firsts_add_first, List.append_assoc]

mutual

/-- Plain data is written in full by a printer that has written none of its objects. -/
theorem PlainData.write?_of_heldAt (hkey : ∀ x, key? (.string x) = some x) :
    ∀ {d : PlainData} {v : Value} {as : List Nat}, d.HeldAt h v as → ∀ (t : Trail) (depth : Nat),
      (t.firsts ++ as).Nodup → as.length < depth →
        ∃ t', t.write? h key? depth v = some t' ∧ t.Adds t' d.text as
  | _, _, _, .bool _, t, depth + 1, _, _ | _, _, _, .number _, t, depth + 1, _, _
  | _, _, _, .string _, t, depth + 1, _, _ => ⟨_, rfl, .add_text t _⟩
  | _, _, _, @PlainData.HeldAt.record _ _ fields members a as ha hfields, t, depth + 1, hnew,
      hdepth => by
    obtain ⟨hout, hnew⟩ := Trail.notMem_firsts hnew
    have hbrace := Trail.Adds.add_text (t.add (.first a)) "\x7b"
    obtain ⟨t', hwrite, hadds⟩ := PlainFields.writeEntries?_of_heldAt hkey hfields []
      ((t.add (.first a)).add (.text "\x7b")) depth (by rwa [Trail.firsts_add_text])
      (Nat.lt_of_succ_lt_succ hdepth)
    exact ⟨t', Trail.write?_object ha rfl hout hwrite (hbrace.trans hadds)⟩
  | _, _, _, @PlainData.HeldAt.tagged _ _ tag payload v a as ha hpayload, t, depth + 1, hnew,
      hdepth => by
    obtain ⟨hout, hnew⟩ := Trail.notMem_firsts hnew
    have htag := Trail.Adds.add_text (t.add (.first a)) (payload.tagText tag)
    obtain ⟨t', hwrite, hadds⟩ := PlainData.write?_of_heldAt hkey hpayload
      ((t.add (.first a)).add (.text (payload.tagText tag))) depth (by rwa [Trail.firsts_add_text])
      (Nat.lt_of_succ_lt_succ hdepth)
    refine ⟨t', Trail.write?_object ha rfl hout ?_ (htag.trans hadds)⟩
    rw [Trail.writeObject?, hpayload.isStructured]
    exact hwrite
  | _, _, _, @PlainData.HeldAt.ref _ _ content v a as ha hcontent, t, depth + 1, hnew, hdepth => by
    obtain ⟨hout, hnew⟩ := Trail.notMem_firsts hnew
    have href := Trail.Adds.add_text (t.add (.first a)) "ref "
    obtain ⟨t', hwrite, hadds⟩ := PlainData.write?_of_heldAt hkey hcontent
      ((t.add (.first a)).add (.text "ref ")) depth (by rwa [Trail.firsts_add_text])
      (Nat.lt_of_succ_lt_succ hdepth)
    have htext : (PlainData.ref content).text = "ref " ++ content.text :=
      congrArg (("ref " : Text) ++ ·) (List.append_nil _)
    rw [htext]
    exact ⟨t', Trail.write?_object ha rfl hout hwrite (href.trans hadds)⟩

theorem PlainFields.writeEntries?_of_heldAt (hkey : ∀ x, key? (.string x) = some x) :
    ∀ {fs : PlainFields} {members : Members} {as : List Nat}, fs.HeldAt h members as →
      ∀ (before : Text) (t : Trail) (depth : Nat), (t.firsts ++ as).Nodup → as.length < depth →
        ∃ t', Trail.writeEntries? key? (Trail.write? h key? depth) before t members.entries
            = some t'
          ∧ t.Adds t' (fs.text before) as
  | _, _, _, .nil, before, t, _, _, _ => ⟨_, rfl, .add_text t _⟩
  | _, _, _, @PlainFields.HeldAt.cons _ _ x d rest v members as bs hd hrest, before, t, depth, hnew,
      hdepth => by
    rw [List.length_append] at hdepth
    have hstart := Trail.Adds.add_text t (Text.concat [before, x, "="])
    rw [← List.append_assoc, ← Trail.firsts_add_text t (Text.concat [before, x, "="])] at hnew
    obtain ⟨t1, hvalue, hadds1⟩ := PlainData.write?_of_heldAt hkey hd _ depth
      (List.nodup_append.1 hnew).1 (by omega)
    rw [← hadds1.firsts] at hnew
    obtain ⟨t2, hentries, hadds2⟩ := PlainFields.writeEntries?_of_heldAt hkey hrest "; " t1 depth
      hnew (by omega)
    refine ⟨t2, ?_, hstart.trans (hadds1.trans hadds2)⟩
    change (key? (.string x)).bind _ = _
    rw [hkey, Option.bind_some, hvalue]
    exact hentries

end

end

/-- A value that unfolds to plain data is displayed as the data is. -/
theorem Heap.Unfolds.display {β : Type} {h : Heap β} {v : Value} {d : PlainData}
    (hd : h.Unfolds v d) : h.display v = .ok d.text := by
  obtain ⟨as, hd, hnodup⟩ := hd
  have hle := Heap.length_le_size hnodup (PlainData.lt_size_of_heldAt hd)
  have hkey : ∀ x, Trail.known (Display.keyWithin h maxKeyDepth) (.string x) = some x :=
    fun _ => rfl
  obtain ⟨t, ht, hadds⟩ := PlainData.write?_of_heldAt hkey hd .empty (h.size + 1) hnodup
    (Nat.lt_succ_of_le hle)
  have hstand := Display.addWithin_stands (h := h) maxKeyDepth .empty .empty v
  rw [ht] at hstand
  rw [Heap.display, Display.add]
  rcases hw : Display.addWithin h (maxKeyDepth + 1) .empty v with e | d'
  · rw [hw] at hstand
    cases hstand
  · rw [hw] at hstand
    exact congrArg Except.ok (hstand.1.text.trans hadds.text)

end Toplevel
