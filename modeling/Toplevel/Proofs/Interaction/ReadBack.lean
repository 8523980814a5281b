import Toplevel.Proofs.Interaction.Batch
import Toplevel.Proofs.Interaction.Language
import Toplevel.Proofs.Syntax.DataText

/-!
# Data reads back

What is displayed of data can be executed: in any interaction, whatever has been run in it before,
the text gives a value that holds the same data, which is displayed as the same text again
(`Interaction.data_reads_back`). The value is made of objects of its own, and nothing else is
changed (`Data.eval`).
-/

namespace Toplevel

/-! ### The code of data -/

mutual

def Data.code : Data → Code
  | .bool b => .bool b
  | .number x => .number x
  | .string t => .string t
  | .record fields => .record fields.entries
  | .tagged tag payload => .tagged tag payload.code

def DataFields.entries : DataFields → Entries
  | .nil => .nil
  | .cons x d rest => .cons x d.code rest.entries

end

mutual

/-- How many brackets are open at once in the code of data: a record opens two of them, and a tagged
value one. -/
def Data.nesting : Data → Nat
  | .bool _ | .number _ | .string _ => 0
  | .record fields => 2 + fields.nesting
  | .tagged _ payload => 1 + payload.nesting

def DataFields.nesting : DataFields → Nat
  | .nil => 0
  | .cons _ d rest => max d.nesting rest.nesting

end

mutual

theorem Data.nesting_code : ∀ d : Data, d.WellFormed → d.code.nesting = d.nesting
  | .bool _, _ | .string _, _ => rfl
  | .number x, ⟨⟨m, q, hx⟩, _⟩ => by
    rw [Data.code, Code.nesting, hx]
    rfl
  | .record fields, hd => congrArg (2 + ·) (fields.nesting_entries hd)
  | .tagged _ payload, ⟨_, hpayload⟩ => congrArg (1 + ·) (payload.nesting_code hpayload)

theorem DataFields.nesting_entries : ∀ fs : DataFields, fs.WellFormed →
    fs.entries.nesting = fs.nesting
  | .nil, _ => rfl
  | .cons _ d rest, ⟨_, _, hd, hrest⟩ =>
    congrArg₂ max (d.nesting_code hd) (rest.nesting_entries hrest)

end

section

variable (globals : Bindings) (scope : List Text)

mutual

/-- The code of data does not depend on what can be named. -/
theorem Data.hasCode : ∀ d : Data, d.WellFormed → d.expr.HasCode globals scope d.code
  | .bool b, _ => .bool b
  | .number x, _ => .number x
  | .string t, _ => .string t
  | .record fields, hd => .record (fields.haveCode hd [] (List.forall_mem_nil _))
  | .tagged tag payload, ⟨_, hpayload⟩ => .tagged tag (payload.hasCode hpayload)

theorem DataFields.haveCode : ∀ fs : DataFields, fs.WellFormed → ∀ names : List Text,
    (∀ x ∈ names, x ∉ fs.names) → fs.exprs.HaveCode globals scope names fs.entries
  | .nil, _, _, _ => .nil
  | .cons x d rest, ⟨_, hnew, hd, hrest⟩, names, hnames => by
    have hx : x ∉ names := fun hx => hnames x hx List.mem_cons_self
    have hothers : ∀ y ∈ x :: names, y ∉ rest.names := by
      intro y hy
      rcases List.mem_cons.1 hy with rfl | hy
      · exact hnew
      · exact fun hmem => hnames y hy (List.mem_cons_of_mem x hmem)
    exact .cons hx (d.hasCode hd) (rest.haveCode hrest _ hothers)

end

end

/-! ### Evaluating it -/

section

variable {β : Type}

mutual

theorem Data.heldAt_extends {h h' : Heap β} (hext : h.Extends h') :
    ∀ {d : Data} {v : Value} {as : List Nat}, d.HeldAt h v as → d.HeldAt h' v as
  | _, _, _, .bool b => .bool b
  | _, _, _, .number x => .number x
  | _, _, _, .string t => .string t
  | _, _, _, .record ha hfields =>
    .record (hext.get?_eq ha) (DataFields.heldAt_extends hext hfields)
  | _, _, _, .tagged ha hpayload =>
    .tagged (hext.get?_eq ha) (Data.heldAt_extends hext hpayload)

theorem DataFields.heldAt_extends {h h' : Heap β} (hext : h.Extends h') :
    ∀ {fs : DataFields} {members : Members} {as : List Nat}, fs.HeldAt h members as →
      fs.HeldAt h' members as
  | _, _, _, .nil => .nil
  | _, _, _, .cons hd hrest =>
    .cons (Data.heldAt_extends hext hd) (DataFields.heldAt_extends hext hrest)

end

/-- Addresses of different objects that a heap has got on top of another one. -/
structure Heap.Fresh (h h' : Heap β) (as : List Nat) : Prop extends h.Extends h' where
  nodup : as.Nodup
  new : ∀ a ∈ as, h.size ≤ a
  lt : ∀ a ∈ as, a < h'.size

namespace Heap.Fresh

variable {h h1 h2 : Heap β} {as bs : List Nat}

theorem nil (h : Heap β) : h.Fresh h [] :=
  ⟨.refl h, List.nodup_nil, List.forall_mem_nil _, List.forall_mem_nil _⟩

theorem append (ha : h.Fresh h1 as) (hb : h1.Fresh h2 bs) : h.Fresh h2 (as ++ bs) where
  toExtends := ha.toExtends.trans hb.toExtends
  nodup := by
    refine List.nodup_append.2 ⟨ha.nodup, hb.nodup, ?_⟩
    rintro a hmem _ hmem' rfl
    exact Nat.not_lt_of_le (hb.new a hmem') (ha.lt a hmem)
  new := List.forall_mem_append.2
    ⟨ha.new, fun b hmem => ha.size.trans (hb.new b hmem)⟩
  lt := List.forall_mem_append.2
    ⟨fun a hmem => (ha.lt a hmem).trans_le hb.size, hb.lt⟩

theorem alloc (ha : h.Fresh h1 as) (o : Object β) : h.Fresh (h1.alloc o).2 (h1.size :: as) where
  toExtends := ha.toExtends.trans (.alloc h1 o)
  nodup := List.nodup_cons.2 ⟨fun hmem => Nat.lt_irrefl _ (ha.lt _ hmem), ha.nodup⟩
  new := List.forall_mem_cons.2 ⟨ha.size, ha.new⟩
  lt := by
    rw [Heap.size_alloc]
    exact List.forall_mem_cons.2 ⟨Nat.lt_succ_self _, fun a hmem => (ha.lt a hmem).trans
      (Nat.lt_succ_self _)⟩

end Heap.Fresh

variable (close : Code → β) (apply : Value → Value → Run β Value) (env : Env)

mutual

/-- The code of data makes it, out of new objects. -/
theorem Data.eval : ∀ (d : Data) (m : Machine β), ∃ v h as,
    d.code.eval close apply env m = (.ok v, { m with heap := h }) ∧ d.HeldAt h v as
      ∧ m.heap.Fresh h as
  | .bool b, m => ⟨_, _, _, rfl, .bool b, .nil _⟩
  | .number x, m => ⟨_, _, _, rfl, .number x, .nil _⟩
  | .string t, m => ⟨_, _, _, rfl, .string t, .nil _⟩
  | .record fields, m => by
    obtain ⟨members, h, as, heval, hheld, hfresh⟩ := fields.eval m
    refine ⟨.object h.size, (h.alloc (.record members)).2, h.size :: as, ?_,
      .record (h.get?_alloc _) (DataFields.heldAt_extends (.alloc h _) hheld), hfresh.alloc _⟩
    rw [Data.code, Code.eval, Run.bind_ok heval]
    rfl
  | .tagged tag payload, m => by
    obtain ⟨v, h, as, heval, hheld, hfresh⟩ := payload.eval m
    refine ⟨.object h.size, (h.alloc (.tagged tag v)).2, h.size :: as, ?_,
      .tagged (h.get?_alloc _) (Data.heldAt_extends (.alloc h _) hheld), hfresh.alloc _⟩
    rw [Data.code, Code.eval, Run.bind_ok heval]
    rfl

theorem DataFields.eval : ∀ (fs : DataFields) (m : Machine β), ∃ members h as,
    fs.entries.eval close apply env m = (.ok members, { m with heap := h })
      ∧ fs.HeldAt h members as ∧ m.heap.Fresh h as
  | .nil, m => ⟨_, _, _, rfl, .nil, .nil _⟩
  | .cons x d rest, m => by
    obtain ⟨v, h1, as, heval, hheld, hfresh⟩ := d.eval m
    obtain ⟨members, h2, bs, heval', hheld', hfresh'⟩ := rest.eval { m with heap := h1 }
    refine ⟨(x, v) :: members, h2, as ++ bs, ?_,
      .cons (Data.heldAt_extends hfresh'.toExtends hheld) hheld', hfresh.append hfresh'⟩
    rw [DataFields.entries, Entries.eval, Run.bind_ok heval, Run.bind_ok heval']
    rfl

end

end

/-! ### Executing its text -/

/-- The text of data makes a value that holds it, whatever definitions and objects there are. -/
theorem Data.attempt_text {d : Data} (hd : d.WellFormed) (hnesting : d.nesting < maxBrackets)
    (defs : Definitions) (m : Machine Code) :
    ∃ v, attemptValue? d.text defs m = some v
      ∧ (attempt d.text defs m).outcome = .value d.text
      ∧ (attempt d.text defs m).machine.heap.Holds v d := by
  obtain ⟨v, h, as, heval, hheld, hfresh⟩ := d.eval id (Code.apply maxCalls) [] m
  have hcompile : compileSource d.text defs = .ok (⟨[.expr d.code]⟩, defs) :=
    (d.denotes hd).compileSource_eq_ok_iff.2
      (Interaction.compileAll_expr (d.hasCode defs.bindings [] hd).compile rfl)
  have hrun : (⟨[.expr d.code]⟩ : Compiled).evaluate m = (.ok v, { m with heap := h }) :=
    Compiled.evaluate_eq_ok_iff.2 ⟨(d.nesting_code hd).trans_lt hnesting, heval⟩
  have hholds : h.Holds v d := ⟨as, hheld, hfresh.nodup⟩
  have hvalue : attemptValue? d.text defs m = some v := by
    simp only [attemptValue?, hcompile, hrun]
    rfl
  have hmachine : (attempt d.text defs m).machine = { m with heap := h } := by
    simp only [attempt, hcompile, hrun]
  refine ⟨v, hvalue, ?_, by rw [hmachine]; exact hholds⟩
  rw [attempt_of_value hvalue, hmachine, Run.outcome, hholds.display]

/-- Data that some value holds, in whatever heap: the text of it can be executed in every state that
an interaction comes to, gives a value that holds the same data, and so is the answer again. -/
theorem Interaction.data_reads_back {β : Type} {h : Heap β} {v : Value} {d : Data}
    (hv : h.Holds v d) (hd : d.WellFormed) (hnesting : d.nesting < maxBrackets)
    (as : List Action) :
    ∃ text, h.display v = .ok text ∧
      let i := (start .empty).acts .standard as
      ∀ a : Action, a.source? = some text →
        (i.act .standard a).1 = .ok (some (.value text))
          ∧ ∃ w, i.actValue? a = some w
            ∧ (i.act .standard a).2.engine.machine.heap.Holds w d := by
  refine ⟨d.text, hv.display, fun a ha => ?_⟩
  obtain ⟨w, hw, houtcome, hholds⟩ := Data.attempt_text hd hnesting
    (((start .empty).acts .standard as).definitionsFor a)
    ((start .empty).acts .standard as).engine.machine
  obtain ⟨hanswer, hbehind⟩ := act_of_source ha ((start .empty).acts .standard as)
  refine ⟨by rw [hanswer, houtcome], w, ?_, by rw [hbehind.machine]; exact hholds⟩
  rw [actValue?, ha]
  exact hw

/-- A tag in front of a record, with a number, a text with a quote, and a tag in front of a tag. -/
def Data.sample : Data :=
  .tagged "`A" (.record (.cons "x" (.number (Float.ofBits 0x3FF8000000000000))
    (.cons "s" (.string ['"', '\n']) (.cons "t" (.tagged "`B" (.tagged "`C" (.bool true))) .nil))))

def Heap.sample : Heap Unit :=
  ⟨#[.record [("x", .float (Float.ofBits 0x3FF8000000000000)), ("s", .string ['"', '\n']),
      ("t", .object 1)],
    .tagged "`B" (.object 2), .tagged "`C" (.bool true), .tagged "`A" (.object 0)]⟩

theorem Interaction.data_reads_back_sample :
    ∃ text, Heap.sample.display (.object 3) = .ok text
      ∧ text = Text.concat
        ["`A\x7bx=1.5; s=", ['"', '\\', '"', '\\', 'n', '"'], "; t=`B`C true\x7d"]
      ∧ (act .standard (.execute text) ((start .empty).acts .standard [.submit "let x = 1"])).1
        = .ok (some (.value text)) := by
  have hholds : Heap.sample.Holds (.object 3) Data.sample :=
    ⟨[3, 0, 1, 2], .tagged rfl (.record rfl (.cons (.number _) (.cons (.string _)
      (.cons (.tagged rfl (.tagged rfl (.bool true))) .nil)))), by decide⟩
  have hname : ∀ x ∈ [("x" : Text), "s", "t"], Terminal.name.Spells x := by decide
  have hformed : Data.sample.WellFormed :=
    ⟨rfl, hname "x" (by decide), by decide, ⟨⟨3 * 2 ^ 51, -52, by decide +kernel⟩,
      by decide +kernel⟩, hname "s" (by decide), by decide, trivial, hname "t" (by decide), nofun,
      ⟨rfl, rfl, trivial⟩, trivial⟩
  obtain ⟨text, htext, hback⟩ :=
    data_reads_back hholds hformed (by decide) [.submit "let x = 1"]
  refine ⟨text, htext, ?_, (hback (.execute text) rfl).1⟩
  have hsample : text = Data.sample.text := Except.ok.inj (htext.symm.trans hholds.display)
  rw [hsample]
  decide +kernel

end Toplevel
