import Toplevel.Proofs.Code.Names
import Toplevel.Proofs.Host.Token
import Toplevel.Proofs.Number.Equality
import Toplevel.Proofs.Value.Ambiguity
import Toplevel.Syntax.ExprText

/-!
# The text of a tree tells the tree

Every node is written with its name and its parts in brackets, and so it can be seen where it ends,
whatever follows it: the texts of two trees are alike only if the trees are, but for the places that
they do not show (`Expr.text_alikeOnlyIf`, `Program.text_eq_iff`).
-/

namespace Toplevel

namespace Text

/-- Two texts are alike only if `R` holds, and then they end together, whatever follows them. -/
def AlikeOnlyIf (R : Prop) (s t : Text) : Prop := ∀ u v, s ++ u = t ++ v → R ∧ u = v

namespace AlikeOnlyIf

variable {R S : Prop} {s t s' t' : Text}

theorem refl (s : Text) : AlikeOnlyIf True s s :=
  fun _ _ h => ⟨trivial, List.append_cancel_left h⟩

theorem imp (h : AlikeOnlyIf R s t) (hRS : R → S) : AlikeOnlyIf S s t :=
  fun u v huv => (h u v huv).imp_left hRS

theorem append (h : AlikeOnlyIf R s t) (h' : AlikeOnlyIf S s' t') :
    AlikeOnlyIf (R ∧ S) (s ++ s') (t ++ t') := by
  intro u v huv
  rw [List.append_assoc, List.append_assoc] at huv
  obtain ⟨hR, huv⟩ := h _ _ huv
  obtain ⟨hS, huv⟩ := h' _ _ huv
  exact ⟨⟨hR, hS⟩, huv⟩

theorem prepend (w : Text) (h : AlikeOnlyIf R s t) : AlikeOnlyIf R (w ++ s) (w ++ t) :=
  ((refl w).append h).imp And.right

theorem of_ne {c d : CodePoint} (h : c ≠ d) (s t : Text) : AlikeOnlyIf R (c :: s) (d :: t) :=
  fun _ _ huv => absurd (List.cons.inj huv).1 h

end AlikeOnlyIf

/-! ### Atoms -/

theorem quoted_alikeOnlyIf (s t : Text) : AlikeOnlyIf (s = t) s.quoted t.quoted := by
  intro u v h
  have hs := hostLiteral?_quoted s u
  rw [h, hostLiteral?_quoted] at hs
  exact Prod.mk.inj (Option.some.inj hs.symm)

theorem ofBool_alikeOnlyIf (a b : Bool) : AlikeOnlyIf (a = b) (ofBool a) (ofBool b) := by
  cases a <;> cases b
  · exact (AlikeOnlyIf.refl _).imp fun _ => rfl
  · exact .of_ne (by decide) _ _
  · exact .of_ne (by decide) _ _
  · exact (AlikeOnlyIf.refl _).imp fun _ => rfl

theorem op_alikeOnlyIf (a b : BinaryOp) : AlikeOnlyIf (a = b) a.text.quoted b.text.quoted := by
  refine (quoted_alikeOnlyIf _ _).imp ?_
  cases a <;> cases b <;> decide

theorem ofFloat_infinite {x : Float} (hx : Binary.ofFloat x = .infinite false) :
    ofFloat x = "inf" := by
  rw [ofFloat, ofFloatWith, hx]
  rfl

theorem infinite_append_ne {y : Float} {m : Nat} {q : Int}
    (hy : Binary.ofFloat y = .finite false m q) (u v : Text) :
    ("inf" : Text) ++ u ≠ ofFloat y ++ v := by
  obtain ⟨s, hs, hys⟩ := exists_isNumeral_ofFloat hy
  obtain ⟨c, w, rfl, hc⟩ := hs.exists_cons
  rw [hys]
  intro h
  rw [← (List.cons.inj h).1] at hc
  exact absurd hc (by decide)

/-- What a number literal can denote is told by its text, with a bracket behind it. -/
theorem ofFloat_alikeOnlyIf {x y : Float} (hx : (Binary.ofFloat x).Unsigned)
    (hy : (Binary.ofFloat y).Unsigned) :
    AlikeOnlyIf (x = y) (ofFloat x ++ [(')' : CodePoint)]) (ofFloat y ++ [(')' : CodePoint)]) := by
  intro u v h
  rw [List.append_assoc, List.append_assoc] at h
  rcases hx.cases with hx | ⟨m, q, hx⟩ <;> rcases hy.cases with hy | ⟨n, r, hy⟩
  · rw [ofFloat_infinite hx, ofFloat_infinite hy] at h
    rw [Binary.eq_infinity hx, Binary.eq_infinity hy]
    exact ⟨rfl, List.append_cancel_left (List.append_cancel_left h)⟩
  · rw [ofFloat_infinite hx] at h
    exact absurd h (infinite_append_ne hy _ _)
  · rw [ofFloat_infinite hy] at h
    exact absurd h.symm (infinite_append_ne hx _ _)
  · obtain ⟨rfl, huv⟩ := ofFloat_append_inj hx hy (.cons (by decide)) (.cons (by decide)) h
    exact ⟨rfl, (List.cons.inj huv).2⟩

theorem tag_alikeOnlyIf (tag tag' : Option Text) : AlikeOnlyIf (tag = tag')
    (match tag with | none => "None" | some t => t.quoted)
    (match tag' with | none => "None" | some t => t.quoted) := by
  have hquote : ∀ t : Text, t.quoteFor ≠ 'N' := by
    intro t h
    have hisQuote := t.isQuote_quoteFor
    rw [h] at hisQuote
    exact absurd hisQuote (by decide)
  cases tag with
  | none =>
    cases tag' with
    | none => exact (AlikeOnlyIf.refl _).imp fun _ => rfl
    | some t' => exact .of_ne (hquote t').symm _ _
  | some t =>
    cases tag' with
    | none => exact .of_ne (hquote t) _ _
    | some t' => exact (quoted_alikeOnlyIf t t').imp fun h => by rw [h]

/-! ### Items -/

/-- Items of which two lists are alike only if `R` holds, with a bracket behind them. -/
inductive ItemsAlikeOnlyIf (close : CodePoint) : Prop → List Text → List Text → Prop
  | nil : ItemsAlikeOnlyIf close True [] []
  | cons {R S : Prop} {s t : Text} {ss ts : List Text} (h : AlikeOnlyIf R s t)
    (hs : ItemsAlikeOnlyIf close S ss ts) : ItemsAlikeOnlyIf close (R ∧ S) (s :: ss) (t :: ts)
  | nil_cons {R : Prop} {c : CodePoint} (h : c ≠ close) (t : Text) (ts : List Text) :
    ItemsAlikeOnlyIf close R [] ((c :: t) :: ts)
  | cons_nil {R : Prop} {c : CodePoint} (h : c ≠ close) (s : Text) (ss : List Text) :
    ItemsAlikeOnlyIf close R ((c :: s) :: ss) []
  | imp {R S : Prop} {ss ts : List Text} (h : ItemsAlikeOnlyIf close R ss ts) (hRS : R → S) :
    ItemsAlikeOnlyIf close S ss ts

namespace ItemsAlikeOnlyIf

variable {close : CodePoint} {R : Prop} {ss ts : List Text}

theorem further (h : ItemsAlikeOnlyIf close R ss ts) (hclose : close ≠ ',') :
    AlikeOnlyIf R ((ss.flatMap fun s => (", " : Text) ++ s) ++ [close])
      ((ts.flatMap fun t => (", " : Text) ++ t) ++ [close]) := by
  induction h with
  | nil => exact .refl _
  | cons h _ ih =>
    rw [List.flatMap_cons, List.flatMap_cons, List.append_assoc _ _ [close],
      List.append_assoc _ _ [close]]
    exact (h.prepend _).append ih
  | nil_cons => exact .of_ne hclose _ _
  | cons_nil => exact .of_ne hclose.symm _ _
  | imp _ hRS ih => exact ih.imp hRS

theorem join (h : ItemsAlikeOnlyIf close R ss ts) (hclose : close ≠ ',') :
    AlikeOnlyIf R (Text.join ", " ss ++ [close]) (Text.join ", " ts ++ [close]) := by
  induction h with
  | nil => exact .refl _
  | cons h hs =>
    rw [join_cons, join_cons, List.append_assoc, List.append_assoc]
    exact h.append (hs.further hclose)
  | nil_cons h t ts =>
    rw [join_cons]
    exact .of_ne h.symm _ _
  | cons_nil h s ss =>
    rw [join_cons]
    exact .of_ne h _ _
  | imp _ hRS ih => exact ih.imp hRS

theorem bracketed (h : ItemsAlikeOnlyIf ']' R ss ts) :
    AlikeOnlyIf R (Text.bracketed ss) (Text.bracketed ts) := by
  have hjoin := (h.join (by decide)).prepend "["
  simp only [Text.bracketed, concat, List.flatten_cons, List.flatten_nil, List.append_nil]
  exact hjoin

end ItemsAlikeOnlyIf

/-! ### Nodes -/

def part (p : Text × Text) : Text := concat [p.1, "=", p.2]

theorem AlikeOnlyIf.part {R : Prop} {s t : Text} (x : Text) (h : AlikeOnlyIf R s t) :
    AlikeOnlyIf R (Text.part (x, s)) (Text.part (x, t)) := by
  have hpart := (h.prepend "=").prepend x
  simp only [Text.part, concat, List.flatten_cons, List.flatten_nil, List.append_nil]
  exact hpart

theorem node_eq (name : Text) (parts : List (Text × Text)) :
    node name parts
      = name ++ ('(' : CodePoint) :: (join ", " (parts.map part) ++ [(')' : CodePoint)]) := by
  rw [node, concat, List.flatten_cons, List.flatten_cons, List.flatten_cons, List.flatten_cons,
    List.flatten_nil, List.append_nil]
  rfl

/-- Nodes of one name are alike only if their parts are. -/
theorem ItemsAlikeOnlyIf.node {R : Prop} {ps qs : List (Text × Text)} (name : Text)
    (h : ItemsAlikeOnlyIf ')' R (ps.map part) (qs.map part)) :
    AlikeOnlyIf R (Text.node name ps) (Text.node name qs) := by
  rw [node_eq, node_eq]
  exact ((h.join (by decide)).prepend ['(']).prepend name

/-- A node with one part, which may be told only with the bracket behind it. -/
theorem AlikeOnlyIf.node_of_closed {R : Prop} {name x s t : Text}
    (h : AlikeOnlyIf R (s ++ [(')' : CodePoint)]) (t ++ [(')' : CodePoint)])) :
    AlikeOnlyIf R (node name [(x, s)]) (node name [(x, t)]) := by
  have hnode := (((h.prepend "=").prepend x).prepend "(").prepend name
  simp only [node_eq, List.map_cons, List.map_nil, join_cons, List.flatMap_nil, List.append_nil,
    Text.part, concat, List.flatten_cons, List.flatten_nil, List.append_assoc]
  exact hnode

theorem AlikeOnlyIf.node₁ {R : Prop} {name x s t : Text} (h : AlikeOnlyIf R s t) :
    AlikeOnlyIf R (node name [(x, s)]) (node name [(x, t)]) :=
  (ItemsAlikeOnlyIf.node name (.cons (h.part x) .nil)).imp And.left

theorem AlikeOnlyIf.node₂ {R S : Prop} {name x s t x' s' t' : Text} (h : AlikeOnlyIf R s t)
    (h' : AlikeOnlyIf S s' t') :
    AlikeOnlyIf (R ∧ S) (node name [(x, s), (x', s')]) (node name [(x, t), (x', t')]) :=
  (ItemsAlikeOnlyIf.node name (.cons (h.part x) (.cons (h'.part x') .nil))).imp
    fun ⟨hR, hS, _⟩ => ⟨hR, hS⟩

theorem AlikeOnlyIf.node₃ {R S T : Prop} {name x s t x' s' t' x'' s'' t'' : Text}
    (h : AlikeOnlyIf R s t) (h' : AlikeOnlyIf S s' t') (h'' : AlikeOnlyIf T s'' t'') :
    AlikeOnlyIf (R ∧ S ∧ T) (node name [(x, s), (x', s'), (x'', s'')])
      (node name [(x, t), (x', t'), (x'', t'')]) :=
  (ItemsAlikeOnlyIf.node name
    (.cons (h.part x) (.cons (h'.part x') (.cons (h''.part x'') .nil)))).imp
    fun ⟨hR, hS, hT, _⟩ => ⟨hR, hS, hT⟩

/-- Nodes of different names are not alike. -/
theorem AlikeOnlyIf.node_of_ne {R : Prop} {x y : Text} (hx : ('(' : CodePoint) ∉ x)
    (hy : ('(' : CodePoint) ∉ y) (hne : x ≠ y) (ps qs : List (Text × Text)) :
    AlikeOnlyIf R (node x ps) (node y qs) := by
  have hname : ∀ {x : Text} (w : Text), ('(' : CodePoint) ∉ x →
      (x ++ ('(' : CodePoint) :: w).takeWhile (· ≠ ('(' : CodePoint)) = x := by
    intro x w hx
    have hall : ∀ c ∈ x, decide (c ≠ ('(' : CodePoint)) = true :=
      fun c hc => decide_eq_true fun he => hx (he ▸ hc)
    rw [List.takeWhile_append_of_pos hall, List.takeWhile_cons_of_neg (by simp), List.append_nil]
  intro u v h
  rw [node_eq, node_eq, List.append_assoc, List.append_assoc, List.cons_append,
    List.cons_append] at h
  have htake := congrArg (List.takeWhile (· ≠ ('(' : CodePoint))) h
  rw [hname _ hx, hname _ hy] at htake
  exact absurd htake hne

end Text

/-! ### Kinds of nodes -/

inductive NodeKind where
  | define
  | number
  | string
  | bool
  | var
  | func
  | apply
  | letIn
  | ifElse
  | matchWith
  | binary
  | neg
  | deref
  | assign
  | record
  | update
  | field
  | tagged
  | newRef

namespace NodeKind

def name : NodeKind → Text
  | define => "Let"
  | number => "Number"
  | string => "String"
  | bool => "Bool"
  | var => "Var"
  | func => "Func"
  | apply => "Apply"
  | letIn => "LetIn"
  | ifElse => "If"
  | matchWith => "Match"
  | binary => "BinaryOp"
  | neg => "Neg"
  | deref => "Deref"
  | assign => "Assign"
  | record => "Record"
  | update => "RecordUpdate"
  | field => "Field"
  | tagged => "Tag"
  | newRef => "NewRef"

theorem name_injective {k l : NodeKind} (h : k.name = l.name) : k = l := by
  cases k <;> cases l <;> first | rfl | exact absurd h (by decide)

theorem name_starts (k : NodeKind) : ∃ c w, k.name = c :: w ∧ c ≠ ']' := by
  cases k <;> exact ⟨_, _, rfl, by decide⟩

theorem notMem_name (k : NodeKind) : ('(' : CodePoint) ∉ k.name := by
  cases k <;> decide

end NodeKind

def Expr.kind : Expr → NodeKind
  | .number _ => .number
  | .string _ => .string
  | .bool _ => .bool
  | .var .. => .var
  | .func .. => .func
  | .apply .. => .apply
  | .letIn .. => .letIn
  | .ifElse .. => .ifElse
  | .matchWith .. => .matchWith
  | .binary .. => .binary
  | .neg _ => .neg
  | .deref _ => .deref
  | .assign .. => .assign
  | .record _ => .record
  | .update .. => .update
  | .field .. => .field
  | .tagged .. => .tagged
  | .newRef _ => .newRef

def Statement.kind : Statement → NodeKind
  | .define .. => .define
  | .expr e => e.kind

theorem Expr.exists_parts (e : Expr) : ∃ parts, e.text = .node e.kind.name parts := by
  cases e <;> exact ⟨_, rfl⟩

theorem Statement.exists_parts (s : Statement) : ∃ parts, s.text = .node s.kind.name parts := by
  cases s with
  | define => exact ⟨_, rfl⟩
  | expr e => exact e.exists_parts

theorem Statement.text_starts (s : Statement) : ∃ c w, s.text = c :: w ∧ c ≠ ']' := by
  obtain ⟨parts, hs⟩ := s.exists_parts
  obtain ⟨c, w, hname, hc⟩ := s.kind.name_starts
  rw [hs, Text.node_eq, hname]
  exact ⟨c, _, rfl, hc⟩

/-- Statements are alike only if they are of one kind. -/
theorem Statement.alikeOnlyIf_of_kind {s t : Statement} {R : Prop}
    (h : s.kind = t.kind → Text.AlikeOnlyIf R s.text t.text) :
    Text.AlikeOnlyIf R s.text t.text := by
  by_cases hkind : s.kind = t.kind
  · exact h hkind
  · obtain ⟨ps, hs⟩ := s.exists_parts
    obtain ⟨qs, ht⟩ := t.exists_parts
    rw [hs, ht]
    exact .node_of_ne s.kind.notMem_name t.kind.notMem_name
      (fun hname => hkind (NodeKind.name_injective hname)) ps qs

theorem Expr.alikeOnlyIf_of_kind {e f : Expr} {R : Prop}
    (h : e.kind = f.kind → Text.AlikeOnlyIf R e.text f.text) : Text.AlikeOnlyIf R e.text f.text :=
  Statement.alikeOnlyIf_of_kind (s := .expr e) (t := .expr f) h

/-! ### Trees -/

open Text

theorem pair_alikeOnlyIf {R S : Prop} {s t s' t' : Text} (h : AlikeOnlyIf R s t)
    (h' : AlikeOnlyIf S s' t') :
    AlikeOnlyIf (R ∧ S) (concat ["(", s, ", ", s', ")"]) (concat ["(", t, ", ", t', ")"]) := by
  have hpair := (h.append ((h'.append (.refl [(')' : CodePoint)])).prepend ", ")).prepend "("
  simp only [concat, List.flatten_cons, List.flatten_nil, List.append_nil]
  exact hpair.imp fun ⟨hR, hS, _⟩ => ⟨hR, hS⟩

mutual

/-- Expressions are alike only if they are the same but for their places. -/
theorem Expr.text_alikeOnlyIf : ∀ (e f : Expr), e.Named → f.Named →
    AlikeOnlyIf (e.unplaced = f.unplaced) e.text f.text
  | .number x, f, he, hf => Expr.alikeOnlyIf_of_kind fun hkind => by
    cases f with
    | number y =>
      refine (AlikeOnlyIf.node_of_closed (ofFloat_alikeOnlyIf he hf)).imp fun h => ?_
      rw [Expr.unplaced, Expr.unplaced, h]
    | _ => cases hkind
  | .string s, f, he, hf => Expr.alikeOnlyIf_of_kind fun hkind => by
    cases f with
    | string t =>
      refine (AlikeOnlyIf.node₁ (quoted_alikeOnlyIf s t)).imp fun h => ?_
      rw [Expr.unplaced, Expr.unplaced, h]
    | _ => cases hkind
  | .bool a, f, he, hf => Expr.alikeOnlyIf_of_kind fun hkind => by
    cases f with
    | bool b =>
      refine (AlikeOnlyIf.node₁ (ofBool_alikeOnlyIf a b)).imp fun h => ?_
      rw [Expr.unplaced, Expr.unplaced, h]
    | _ => cases hkind
  | .var x _, f, he, hf => Expr.alikeOnlyIf_of_kind fun hkind => by
    cases f with
    | var y _ =>
      refine (AlikeOnlyIf.node₁ (quoted_alikeOnlyIf x y)).imp fun h => ?_
      rw [Expr.unplaced, Expr.unplaced, h]
    | _ => cases hkind
  | .func x b, f, he, hf => Expr.alikeOnlyIf_of_kind fun hkind => by
    cases f with
    | func y c =>
      refine (AlikeOnlyIf.node₂ (quoted_alikeOnlyIf x y)
        (b.text_alikeOnlyIf c he.2 hf.2)).imp fun ⟨hx, hb⟩ => ?_
      rw [Expr.unplaced, Expr.unplaced, hx, hb]
    | _ => cases hkind
  | .apply g a, f, he, hf => Expr.alikeOnlyIf_of_kind fun hkind => by
    cases f with
    | apply h b =>
      refine (AlikeOnlyIf.node₂ (g.text_alikeOnlyIf h he.1 hf.1)
        (a.text_alikeOnlyIf b he.2 hf.2)).imp fun ⟨hg, ha⟩ => ?_
      rw [Expr.unplaced, Expr.unplaced, hg, ha]
    | _ => cases hkind
  | .letIn x v b, f, he, hf => Expr.alikeOnlyIf_of_kind fun hkind => by
    cases f with
    | letIn y w c =>
      refine (AlikeOnlyIf.node₃ (quoted_alikeOnlyIf x y) (v.text_alikeOnlyIf w he.2.1 hf.2.1)
        (b.text_alikeOnlyIf c he.2.2 hf.2.2)).imp fun ⟨hx, hv, hb⟩ => ?_
      rw [Expr.unplaced, Expr.unplaced, hx, hv, hb]
    | _ => cases hkind
  | .ifElse a b c, f, he, hf => Expr.alikeOnlyIf_of_kind fun hkind => by
    cases f with
    | ifElse a' b' c' =>
      refine (AlikeOnlyIf.node₃ (a.text_alikeOnlyIf a' he.1 hf.1)
        (b.text_alikeOnlyIf b' he.2.1 hf.2.1)
        (c.text_alikeOnlyIf c' he.2.2 hf.2.2)).imp fun ⟨ha, hb, hc⟩ => ?_
      rw [Expr.unplaced, Expr.unplaced, ha, hb, hc]
    | _ => cases hkind
  | .matchWith s as, f, he, hf => Expr.alikeOnlyIf_of_kind fun hkind => by
    cases f with
    | matchWith t bs =>
      refine (AlikeOnlyIf.node₂ (s.text_alikeOnlyIf t he.1 hf.1)
        (as.texts_alikeOnlyIf bs he.2 hf.2).bracketed).imp fun ⟨hs, has⟩ => ?_
      rw [Expr.unplaced, Expr.unplaced, hs, has]
    | _ => cases hkind
  | .binary op _ l r, f, he, hf => Expr.alikeOnlyIf_of_kind fun hkind => by
    cases f with
    | binary op' _ l' r' =>
      refine (AlikeOnlyIf.node₃ (op_alikeOnlyIf op op') (l.text_alikeOnlyIf l' he.1 hf.1)
        (r.text_alikeOnlyIf r' he.2 hf.2)).imp fun ⟨hop, hl, hr⟩ => ?_
      rw [Expr.unplaced, Expr.unplaced, hop, hl, hr]
    | _ => cases hkind
  | .neg a, f, he, hf => Expr.alikeOnlyIf_of_kind fun hkind => by
    cases f with
    | neg b =>
      refine (AlikeOnlyIf.node₁ (a.text_alikeOnlyIf b he hf)).imp fun h => ?_
      rw [Expr.unplaced, Expr.unplaced, h]
    | _ => cases hkind
  | .deref a, f, he, hf => Expr.alikeOnlyIf_of_kind fun hkind => by
    cases f with
    | deref b =>
      refine (AlikeOnlyIf.node₁ (a.text_alikeOnlyIf b he hf)).imp fun h => ?_
      rw [Expr.unplaced, Expr.unplaced, h]
    | _ => cases hkind
  | .assign t v, f, he, hf => Expr.alikeOnlyIf_of_kind fun hkind => by
    cases f with
    | assign u w =>
      refine (AlikeOnlyIf.node₂ (t.text_alikeOnlyIf u he.1 hf.1)
        (v.text_alikeOnlyIf w he.2 hf.2)).imp fun ⟨ht, hv⟩ => ?_
      rw [Expr.unplaced, Expr.unplaced, ht, hv]
    | _ => cases hkind
  | .record fs, f, he, hf => Expr.alikeOnlyIf_of_kind fun hkind => by
    cases f with
    | record gs =>
      refine (AlikeOnlyIf.node₁ (fs.texts_alikeOnlyIf gs he hf).bracketed).imp fun h => ?_
      rw [Expr.unplaced, Expr.unplaced, h]
    | _ => cases hkind
  | .update b fs, f, he, hf => Expr.alikeOnlyIf_of_kind fun hkind => by
    cases f with
    | update c gs =>
      refine (AlikeOnlyIf.node₂ (b.text_alikeOnlyIf c he.1 hf.1)
        (fs.texts_alikeOnlyIf gs he.2 hf.2).bracketed).imp fun ⟨hb, hfs⟩ => ?_
      rw [Expr.unplaced, Expr.unplaced, hb, hfs]
    | _ => cases hkind
  | .field b x, f, he, hf => Expr.alikeOnlyIf_of_kind fun hkind => by
    cases f with
    | field c y =>
      refine (AlikeOnlyIf.node₂ (b.text_alikeOnlyIf c he hf)
        (quoted_alikeOnlyIf x y)).imp fun ⟨hb, hx⟩ => ?_
      rw [Expr.unplaced, Expr.unplaced, hb, hx]
    | _ => cases hkind
  | .tagged t a, f, he, hf => Expr.alikeOnlyIf_of_kind fun hkind => by
    cases f with
    | tagged u b =>
      refine (AlikeOnlyIf.node₂ (quoted_alikeOnlyIf t u)
        (a.text_alikeOnlyIf b he.2 hf.2)).imp fun ⟨ht, ha⟩ => ?_
      rw [Expr.unplaced, Expr.unplaced, ht, ha]
    | _ => cases hkind
  | .newRef a, f, he, hf => Expr.alikeOnlyIf_of_kind fun hkind => by
    cases f with
    | newRef b =>
      refine (AlikeOnlyIf.node₁ (a.text_alikeOnlyIf b he hf)).imp fun h => ?_
      rw [Expr.unplaced, Expr.unplaced, h]
    | _ => cases hkind

theorem Arms.texts_alikeOnlyIf : ∀ (as bs : Arms), as.Named → bs.Named →
    ItemsAlikeOnlyIf ']' (as.unplaced = bs.unplaced) as.texts bs.texts
  | .nil, .nil, _, _ => .imp .nil fun _ => rfl
  | .nil, .cons .., _, _ => .nil_cons (by decide) _ _
  | .cons .., .nil, _, _ => .cons_nil (by decide) _ _
  | .cons tag x b rest, .cons tag' y c rest', has, hbs => by
    refine .imp (.cons (.node₃ (tag_alikeOnlyIf tag tag') (quoted_alikeOnlyIf x y)
      (b.text_alikeOnlyIf c has.2.1 hbs.2.1)) (rest.texts_alikeOnlyIf rest' has.2.2 hbs.2.2)) ?_
    rintro ⟨⟨htag, hx, hb⟩, hrest⟩
    rw [Arms.unplaced, Arms.unplaced, htag, hx, hb, hrest]

theorem Fields.texts_alikeOnlyIf : ∀ (fs gs : Fields), fs.Named → gs.Named →
    ItemsAlikeOnlyIf ']' (fs.unplaced = gs.unplaced) fs.texts gs.texts
  | .nil, .nil, _, _ => .imp .nil fun _ => rfl
  | .nil, .cons .., _, _ => .nil_cons (by decide) _ _
  | .cons .., .nil, _, _ => .cons_nil (by decide) _ _
  | .cons x v rest, .cons y w rest', hfs, hgs => by
    refine .imp (.cons (pair_alikeOnlyIf (quoted_alikeOnlyIf x y)
      (v.text_alikeOnlyIf w hfs.2.1 hgs.2.1)) (rest.texts_alikeOnlyIf rest' hfs.2.2 hgs.2.2)) ?_
    rintro ⟨⟨hx, hv⟩, hrest⟩
    rw [Fields.unplaced, Fields.unplaced, hx, hv, hrest]

end

theorem Statement.text_alikeOnlyIf (s t : Statement) (hs : s.Named) (ht : t.Named) :
    AlikeOnlyIf (s.unplaced = t.unplaced) s.text t.text := by
  refine Statement.alikeOnlyIf_of_kind fun hkind => ?_
  cases s with
  | define x v recursive =>
    cases t with
    | define y w recursive' =>
      refine (AlikeOnlyIf.node₃ (quoted_alikeOnlyIf x y) (v.text_alikeOnlyIf w hs.2 ht.2)
        (ofBool_alikeOnlyIf recursive recursive')).imp fun ⟨hx, hv, hrecursive⟩ => ?_
      rw [Statement.unplaced, Statement.unplaced, hx, hv, hrecursive]
    | expr e => cases e <;> cases hkind
  | expr e =>
    cases t with
    | define => cases e <;> cases hkind
    | expr f => exact (e.text_alikeOnlyIf f hs ht).imp fun h => congrArg Statement.expr h

theorem statements_alikeOnlyIf : ∀ {ss ts : List Statement}, (∀ s ∈ ss, s.Named) →
    (∀ t ∈ ts, t.Named) →
      ItemsAlikeOnlyIf ']' (ss.map Statement.unplaced = ts.map Statement.unplaced)
        (ss.map Statement.text) (ts.map Statement.text)
  | [], [], _, _ => .imp .nil fun _ => rfl
  | [], t :: ts, _, _ => by
    obtain ⟨c, w, ht, hc⟩ := t.text_starts
    simp only [List.map_cons, ht]
    exact .nil_cons hc _ _
  | s :: ss, [], _, _ => by
    obtain ⟨c, w, hs, hc⟩ := s.text_starts
    simp only [List.map_cons, hs]
    exact .cons_nil hc _ _
  | s :: ss, t :: ts, hss, hts => by
    obtain ⟨hs, hss⟩ := List.forall_mem_cons.1 hss
    obtain ⟨ht, hts⟩ := List.forall_mem_cons.1 hts
    refine .imp (.cons (s.text_alikeOnlyIf t hs ht) (statements_alikeOnlyIf hss hts)) ?_
    exact fun ⟨h, h'⟩ => congrArg₂ List.cons h h'

/-! ### Places are not shown -/

mutual

theorem Expr.text_unplaced : ∀ e : Expr, e.unplaced.text = e.text
  | .number _ | .string _ | .bool _ | .var .. => rfl
  | .func _ a | .neg a | .deref a | .newRef a | .field a _ | .tagged _ a => by
    simp only [Expr.unplaced, Expr.text, a.text_unplaced]
  | .apply a b | .letIn _ a b | .binary _ _ a b | .assign a b => by
    simp only [Expr.unplaced, Expr.text, a.text_unplaced, b.text_unplaced]
  | .ifElse c y n => by
    simp only [Expr.unplaced, Expr.text, c.text_unplaced, y.text_unplaced, n.text_unplaced]
  | .matchWith s as => by simp only [Expr.unplaced, Expr.text, s.text_unplaced, as.texts_unplaced]
  | .record fs => by simp only [Expr.unplaced, Expr.text, fs.texts_unplaced]
  | .update b fs => by simp only [Expr.unplaced, Expr.text, b.text_unplaced, fs.texts_unplaced]

theorem Arms.texts_unplaced : ∀ as : Arms, as.unplaced.texts = as.texts
  | .nil => rfl
  | .cons _ _ b rest => by
    simp only [Arms.unplaced, Arms.texts, b.text_unplaced, rest.texts_unplaced]

theorem Fields.texts_unplaced : ∀ fs : Fields, fs.unplaced.texts = fs.texts
  | .nil => rfl
  | .cons _ v rest => by
    simp only [Fields.unplaced, Fields.texts, v.text_unplaced, rest.texts_unplaced]

end

theorem Statement.text_unplaced (s : Statement) : s.unplaced.text = s.text := by
  cases s with
  | define x v recursive => simp only [unplaced, text, v.text_unplaced]
  | expr e => exact e.text_unplaced

theorem Program.text_unplaced (p : Program) : p.unplaced.text = p.text := by
  have hcomp : Statement.text ∘ Statement.unplaced = Statement.text :=
    funext Statement.text_unplaced
  rw [text, unplaced, List.map_map, hcomp]
  rfl

/-- Programs have the same text if they are the same but for their places. -/
theorem Program.text_eq_iff {p q : Program} (hp : p.Named) (hq : q.Named) :
    p.text = q.text ↔ p.unplaced = q.unplaced := by
  constructor
  · intro h
    have halike : AlikeOnlyIf _ p.text q.text :=
      .node₁ (statements_alikeOnlyIf hp.statements hq.statements).bracketed
    exact congrArg Program.mk (halike [] [] (by rw [h])).1
  · intro h
    rw [← p.text_unplaced, h, q.text_unplaced]

end Toplevel
